import XdrSchema.Concrete.Reader
import XdrSchema.Diagnostic.Fault

/-! Reading a whole text. A character that starts no token is a fault only when the tokens before
it could be continued. -/
namespace XdrSchema.Concrete

/-- The fault for a reader that stopped. The end of a text has no place of its own: it is reported
at the start of the last token, or of the text when there is none. -/
def Stop.error (s : Stop) (ts : Tokens) : SpecError :=
  match s.rest, ts.illegal with
  | t :: _, _ => ⟨.grammar (.token t.text s.expected), some t.span.head⟩
  | [], some (c, p) => ⟨.grammar (.character c), some (Span.point p)⟩
  | [], none =>
    let place := match ts.tokens.getLast? with
      | some t => t.span.head
      | none => Span.point Position.start
    ⟨.grammar (.endOfInput s.expected), some place⟩

/-- The concrete tree of a text. -/
def parse (text : String) : Except SpecError (List Definition) :=
  let ts := tokens text
  match specification.run ts.tokens, ts.illegal with
  | .error s, _ => throw (s.error ts)
  | .ok (_, rest), some _ => throw ((⟨[], rest⟩ : Stop).error ts)
  | .ok (definitions, _), none => return definitions

end XdrSchema.Concrete
