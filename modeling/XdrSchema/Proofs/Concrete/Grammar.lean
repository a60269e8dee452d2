import XdrSchema.Concrete.Tree
import XdrSchema.Proofs.Concrete.Pattern

/-! The grammar of specifications, one pattern for each rule, and what a derivation of it means. Spans run
from the first token of a derivation to its last. -/
namespace XdrSchema.Concrete.Grammar

open Pattern

abbrev keyword (k : Keyword) : Pattern := .token (.keyword k)

abbrev mark (m : Mark) : Pattern := .token (.mark m)

abbrev name : Pattern := .token .name

def wordOf (t : Token) : Word := ⟨t.text, t.span⟩

/-! ### Values -/

def number : Pattern := .token .number

def constRef : Pattern := name

def value : Pattern := number.alt constRef

def valueOf : value.Tree → Value
  | .inl t => .number (wordOf t.val)
  | .inr t => .reference (wordOf t.val)

def boundOf : value.opt.Tree → Option Value
  | .inl v => some (valueOf v)
  | .inr _ => none

/-! ### Types -/

def intType : Pattern := (keyword .int).alt (keyword .int32)

def uintType : Pattern := ((keyword .unsigned).seq (keyword .int).opt).alt (keyword .uint32)

def hyperType : Pattern := (keyword .hyper).alt (keyword .int64)

def uhyperType : Pattern := ((keyword .unsigned).seq (keyword .hyper)).alt (keyword .uint64)

def floatType : Pattern := keyword .float

def doubleType : Pattern := keyword .double

def boolType : Pattern := keyword .bool

def nameType : Pattern := name

def typeSpecifier : Pattern :=
  intType.alt <| uintType.alt <| hyperType.alt <| uhyperType.alt <| floatType.alt <| doubleType.alt <|
    boolType.alt nameType

def baseOf : typeSpecifier.Tree → Base String
  | .inl _ => .primitive .int
  | .inr (.inl _) => .primitive .unsignedInt
  | .inr (.inr (.inl _)) => .primitive .hyper
  | .inr (.inr (.inr (.inl _))) => .primitive .unsignedHyper
  | .inr (.inr (.inr (.inr (.inl _)))) => .primitive .float
  | .inr (.inr (.inr (.inr (.inr (.inl _))))) => .primitive .double
  | .inr (.inr (.inr (.inr (.inr (.inr (.inl _)))))) => .primitive .bool
  | .inr (.inr (.inr (.inr (.inr (.inr (.inr t)))))) => .named t.val.text

/-- The first token of a type. -/
def typeToken : typeSpecifier.Tree → Token
  | .inl (.inl t) => t.val
  | .inl (.inr t) => t.val
  | .inr (.inl (.inl d)) => d.1.val
  | .inr (.inl (.inr t)) => t.val
  | .inr (.inr (.inl (.inl t))) => t.val
  | .inr (.inr (.inl (.inr t))) => t.val
  | .inr (.inr (.inr (.inl (.inl d)))) => d.1.val
  | .inr (.inr (.inr (.inl (.inr t)))) => t.val
  | .inr (.inr (.inr (.inr (.inl t)))) => t.val
  | .inr (.inr (.inr (.inr (.inr (.inl t))))) => t.val
  | .inr (.inr (.inr (.inr (.inr (.inr (.inl t)))))) => t.val
  | .inr (.inr (.inr (.inr (.inr (.inr (.inr t)))))) => t.val

/-! ### Declarations -/

/-- A length in square brackets. -/
def lengthSuffix : Pattern := (mark .openBracket).seq <| value.seq (mark .closeBracket)

/-- A bound in angle brackets, which may be left out. -/
def boundSuffix : Pattern := (mark .less).seq <| value.opt.seq (mark .greater)

def plainDecl : Pattern := typeSpecifier.seq name

def fixedArrayDecl : Pattern := typeSpecifier.seq <| name.seq lengthSuffix

def varArrayDecl : Pattern := typeSpecifier.seq <| name.seq boundSuffix

def fixedOpaqueDecl : Pattern := (keyword .opaqueData).seq <| name.seq lengthSuffix

def varOpaqueDecl : Pattern := (keyword .opaqueData).seq <| name.seq boundSuffix

def stringDecl : Pattern := (keyword .string).seq <| name.seq boundSuffix

def optionalDecl : Pattern := typeSpecifier.seq <| (mark .star).seq name

def voidDecl : Pattern := keyword .void

def declaration : Pattern :=
  plainDecl.alt <| fixedArrayDecl.alt <| varArrayDecl.alt <| fixedOpaqueDecl.alt <| varOpaqueDecl.alt <|
    stringDecl.alt <| optionalDecl.alt voidDecl

/-- The declaration of `name` from the token `first` to the token `last`. -/
def item (first : Token) (name : Token) (type : TypeExpr Value String) (last : Token) : Declaration :=
  .item (wordOf name) type (first.span.cover last.span)

def declarationOf : declaration.Tree → Declaration
  | .inl (b, name) => item (typeToken b) name.val (.plain (baseOf b)) name.val
  | .inr (.inl (b, name, _, n, close)) => item (typeToken b) name.val (.array (baseOf b) (valueOf n)) close.val
  | .inr (.inr (.inl (b, name, _, n, close))) =>
    item (typeToken b) name.val (.vector (baseOf b) (boundOf n)) close.val
  | .inr (.inr (.inr (.inl (first, name, _, n, close)))) =>
    item first.val name.val (.fixedBytes (valueOf n)) close.val
  | .inr (.inr (.inr (.inr (.inl (first, name, _, n, close))))) =>
    item first.val name.val (.bytes (boundOf n)) close.val
  | .inr (.inr (.inr (.inr (.inr (.inl (first, name, _, n, close)))))) =>
    item first.val name.val (.string (boundOf n)) close.val
  | .inr (.inr (.inr (.inr (.inr (.inr (.inl (b, _, name))))))) =>
    item (typeToken b) name.val (.optional (baseOf b)) name.val
  | .inr (.inr (.inr (.inr (.inr (.inr (.inr t)))))) => .void t.val.span

/-! ### Definitions -/

def constDef : Pattern :=
  (keyword .const).seq <| name.seq <| (mark .equals).seq <| value.seq (mark .semicolon)

def typedefDef : Pattern := (keyword .typedef).seq <| declaration.seq (mark .semicolon)

def enumMember : Pattern := name.seq <| (mark .equals).seq value

def enumBody : Pattern :=
  (mark .openBrace).seq <| enumMember.seq <| ((mark .comma).seq enumMember).many.seq (mark .closeBrace)

def enumDef : Pattern := (keyword .enum).seq <| name.seq <| enumBody.seq (mark .semicolon)

def field : Pattern := declaration.seq (mark .semicolon)

def structBody : Pattern := (mark .openBrace).seq <| field.some.seq (mark .closeBrace)

def structDef : Pattern := (keyword .struct).seq <| name.seq <| structBody.seq (mark .semicolon)

def caseLabel : Pattern := (keyword .case).seq <| value.seq (mark .colon)

def caseArm : Pattern := caseLabel.some.seq field

def defaultArm : Pattern := (keyword .default).seq <| (mark .colon).seq field

def arm : Pattern := caseArm.alt defaultArm

def unionBody : Pattern :=
  (keyword .switch).seq <| (mark .openParen).seq <| declaration.seq <| (mark .closeParen).seq <|
    (mark .openBrace).seq <| arm.some.seq (mark .closeBrace)

def unionDef : Pattern := (keyword .union).seq <| name.seq <| unionBody.seq (mark .semicolon)

def definition : Pattern := constDef.alt <| typedefDef.alt <| enumDef.alt <| structDef.alt unionDef

def specification : Pattern := definition.many

/-! ### Meaning of definitions -/

def memberOf : enumMember.Tree → Word × Value
  | (name, _, v) => (wordOf name.val, valueOf v)

def membersOf : enumBody.Tree → List (Word × Value)
  | (_, first, others, _) => memberOf first :: List.map (fun d => memberOf d.2) others

def fieldsOf : structBody.Tree → List Declaration
  | (_, (first, others), _) => declarationOf first.1 :: List.map (fun d => declarationOf d.1) others

def labelOf : caseLabel.Tree → Value
  | (_, v, _) => valueOf v

def armOf : arm.Tree → Arm
  | .inl ((first, others), d, last) =>
    .case (labelOf first :: List.map labelOf others) (declarationOf d) (first.1.val.span.cover last.val.span)
  | .inr (first, _, d, last) => .default (declarationOf d) (first.val.span.cover last.val.span)

/-- The body of the union `name`. -/
def unionOf (name : Token) : unionBody.Tree → Body
  | (_, _, switch, _, _, (first, others), _) =>
    .union (wordOf name) (declarationOf switch) (armOf first :: List.map armOf others)

def definitionOf : definition.Tree → Definition
  | .inl (first, name, _, v, last) =>
    ⟨.const (wordOf name.val) (valueOf v), first.val.span.cover last.val.span⟩
  | .inr (.inl (first, d, last)) => ⟨.typedef (declarationOf d), first.val.span.cover last.val.span⟩
  | .inr (.inr (.inl (first, name, body, last))) =>
    ⟨.enum (wordOf name.val) (membersOf body), first.val.span.cover last.val.span⟩
  | .inr (.inr (.inr (.inl (first, name, body, last)))) =>
    ⟨.struct (wordOf name.val) (fieldsOf body), first.val.span.cover last.val.span⟩
  | .inr (.inr (.inr (.inr (first, name, body, last)))) =>
    ⟨unionOf name.val body, first.val.span.cover last.val.span⟩

def meaning (d : specification.Tree) : List Definition := List.map definitionOf d

end XdrSchema.Concrete.Grammar
