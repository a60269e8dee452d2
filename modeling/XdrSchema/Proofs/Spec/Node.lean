import XdrSchema.Proofs.Concrete.Stretch
import XdrSchema.Proofs.Spec.Words

/-! The parts of a specification that have places, and what their places say when they lie on the tokens that they
are written with. Main statements: `Lies.exists_of_reaches`, `Lies.inside`, `Row.pairwise`. -/
namespace XdrSchema.Spec

open Concrete (Lexeme Ordered Token)

/-! ### The parts of a specification -/

/-- A part that has a place. -/
inductive Node
  | definition (d : Definition)
  | field (f : Field Ty)
  | discriminant (f : Field (Base String))
  | void (span : Span)
  | member (m : Member)
  | arm (a : Arm)
  | value (v : Value)

namespace Node

def ofPayload : Payload → Node
  | .void span => void span
  | .field f => field f

def span : Node → Span
  | definition d => d.span
  | field f => f.span
  | discriminant f => f.span
  | void s => s
  | member m => m.span
  | arm a => a.span
  | value v => v.span

/-- The parts of a part. The default arm of a union has no place but its payload's, which stands last. -/
def children : Node → List Node
  | definition ⟨_, .const v, _, _⟩ => [value v]
  | definition ⟨_, .typedef t, _, _⟩ => t.bound?.toList.map value
  | definition ⟨_, .struct fields, _, _⟩ => fields.map field
  | definition ⟨_, .enum members, _, _⟩ => members.map member
  | definition ⟨_, .union u, _, _⟩ =>
    discriminant u.discriminant :: (u.arms.map arm ++ u.default.toList.map ofPayload)
  | field f => f.type.bound?.toList.map value
  | member m => [value m.value]
  | arm a => a.labels.map value ++ [ofPayload a.payload]
  | discriminant _ | void _ | value _ => []

/-- The parts of a part as a text may have them: the default arm stands at any place among the arms. -/
inductive Arranged : Node → List Node → Prop
  | union {name : String} {u : Union} {span nameSpan : Span} {before after : List Arm}
    (harms : u.arms = before ++ after) : Arranged (definition ⟨name, .union u, span, nameSpan⟩)
      (discriminant u.discriminant :: (before.map arm ++ (u.default.toList.map ofPayload ++ after.map arm)))
  | other {n : Node} (h : ∀ name u span nameSpan, n ≠ definition ⟨name, .union u, span, nameSpan⟩) :
    Arranged n n.children

/-- The text that stands at a place of its own: a name, or a value as it is written. -/
def written? : Node → Option (String × Span)
  | definition d => some (d.name, d.nameSpan)
  | field f => some (f.name, f.nameSpan)
  | discriminant f => some (f.name, f.nameSpan)
  | member m => some (m.name, m.span)
  | value v => some (v.text, v.span)
  | void _ | arm _ => none

inductive Words : Node → List Lexeme → Prop
  | definition {d : Definition} {w : List Lexeme} (h : DefinitionWords d w) : Words (definition d) w
  | field {f : Field Ty} {w : List Lexeme} (h : DeclarationWords f.name f.type w) : Words (field f) w
  | discriminant {f : Field (Base String)} {w : List Lexeme} (h : BaseWords f.type w) :
    Words (discriminant f) (w ++ [word f.name])
  | void {span : Span} : Words (void span) [keyword .void]
  | member {m : Member} : Words (member m) (memberWords m)
  | arm {a : Arm} {w : List Lexeme} (h : PayloadWords a.payload w) :
    Words (arm a) (a.labels.flatMap labelWords ++ (w ++ [mark .semicolon]))
  | value {v : Value} : Words (value v) [v.lexeme]

/-- Of the tokens of a part, those that its place covers: the place of an enumeration's member is that of its
name. -/
def own : Node → List Token → List Token
  | member _, ts => ts.take 1
  | _, ts => ts

/-- Of the tokens of a part, those that its parts can be among. -/
def inner : Node → List Token → List Token
  | member _, ts => ts.drop 1
  | _, ts => ts

theorem own_infix (n : Node) (ts : List Token) : n.own ts <:+: ts := by
  cases n with
  | member m => exact (List.take_prefix 1 ts).isInfix
  | _ => exact List.infix_refl ts

theorem inner_infix (n : Node) (ts : List Token) : n.inner ts <:+: ts := by
  cases n with
  | member m => exact (List.drop_suffix 1 ts).isInfix
  | _ => exact List.infix_refl ts

theorem mem_of_arranged {n c : Node} {order : List Node} (h : n.Arranged order) (hc : c ∈ n.children) : c ∈ order := by
  cases h with
  | union harms =>
    simp only [children, harms, List.map_append, List.mem_cons, List.mem_append] at hc ⊢
    tauto
  | other h => exact hc

end Node

/-- From the first token to the last. -/
def Spans (s : Span) (ts : List Token) : Prop :=
  ∃ first ∈ ts.head?, ∃ last ∈ ts.getLast?, s = first.span.cover last.span

/-! ### Lying on tokens -/

mutual

/-- The part is written with these tokens, and they are where its place and those of its parts say. -/
inductive Lies : Node → List Token → Prop
  | mk {n : Node} {ts : List Token} {order : List Node} (hwords : n.Words (ts.map Token.lexeme))
    (hspan : Spans n.span (n.own ts))
    (hwritten : ∀ x ∈ n.written?, ∃ t ∈ n.own ts, t.text = x.1 ∧ t.span = x.2)
    (horder : n.Arranged order) (hrow : Row order (n.inner ts)) : Lies n ts

/-- The parts lie one after the other, with other tokens between them. -/
inductive Row : List Node → List Token → Prop
  | nil {ts : List Token} : Row [] ts
  | cons {n : Node} {ns : List Node} {mid after : List Token} (before : List Token) (h : Lies n mid)
    (hrow : Row ns after) : Row (n :: ns) (before ++ (mid ++ after))

end

/-- The second is the first or is in it, at whatever depth. -/
inductive Node.Reaches : Node → Node → Prop
  | refl {n : Node} : Reaches n n
  | child {n c m : Node} (hc : c ∈ n.children) (h : Reaches c m) : Reaches n m

variable {n m c : Node} {ns ms : List Node} {ts us : List Token} {s : Span}

theorem Row.exists_of_mem (h : Row ns ts) (hn : n ∈ ns) : ∃ mid, mid <:+: ts ∧ Lies n mid := by
  induction ns generalizing ts with
  | nil => cases hn
  | cons m ns ih =>
    cases h with
    | @cons _ _ mid after before hm hrow =>
      rcases List.mem_cons.mp hn with rfl | hn
      · exact ⟨mid, ⟨before, after, List.append_assoc _ _ _⟩, hm⟩
      · obtain ⟨mid', hinfix, hlies⟩ := ih hrow hn
        have hafter : after <:+: before ++ (mid ++ after) :=
          ((List.suffix_append mid after).trans (List.suffix_append before _)).isInfix
        exact ⟨mid', hinfix.trans hafter, hlies⟩

theorem Lies.exists_of_child (h : Lies n ts) (hc : c ∈ n.children) : ∃ mid, mid <:+: n.inner ts ∧ Lies c mid := by
  obtain ⟨-, -, -, horder, hrow⟩ := h
  exact hrow.exists_of_mem (Node.mem_of_arranged horder hc)

/-- Each part lies on some of the tokens of the whole. -/
theorem Lies.exists_of_reaches (hreaches : n.Reaches m) (h : Lies n ts) : ∃ us, us <:+: ts ∧ Lies m us := by
  induction hreaches generalizing ts with
  | refl => exact ⟨ts, List.infix_refl ts, h⟩
  | child hc _ ih =>
    obtain ⟨mid, hmid, hlies⟩ := h.exists_of_child hc
    obtain ⟨us, hus, hm⟩ := ih hlies
    exact ⟨us, hus.trans (hmid.trans (Node.inner_infix _ _)), hm⟩

/-! ### Places in order -/

/-- What covers tokens covers each of them. -/
theorem Spans.inside (h : Spans s ts) (hts : Ordered ts) {first last : Token} (hfirst : first ∈ ts)
    (hlast : last ∈ ts) : (first.span.cover last.span).Inside s := by
  obtain ⟨a, ha, b, hb, rfl⟩ := h
  exact ⟨hts.le_start ha hfirst, hts.stop_le hb hlast⟩

/-- A place goes from one token of a part to another. -/
theorem Lies.exists_tokens (h : Lies n ts) : ∃ first ∈ ts, ∃ last ∈ ts, n.span = first.span.cover last.span := by
  obtain ⟨-, ⟨first, hfirst, last, hlast, hspan⟩, -⟩ := h
  exact ⟨first, (n.own_infix ts).subset (List.mem_of_mem_head? hfirst), last,
    (n.own_infix ts).subset (List.mem_of_mem_getLast? hlast), hspan⟩

theorem Lies.inside (h : Lies n ts) (hts : Ordered ts) (hn : ∀ m, n ≠ .member m) (hc : c ∈ n.children) :
    c.span.Inside n.span := by
  obtain ⟨mid, hmid, hlies⟩ := h.exists_of_child hc
  obtain ⟨first, hfirst, last, hlast, heq⟩ := hlies.exists_tokens
  obtain ⟨-, hspan, -⟩ := h
  have hown : n.own ts = ts := by
    cases n with
    | member m => exact (hn m rfl).elim
    | _ => rfl
  have hsub := (hmid.trans (n.inner_infix ts)).subset
  rw [hown] at hspan
  rw [heq]
  exact hspan.inside hts (hsub hfirst) (hsub hlast)

theorem Lies.before (h : Lies n ts) (hm : Lies m us) (hbefore : ∀ t ∈ ts, ∀ u ∈ us, t.span.Before u.span) :
    n.span.Before m.span := by
  obtain ⟨_, _, last, hlast, hn⟩ := h.exists_tokens
  obtain ⟨first, hfirst, _, _, hm⟩ := hm.exists_tokens
  rw [hn, hm]
  exact hbefore last hlast first hfirst

/-- Parts that lie in a row have places in a row. -/
theorem Row.pairwise (h : Row ns ts) (hts : Ordered ts) : ns.Pairwise fun a b => a.span.Before b.span := by
  induction ns generalizing ts with
  | nil => exact .nil
  | cons n ns ih =>
    cases h with
    | @cons _ _ mid after before hn hrow =>
      have htail : Ordered (mid ++ after) := hts.sublist (List.sublist_append_right before _)
      refine .cons (fun m hm => ?_) (ih hrow (htail.sublist (List.sublist_append_right mid after)))
      obtain ⟨us, hus, hlies⟩ := hrow.exists_of_mem hm
      exact hn.before hlies fun t ht u hu =>
        (List.pairwise_append.mp htail.row).2.2 t ht u (hus.subset hu)

theorem Lies.before_value {x : Member} (h : Lies (.member x) ts) (hts : Ordered ts) : x.span.Before x.value.span := by
  obtain ⟨mid, hmid, hlies⟩ := h.exists_of_child (c := .value x.value) List.mem_cons_self
  obtain ⟨first, hfirst, _, _, hvalue⟩ := hlies.exists_tokens
  obtain ⟨-, ⟨_, _, last, hlast, hspan⟩, -⟩ := h
  have hlast := List.mem_of_mem_getLast? hlast
  have hrow := hts.row
  rw [← List.take_append_drop 1 ts] at hrow
  have hbefore := (List.pairwise_append.mp hrow).2.2 last hlast first (hmid.subset hfirst)
  change x.value.span = _ at hvalue
  change x.span = _ at hspan
  rw [hspan, hvalue]
  exact hbefore

end XdrSchema.Spec
