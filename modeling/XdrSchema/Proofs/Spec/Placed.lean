import XdrSchema.Proofs.Concrete.Fault
import XdrSchema.Proofs.Spec.Layout

/-! Properties of places that go from the tokens of a text to whatever is read from them: to the parts of its
specification and to the fault that keeps it from being one. Main statements: `placed_of_parse`,
`placed_of_parse_error`. -/
namespace XdrSchema

/-- An error whose place, if it has one, has the property `P`. -/
def SpecError.Placed (P : Span → Prop) (e : SpecError) : Prop := ∀ s ∈ e.span, P s

namespace Concrete

variable {P : Span → Prop}

/-! ### The concrete tree -/

/-- Whatever starts with one of these tokens has the property `P`. -/
def Starts (P : Span → Prop) (ts : List Token) : Prop := ∀ t ∈ ts, ∀ s, P (t.span.cover s)

theorem Starts.self {ts : List Token} (h : Starts P ts) {t : Token} (ht : t ∈ ts) : P t.span := h t ht t.span

def Value.Placed (P : Span → Prop) : Value → Prop
  | .number w | .reference w => P w.span

def Declaration.Placed (P : Span → Prop) : Declaration → Prop
  | .void s => P s
  | .item name t s => P name.span ∧ (∀ v ∈ t.bound?, v.Placed P) ∧ P s

def Arm.Placed (P : Span → Prop) : Arm → Prop
  | .case labels d s => (∀ v ∈ labels, v.Placed P) ∧ d.Placed P ∧ P s
  | .default d s => d.Placed P ∧ P s

def Body.Placed (P : Span → Prop) : Body → Prop
  | .const _ v => v.Placed P
  | .typedef d => d.Placed P
  | .struct _ fields => ∀ d ∈ fields, d.Placed P
  | .enum _ members => ∀ m ∈ members, m.2.Placed P
  | .union _ switch arms => switch.Placed P ∧ ∀ a ∈ arms, a.Placed P

def Definition.Placed (P : Span → Prop) (d : Definition) : Prop := d.body.Placed P ∧ P d.span

theorem Declaration.Placed.span {d : Declaration} (h : d.Placed P) : P d.span := by
  cases d with
  | void s => exact h
  | item name t s => exact h.2.2

namespace Grammar

open Pattern

theorem placed_value {d : value.Tree} (h : Starts P d.yield) : (valueOf d).Placed P := by
  cases d with
  | inl t | inr t => exact h.self List.mem_cons_self

theorem placed_bound {d : value.opt.Tree} (h : Starts P d.yield) : ∀ v ∈ boundOf d, v.Placed P := by
  cases d with
  | inl v =>
    rintro _ ⟨⟩
    exact placed_value h
  | inr _ => exact nofun

theorem placed_lengthSuffix {d : lengthSuffix.Tree} (h : Starts P d.yield) : (valueOf d.2.1).Placed P :=
  placed_value (List.forall_mem_append.mp (List.forall_mem_append.mp h).2).1

theorem placed_boundSuffix {d : boundSuffix.Tree} (h : Starts P d.yield) : ∀ v ∈ boundOf d.2.1, v.Placed P :=
  placed_bound (List.forall_mem_append.mp (List.forall_mem_append.mp h).2).1

theorem placed_item {first name : Token} {ts : List Token} {type : TypeExpr Value String} (last : Token)
    (h : Starts P ts) (hfirst : first ∈ ts) (hname : name ∈ ts) (htype : ∀ v ∈ type.bound?, v.Placed P) :
    (item first name type last).Placed P :=
  ⟨h.self hname, htype, h first hfirst last.span⟩

theorem typeToken_mem (d : typeSpecifier.Tree) : typeToken d ∈ d.yield :=
  List.mem_of_mem_head? (Spec.head?_typeSpecifier d)

theorem placed_declaration {d : declaration.Tree} (h : Starts P d.yield) : (declarationOf d).Placed P := by
  rcases d with ⟨b, name⟩ | ⟨b, name, s⟩ | ⟨b, name, s⟩ | ⟨t, name, s⟩ | ⟨t, name, s⟩ | ⟨t, name, s⟩ |
    ⟨b, star, name⟩ | t
  · exact placed_item name.val h (List.mem_append_left _ (typeToken_mem b))
      (List.mem_append_right _ List.mem_cons_self) nofun
  · have hs := (List.forall_mem_append.mp (List.forall_mem_append.mp h).2).2
    refine placed_item s.2.2.val h (List.mem_append_left _ (typeToken_mem b))
      (List.mem_append_right _ List.mem_cons_self) ?_
    rintro _ ⟨⟩
    exact placed_lengthSuffix hs
  · have hs := (List.forall_mem_append.mp (List.forall_mem_append.mp h).2).2
    exact placed_item s.2.2.val h (List.mem_append_left _ (typeToken_mem b))
      (List.mem_append_right _ List.mem_cons_self) (placed_boundSuffix hs)
  · have hs := (List.forall_mem_append.mp (List.forall_mem_append.mp h).2).2
    refine placed_item s.2.2.val h List.mem_cons_self (List.mem_append_right _ List.mem_cons_self) ?_
    rintro _ ⟨⟩
    exact placed_lengthSuffix hs
  · have hs := (List.forall_mem_append.mp (List.forall_mem_append.mp h).2).2
    exact placed_item s.2.2.val h List.mem_cons_self (List.mem_append_right _ List.mem_cons_self)
      (placed_boundSuffix hs)
  · have hs := (List.forall_mem_append.mp (List.forall_mem_append.mp h).2).2
    exact placed_item s.2.2.val h List.mem_cons_self (List.mem_append_right _ List.mem_cons_self)
      (placed_boundSuffix hs)
  · exact placed_item name.val h (List.mem_append_left _ (typeToken_mem b))
      (List.mem_append_right _ (List.mem_append_right _ List.mem_cons_self)) nofun
  · exact h.self List.mem_cons_self

theorem placed_field {d : field.Tree} (h : Starts P d.yield) : (declarationOf d.1).Placed P :=
  placed_declaration (List.forall_mem_append.mp h).1

/-- Items one after the other are placed when each of them is. -/
theorem placed_many {α : Type} {p : Pattern} {g : p.Tree → α} {Q : α → Prop} {ds : List p.Tree}
    (h : Starts P (Tree.yield (p := p.many) ds)) (hg : ∀ d, Starts P d.yield → Q (g d)) : ∀ a ∈ ds.map g, Q a := by
  intro a ha
  obtain ⟨d, hd, rfl⟩ := List.mem_map.mp ha
  exact hg d (List.forall_mem_flatMap.mp h d hd)

theorem placed_fields {d : structBody.Tree} (h : Starts P d.yield) : ∀ f ∈ fieldsOf d, f.Placed P := by
  obtain ⟨openBrace, ⟨first, others⟩, closeBrace⟩ := d
  have hfields : Starts P (Tree.yield (p := field.many) (first :: others)) :=
    (List.forall_mem_append.mp (List.forall_mem_append.mp h).2).1
  exact placed_many hfields fun d hd => placed_field hd

theorem placed_member {d : enumMember.Tree} (h : Starts P d.yield) : (memberOf d).2.Placed P :=
  placed_value (List.forall_mem_append.mp (List.forall_mem_append.mp h).2).2

theorem placed_members {d : enumBody.Tree} (h : Starts P d.yield) : ∀ m ∈ membersOf d, m.2.Placed P := by
  obtain ⟨openBrace, first, others, closeBrace⟩ := d
  obtain ⟨hfirst, htail⟩ := List.forall_mem_append.mp (List.forall_mem_append.mp h).2
  have hothers : Starts P (Tree.yield (p := ((mark .comma).seq enumMember).many) others) :=
    (List.forall_mem_append.mp htail).1
  have hmember : ∀ d : ((mark .comma).seq enumMember).Tree, Starts P d.yield → (memberOf d.2).2.Placed P :=
    fun d hd => placed_member (List.forall_mem_append.mp hd).2
  exact List.forall_mem_cons.mpr ⟨placed_member hfirst, placed_many hothers hmember⟩

theorem placed_label {d : caseLabel.Tree} (h : Starts P d.yield) : (labelOf d).Placed P :=
  placed_value (List.forall_mem_append.mp (List.forall_mem_append.mp h).2).1

theorem placed_arm {d : arm.Tree} (h : Starts P d.yield) : (armOf d).Placed P := by
  rcases d with ⟨⟨first, others⟩, d, last⟩ | ⟨first, colon, d, last⟩
  · obtain ⟨hlabels, hd⟩ := List.forall_mem_append.mp h
    have hlabels : Starts P (Tree.yield (p := caseLabel.many) (first :: others)) := hlabels
    exact ⟨placed_many hlabels fun d hd => placed_label hd, placed_field hd,
      h _ (List.mem_append_left _ List.mem_cons_self) _⟩
  · exact ⟨placed_field (List.forall_mem_append.mp (List.forall_mem_append.mp h).2).2,
      h _ List.mem_cons_self _⟩

theorem placed_union {d : unionBody.Tree} (name : Token) (h : Starts P d.yield) : (unionOf name d).Placed P := by
  obtain ⟨keyword, openParen, switch, closeParen, openBrace, ⟨first, others⟩, closeBrace⟩ := d
  obtain ⟨hswitch, htail⟩ := List.forall_mem_append.mp (List.forall_mem_append.mp (List.forall_mem_append.mp h).2).2
  have harms : Starts P (Tree.yield (p := arm.many) (first :: others)) :=
    (List.forall_mem_append.mp (List.forall_mem_append.mp (List.forall_mem_append.mp htail).2).2).1
  exact ⟨placed_declaration hswitch, placed_many harms fun d hd => placed_arm hd⟩

theorem placed_definition {d : definition.Tree} (h : Starts P d.yield) : (definitionOf d).Placed P := by
  rcases d with ⟨first, name, equals, v, last⟩ | ⟨first, d, last⟩ | ⟨first, name, body, last⟩ |
    ⟨first, name, body, last⟩ | ⟨first, name, body, last⟩
  all_goals refine ⟨?_, h _ List.mem_cons_self _⟩
  all_goals have htail := (List.forall_mem_append.mp h).2
  · exact placed_value (List.forall_mem_append.mp (List.forall_mem_append.mp (List.forall_mem_append.mp htail).2).2).1
  · exact placed_declaration (List.forall_mem_append.mp htail).1
  · exact placed_members (List.forall_mem_append.mp (List.forall_mem_append.mp htail).2).1
  · exact placed_fields (List.forall_mem_append.mp (List.forall_mem_append.mp htail).2).1
  · exact placed_union name.val (List.forall_mem_append.mp (List.forall_mem_append.mp htail).2).1

theorem placed_meaning {d : specification.Tree} (h : Starts P d.yield) : ∀ x ∈ meaning d, x.Placed P :=
  placed_many h fun _ hd => placed_definition hd

end Grammar

end Concrete

namespace Spec

open Concrete (Starts)

variable {P : Span → Prop}

/-! ### Faults of a definition -/

theorem failsAt_fail {α : Type} {f : Fault} {span : Span} (h : P span) :
    FailsWith (SpecError.Placed P) (fail f span : Checked α) :=
  failsWith_error fun _ hs => Option.some.inj hs ▸ h

theorem failsAt_valueOf {v : Concrete.Value} (h : v.Placed P) : FailsWith (SpecError.Placed P) (valueOf v) := by
  cases v with
  | number w =>
    unfold valueOf
    dsimp only
    split
    · exact failsWith_ok _
    · split <;> exact failsAt_fail h
  | reference w => exact failsWith_ok _

theorem failsAt_boundOf {v : Option Concrete.Value} (h : ∀ x ∈ v, x.Placed P) :
    FailsWith (SpecError.Placed P) (boundOf v) := by
  cases v with
  | none => exact failsWith_ok _
  | some v => exact (failsAt_valueOf (h v rfl)).bind fun _ _ => failsWith_ok _

theorem failsAt_typeOf {t : TypeExpr Concrete.Value String} (h : ∀ v ∈ t.bound?, v.Placed P) :
    FailsWith (SpecError.Placed P) (typeOf t) := by
  cases t with
  | plain b | optional b => exact failsWith_ok _
  | array b n | fixedBytes n => exact (failsAt_valueOf (h n rfl)).bind fun _ _ => failsWith_ok _
  | vector b n | bytes n | string n => exact (failsAt_boundOf h).bind fun _ _ => failsWith_ok _

theorem failsAt_payloadOf {d : Concrete.Declaration} (h : d.Placed P) :
    FailsWith (SpecError.Placed P) (payloadOf d) := by
  cases d with
  | void s => exact failsWith_ok _
  | item name t s => exact (failsAt_typeOf h.2.1).bind fun _ _ => failsWith_ok _

/-- Faults of what a declaration says are at its name or at the whole of it. -/
def Payload.Placed (P : Span → Prop) : Payload → Prop
  | .void s => P s
  | .field f => P f.nameSpan

theorem placed_payloadOf {d : Concrete.Declaration} (h : d.Placed P) {p : Payload} (hp : payloadOf d = .ok p) :
    p.Placed P := by
  cases d with
  | void s =>
    cases hp
    exact h
  | item name t s =>
    obtain ⟨u, -, hp⟩ := bind_eq_ok_iff.mp hp
    cases hp
    exact h.1

theorem failsAt_fieldsOf {ds : List Concrete.Declaration} (h : ∀ d ∈ ds, d.Placed P) (owner : String)
    (seen : List String) : FailsWith (SpecError.Placed P) (fieldsOf owner seen ds) := by
  induction ds generalizing seen with
  | nil => exact failsWith_ok _
  | cons d rest ih =>
    rw [List.forall_mem_cons] at h
    refine (failsAt_payloadOf h.1).bind fun p hp => ?_
    have hplaced := placed_payloadOf h.1 hp
    cases p with
    | void s => exact failsAt_fail hplaced
    | field f =>
      dsimp only
      split
      · exact failsAt_fail hplaced
      · exact (ih h.2 _).bind fun _ _ => failsWith_ok _

theorem failsAt_memberOf {m : Concrete.Word × Concrete.Value} (h : m.2.Placed P) :
    FailsWith (SpecError.Placed P) (memberOf m) :=
  (failsAt_valueOf h).bind fun _ _ => failsWith_ok _

theorem failsAt_discriminantOf {d : Concrete.Declaration} (h : d.Placed P) (name : String) :
    FailsWith (SpecError.Placed P) (discriminantOf name d) := by
  unfold discriminantOf
  split
  · exact failsWith_ok _
  · exact failsAt_fail h.span

theorem failsAt_checkArmName {p : Payload} (h : p.Placed P) (name : String) (seen : List String) :
    FailsWith (SpecError.Placed P) (checkArmName name seen p) := by
  cases p with
  | void s => exact failsWith_ok _
  | field f =>
    unfold checkArmName
    dsimp only
    split
    · exact failsAt_fail h
    · exact failsWith_ok _

theorem failsAt_armsOf {arms : List Concrete.Arm} (h : ∀ a ∈ arms, a.Placed P) (name : String)
    (default : Option Payload) (seen : List String) :
    FailsWith (SpecError.Placed P) (armsOf name default seen arms) := by
  induction arms generalizing default seen with
  | nil => exact failsWith_ok _
  | cons a rest ih =>
    rw [List.forall_mem_cons] at h
    cases a with
    | case labels d span =>
      obtain ⟨⟨hlabels, hd, -⟩, hrest⟩ := h
      refine (failsWith_mapM fun v hv => failsAt_valueOf (hlabels v hv)).bind fun _ _ => ?_
      refine (failsAt_payloadOf hd).bind fun p hp => ?_
      refine (failsAt_checkArmName (placed_payloadOf hd hp) _ _).bind fun _ _ => ?_
      exact (ih hrest _ _).bind fun _ _ => failsWith_ok _
    | default d span =>
      obtain ⟨⟨hd, hspan⟩, hrest⟩ := h
      unfold armsOf
      split
      · exact failsAt_fail hspan
      · refine (failsAt_payloadOf hd).bind fun p hp => ?_
        exact (failsAt_checkArmName (placed_payloadOf hd hp) _ _).bind fun _ _ => ih hrest _ _

theorem failsAt_unionOf {switch : Concrete.Declaration} {arms : List Concrete.Arm} {span : Span}
    (hswitch : switch.Placed P) (harms : ∀ a ∈ arms, a.Placed P) (hspan : P span) (name : String) :
    FailsWith (SpecError.Placed P) (unionOf name switch arms span) := by
  refine (failsAt_discriminantOf hswitch name).bind fun _ _ => ?_
  refine (failsAt_armsOf harms name none []).bind fun result _ => ?_
  dsimp only
  split
  · exact failsAt_fail hspan
  · exact failsWith_ok _

theorem failsAt_definitionOf {d : Concrete.Definition} (h : d.Placed P) :
    FailsWith (SpecError.Placed P) (definitionOf d) := by
  obtain ⟨body, span⟩ := d
  obtain ⟨hbody, hspan⟩ := h
  cases body with
  | const name v => exact (failsAt_valueOf hbody).bind fun _ _ => failsWith_ok _
  | typedef declaration =>
    refine (failsAt_payloadOf hbody).bind fun p _ => ?_
    cases p with
    | void s => exact failsAt_fail hspan
    | field f => exact failsWith_ok _
  | struct name fields => exact (failsAt_fieldsOf hbody _ _).bind fun _ _ => failsWith_ok _
  | enum name members =>
    exact (failsWith_mapM fun m hm => failsAt_memberOf (hbody m hm)).bind fun _ _ => failsWith_ok _
  | union name switch arms =>
    exact (failsAt_unionOf hbody.1 hbody.2 hspan _).bind fun _ _ => failsWith_ok _

theorem failsAt_ofTree {ds : List Concrete.Definition} (h : ∀ d ∈ ds, d.Placed P) :
    FailsWith (SpecError.Placed P) (ofTree ds) :=
  (failsWith_mapM fun d hd => failsAt_definitionOf (h d hd)).bind fun _ _ => failsWith_ok _

/-! ### The parts of a specification -/

/-- The places of a part and of whatever is in it. -/
def Node.Placed (P : Span → Prop) (n : Node) : Prop :=
  ∀ m, n.Reaches m → P m.span ∧ ∀ x ∈ m.written?, P x.2

theorem Node.Placed.child {n c : Node} (h : n.Placed P) (hc : c ∈ n.children) : c.Placed P :=
  fun m hm => h m (.child hc hm)

theorem Node.Placed.span {n : Node} (h : n.Placed P) : P n.span := (h n .refl).1

theorem Node.Placed.written {n : Node} (h : n.Placed P) {x : String × Span} (hx : x ∈ n.written?) : P x.2 :=
  (h n .refl).2 x hx

/-- What lies on tokens has the places that start with them. -/
theorem Lies.placed {n : Node} {ts : List Concrete.Token} (h : Lies n ts) (hts : Starts P ts) : n.Placed P := by
  intro m hreaches
  obtain ⟨us, hus, hm⟩ := h.exists_of_reaches hreaches
  constructor
  · obtain ⟨first, hfirst, last, -, hspan⟩ := hm.exists_tokens
    exact hspan ▸ hts first (hus.subset hfirst) last.span
  · obtain ⟨-, -, hwritten, -, -⟩ := hm
    intro x hx
    obtain ⟨t, ht, -, hspan⟩ := hwritten x hx
    exact hspan ▸ hts.self (hus.subset ((m.own_infix us).subset ht))

/-- The places of a specification, its own included. -/
structure Placed (P : Span → Prop) (spec : Spec) : Prop where
  definitions : ∀ d ∈ spec.definitions, Node.Placed P (.definition d)
  span : ∀ s ∈ spec.span?, P s

/-- The places of a specification start with tokens of its text. -/
theorem placed_of_parse {text : String} {spec : Spec} (h : parse text = .ok spec)
    (hstarts : ∀ ts, Concrete.Splits .start text.toList ts → Starts P ts) : spec.Placed P := by
  obtain ⟨tree, htree, h⟩ := bind_eq_ok_iff.mp h
  obtain ⟨e, hsplits, rfl⟩ := Concrete.parse_eq_ok_iff.mp htree
  have hclean : Clean e.yield := hsplits.spelled
  have hts := hstarts _ hsplits
  constructor
  · intro d hd
    obtain ⟨mid, hmid, hlies⟩ := (row_definitions h hclean).exists_of_mem (List.mem_map_of_mem hd)
    exact hlies.placed fun t ht => hts t (hmid.subset ht)
  · intro s hs
    obtain ⟨first, hfirst, last, -, rfl⟩ := spans_program h hclean hs
    exact hts first (List.mem_of_mem_head? hfirst) last.span

/-- A text that is no specification breaks the grammar, or its fault starts with a token. -/
theorem placed_of_parse_error {text : String} {e : SpecError} (h : parse text = .error e)
    (hstarts : ∀ ts, Concrete.Splits .start text.toList ts → Starts P ts)
    (hstuck : ∀ f p, Concrete.Stuck text.toList f p → P (.point p)) : e.Placed P := by
  cases htree : Concrete.parse text with
  | error e' =>
    obtain ⟨hparse, f, p, rfl, hf⟩ := Concrete.stuck_of_parse htree
    cases h.symm.trans hparse
    exact fun s hs => Option.some.inj hs ▸ hstuck f p hf
  | ok tree =>
    obtain ⟨d, hsplits, rfl⟩ := Concrete.parse_eq_ok_iff.mp htree
    have hofTree : ofTree (Concrete.Grammar.meaning d) = .error e := by
      rw [← h, parse, htree]
      rfl
    exact failsAt_ofTree (Concrete.Grammar.placed_meaning (hstarts _ hsplits)) e hofTree

end Spec

end XdrSchema
