import XdrSchema.Number.Literal
import XdrSchema.Proofs.Concrete.Grammar
import XdrSchema.Proofs.Concrete.Reading
import XdrSchema.Proofs.Schema.WellFormed

/-! What a definition has to be like by itself: its numbers have values, its parts carry data where they must, and
no name or default arm comes twice. The numbers of a derivation are those of the tree that it means. -/
namespace XdrSchema.Concrete

/-! ### Parts of a tree -/

/-- The value written in a declaration. -/
def Declaration.values : Declaration → List Value
  | void _ => []
  | item _ type _ => type.bound?.toList

def Declaration.name? : Declaration → Option Word
  | void _ => none
  | item name _ _ => some name

/-- The names that declarations give. -/
def givenNames (ds : List Declaration) : List String := ds.filterMap fun d => d.name?.map (·.text)

/-- The declaration is a name with a plain type. -/
def Declaration.Plain : Declaration → Prop
  | item _ (.plain _) _ => True
  | _ => False

def Arm.labels : Arm → List Value
  | case labels _ _ => labels
  | default _ _ => []

def Arm.declaration : Arm → Declaration
  | case _ d _ => d
  | default d _ => d

def Arm.isDefault : Arm → Bool
  | case .. => false
  | default .. => true

def Arm.values (a : Arm) : List Value := a.labels ++ a.declaration.values

/-- The values written in a definition, in order. -/
def Body.values : Body → List Value
  | const _ v => [v]
  | typedef d => d.values
  | struct _ fields => fields.flatMap Declaration.values
  | enum _ members => members.map (·.2)
  | union _ switch arms => switch.values ++ arms.flatMap Arm.values

def Value.number? : Value → Option Word
  | number w => some w
  | reference _ => none

/-- The numbers among some values. -/
def numbersOf (vs : List Value) : List Word := vs.filterMap Value.number?

/-- The number is a literal. -/
def Word.IsLiteral (w : Word) : Prop := (Number.literal? w.text.toList).isSome

/-! ### Sound definitions -/

/-- Every part of a definition is of the form that its place asks for, and no default arm and no name of a field comes
twice. -/
def Body.Shaped : Body → Prop
  | const .. | enum .. => True
  | typedef d => ∀ s, d ≠ .void s
  | struct _ fields => (∀ s, Declaration.void s ∉ fields) ∧ (givenNames fields).Nodup
  | union _ switch arms =>
    switch.Plain ∧ arms.countP Arm.isDefault ≤ 1 ∧ (givenNames (arms.map Arm.declaration)).Nodup

structure Definition.Sound (d : Definition) : Prop where
  numbers : ∀ w ∈ numbersOf d.body.values, w.IsLiteral
  shaped : d.body.Shaped

theorem Definition.sound_iff {d : Definition} :
    d.Sound ↔ (∀ w ∈ numbersOf d.body.values, w.IsLiteral) ∧ d.body.Shaped := by
  constructor
  · intro h
    exact ⟨h.numbers, h.shaped⟩
  · intro h
    exact ⟨h.1, h.2⟩

/-! ### Numbers of a derivation -/

namespace Pattern

def terminals : Pattern → List Terminal
  | empty => []
  | token terminal => [terminal]
  | seq p q | alt p q => p.terminals ++ q.terminals
  | many p => p.terminals

theorem terminal_mem_of_mem_yield {p : Pattern} (d : p.Tree) : ∀ t ∈ d.yield, t.terminal ∈ p.terminals := by
  induction p with
  | empty => exact nofun
  | token terminal => exact List.forall_mem_singleton.mpr (List.mem_singleton.mpr d.property)
  | seq p q ihp ihq =>
    exact List.forall_mem_append.mpr ⟨fun t ht => List.mem_append_left _ (ihp d.1 t ht),
      fun t ht => List.mem_append_right _ (ihq d.2 t ht)⟩
  | alt p q ihp ihq =>
    cases d with
    | inl d => exact fun t ht => List.mem_append_left _ (ihp d t ht)
    | inr e => exact fun t ht => List.mem_append_right _ (ihq e t ht)
  | many p ih =>
    intro t ht
    obtain ⟨d, -, ht⟩ := List.mem_flatMap.mp ht
    exact ih d t ht

end Pattern

namespace Grammar

open Pattern

/-- The numbers among some tokens. -/
def numbers (ts : List Token) : List Word := (ts.filter (·.terminal = .number)).map wordOf

@[simp] theorem numbers_nil : numbers [] = [] := rfl

@[simp] theorem numbers_append (ts us : List Token) : numbers (ts ++ us) = numbers ts ++ numbers us := by
  rw [numbers, List.filter_append, List.map_append]
  rfl

/-- A pattern without numbers. -/
theorem numbers_eq_nil {p : Pattern} (h : Terminal.number ∉ p.terminals) (d : p.Tree) : numbers d.yield = [] := by
  rw [numbers, List.map_eq_nil_iff, List.filter_eq_nil_iff]
  intro t ht hnumber
  exact h (of_decide_eq_true hnumber ▸ terminal_mem_of_mem_yield d t ht)

theorem numbersOf_append (vs us : List Value) : numbersOf (vs ++ us) = numbersOf vs ++ numbersOf us :=
  List.filterMap_append

/-- Items that are built one by one, with the values written in them. -/
theorem numbers_many {α : Type} {p : Pattern} {g : p.Tree → α} {f : α → List Value}
    (h : ∀ d, numbers d.yield = numbersOf (f (g d))) (ds : List p.Tree) :
    numbers (Tree.yield (p := p.many) ds) = numbersOf ((ds.map g).flatMap f) := by
  induction ds with
  | nil => rfl
  | cons d ds ih =>
    rw [List.map_cons, List.flatMap_cons, numbersOf_append, ← h, ← ih, ← numbers_append]
    rfl

@[simp] theorem numbers_value (v : value.Tree) : numbers v.yield = numbersOf [valueOf v] := by
  rcases v with t | t
  · change numbers [t.val] = [wordOf t.val]
    rw [numbers, List.filter_singleton, t.property]
    rfl
  · exact numbers_eq_nil (p := name) (by decide) t

/-- A token that is no number. -/
theorem numbers_cons_of_ne {k : Terminal} (hk : k ≠ .number) (t : (Pattern.token k).Tree) (ts : List Token) :
    numbers (t.val :: ts) = numbers ts := by
  rw [numbers, List.filter_cons_of_neg (by simpa [t.property] using hk)]
  rfl

@[simp] theorem numbers_mark (m : Mark) (t : (mark m).Tree) (ts : List Token) :
    numbers (t.val :: ts) = numbers ts := numbers_cons_of_ne (by simp) t ts

@[simp] theorem numbers_keyword (k : Keyword) (t : (keyword k).Tree) (ts : List Token) :
    numbers (t.val :: ts) = numbers ts := numbers_cons_of_ne (by simp) t ts

@[simp] theorem numbers_name (t : name.Tree) (ts : List Token) : numbers (t.val :: ts) = numbers ts :=
  numbers_cons_of_ne (by decide) t ts

@[simp] theorem numbers_type (b : typeSpecifier.Tree) : numbers b.yield = [] := numbers_eq_nil (by decide) b

@[simp] theorem numbers_lengthSuffix (d : lengthSuffix.Tree) : numbers d.yield = numbersOf [valueOf d.2.1] := by
  change numbers ([d.1.val] ++ (d.2.1.yield ++ [d.2.2.val])) = _
  simp

@[simp] theorem numbers_boundSuffix (d : boundSuffix.Tree) :
    numbers d.yield = numbersOf (boundOf d.2.1).toList := by
  obtain ⟨less, n | n, greater⟩ := d
  · change numbers ([less.val] ++ (n.yield ++ [greater.val])) = numbersOf [valueOf n]
    simp
  · change numbers ([less.val] ++ [greater.val]) = []
    simp

@[simp] theorem numbers_declaration (d : declaration.Tree) :
    numbers d.yield = numbersOf (declarationOf d).values := by
  rcases d with ⟨b, n⟩ | ⟨b, n, suffix⟩ | ⟨b, n, suffix⟩ | ⟨k, n, suffix⟩ | ⟨k, n, suffix⟩ | ⟨k, n, suffix⟩ |
    ⟨b, star, n⟩ | t
  · change numbers (b.yield ++ [n.val]) = []
    simp
  · change numbers (b.yield ++ ([n.val] ++ suffix.yield)) = numbersOf [valueOf suffix.2.1]
    simp
  · change numbers (b.yield ++ ([n.val] ++ suffix.yield)) = numbersOf (boundOf suffix.2.1).toList
    simp
  · change numbers ([k.val] ++ ([n.val] ++ suffix.yield)) = numbersOf [valueOf suffix.2.1]
    simp
  · change numbers ([k.val] ++ ([n.val] ++ suffix.yield)) = numbersOf (boundOf suffix.2.1).toList
    simp
  · change numbers ([k.val] ++ ([n.val] ++ suffix.yield)) = numbersOf (boundOf suffix.2.1).toList
    simp
  · change numbers (b.yield ++ ([star.val] ++ [n.val])) = []
    simp
  · exact numbers_keyword .void t []

@[simp] theorem numbers_field (d : field.Tree) : numbers d.yield = numbersOf (declarationOf d.1).values := by
  change numbers (d.1.yield ++ [d.2.val]) = _
  simp

theorem numbers_member (d : enumMember.Tree) : numbers d.yield = numbersOf [(memberOf d).2] := by
  change numbers ([d.1.val] ++ ([d.2.1.val] ++ d.2.2.yield)) = numbersOf [valueOf d.2.2]
  simp

theorem numbers_label (d : caseLabel.Tree) : numbers d.yield = numbersOf [labelOf d] := by
  change numbers ([d.1.val] ++ (d.2.1.yield ++ [d.2.2.val])) = numbersOf [valueOf d.2.1]
  simp

theorem numbers_arm (d : arm.Tree) : numbers d.yield = numbersOf (armOf d).values := by
  rcases d with ⟨⟨first, others⟩, f⟩ | ⟨k, colon, f⟩
  · have hothers := numbers_many (f := fun v => [v]) numbers_label others
    rw [List.flatMap_singleton'] at hothers
    change numbers ((first.yield ++ Tree.yield (p := caseLabel.many) others) ++ f.yield) =
      numbersOf (([labelOf first] ++ List.map labelOf others) ++ (declarationOf f.1).values)
    rw [numbers_append, numbers_append, numbers_label, hothers, numbers_field, numbersOf_append, numbersOf_append]
  · change numbers ([k.val] ++ ([colon.val] ++ f.yield)) = numbersOf (declarationOf f.1).values
    simp

theorem numbers_enumBody (d : enumBody.Tree) : numbers d.yield = numbersOf ((membersOf d).map (·.2)) := by
  obtain ⟨left, first, others, right⟩ := d
  have hitem (d : ((mark .comma).seq enumMember).Tree) : numbers d.yield = numbersOf [(memberOf d.2).2] := by
    change numbers ([d.1.val] ++ d.2.yield) = _
    simp [numbers_member]
  have hothers := numbers_many (g := fun d : ((mark .comma).seq enumMember).Tree => memberOf d.2)
    (f := fun m => [m.2]) hitem others
  rw [← List.map_eq_flatMap] at hothers
  change numbers ([left.val] ++ (first.yield ++ (Tree.yield (p := ((mark .comma).seq enumMember).many) others ++
    [right.val]))) = numbersOf ([(memberOf first).2] ++ List.map (·.2) (List.map (fun d => memberOf d.2) others))
  rw [numbersOf_append, ← hothers]
  simp [numbers_member]

theorem numbers_structBody (d : structBody.Tree) :
    numbers d.yield = numbersOf ((fieldsOf d).flatMap Declaration.values) := by
  obtain ⟨left, ⟨first, others⟩, right⟩ := d
  have hothers := numbers_many (g := fun d : field.Tree => declarationOf d.1) numbers_field others
  change numbers ([left.val] ++ ((first.yield ++ Tree.yield (p := field.many) others) ++ [right.val])) =
    numbersOf ((declarationOf first.1).values ++
      List.flatMap Declaration.values (List.map (fun d => declarationOf d.1) others))
  rw [numbersOf_append, ← hothers]
  simp

theorem numbers_unionBody (n : Token) (d : unionBody.Tree) : numbers d.yield = numbersOf (unionOf n d).values := by
  obtain ⟨k, left, switch, right, leftBrace, ⟨first, others⟩, rightBrace⟩ := d
  have hothers := numbers_many numbers_arm others
  change numbers ([k.val] ++ ([left.val] ++ (switch.yield ++ ([right.val] ++ ([leftBrace.val] ++
    ((first.yield ++ Tree.yield (p := arm.many) others) ++ [rightBrace.val])))))) =
    numbersOf ((declarationOf switch).values ++ ((armOf first).values ++
      List.flatMap Arm.values (List.map armOf others)))
  rw [numbersOf_append, numbersOf_append, ← hothers]
  simp [numbers_arm]

theorem numbers_definition (d : definition.Tree) : numbers d.yield = numbersOf (definitionOf d).body.values := by
  rcases d with ⟨k, n, equals, v, last⟩ | ⟨k, d, last⟩ | ⟨k, n, body, last⟩ | ⟨k, n, body, last⟩ | ⟨k, n, body, last⟩
  · change numbers ([k.val] ++ ([n.val] ++ ([equals.val] ++ (v.yield ++ [last.val])))) = numbersOf [valueOf v]
    simp
  · change numbers ([k.val] ++ (d.yield ++ [last.val])) = numbersOf (declarationOf d).values
    simp
  · change numbers ([k.val] ++ ([n.val] ++ (body.yield ++ [last.val]))) = numbersOf ((membersOf body).map (·.2))
    simp [numbers_enumBody]
  · change numbers ([k.val] ++ ([n.val] ++ (body.yield ++ [last.val]))) =
      numbersOf ((fieldsOf body).flatMap Declaration.values)
    simp [numbers_structBody]
  · change numbers ([k.val] ++ ([n.val] ++ (body.yield ++ [last.val]))) = numbersOf (unionOf n.val body).values
    simp [numbers_unionBody n.val]

/-- The numbers of a text are those of its definitions, in order. -/
theorem numbers_specification (d : specification.Tree) :
    numbers d.yield = numbersOf ((meaning d).flatMap fun c => c.body.values) :=
  numbers_many (f := fun c : Definition => c.body.values) numbers_definition d

/-! ### Lists of a derivation -/

theorem labelled_armOf (d : arm.Tree) : (armOf d).Labelled := by
  rcases d with ⟨⟨first, others⟩, f⟩ | ⟨k, colon, f⟩
  · exact List.cons_ne_nil _ _
  · trivial

theorem filled_definitionOf (d : definition.Tree) : (definitionOf d).Filled := by
  rcases d with ⟨k, n, equals, v, last⟩ | ⟨k, d, last⟩ | ⟨k, n, body, last⟩ | ⟨k, n, body, last⟩ |
    ⟨k, n, ⟨_, _, switch, _, _, ⟨first, others⟩, _⟩, last⟩
  · trivial
  · trivial
  · exact List.cons_ne_nil _ _
  · trivial
  · refine ⟨List.cons_ne_nil _ _, List.forall_mem_cons.mpr ⟨labelled_armOf first, ?_⟩⟩
    exact List.forall_mem_map.mpr fun d _ => labelled_armOf d

theorem filled_meaning (d : specification.Tree) : ∀ c ∈ meaning d, c.Filled :=
  List.forall_mem_map.mpr fun e _ => filled_definitionOf e

end Grammar

end XdrSchema.Concrete
