import XdrSchema.Proofs.Concrete.Descent
import XdrSchema.Proofs.Concrete.Grammar

/-! Each reader reads its rule of the grammar. Main statement: `reads_specification`. -/
namespace XdrSchema.Concrete

open Pattern Grammar

/-! ### Values -/

theorem reads_mark (m : Mark) : Reads (Reader.mark m) (Grammar.mark m) (fun t => t.val) Any :=
  reads_token _

theorem reads_keyword (k : Keyword) : Reads (Reader.keyword k) (Grammar.keyword k) (fun t => t.val) Any :=
  reads_token _

theorem reads_word : Reads Reader.word Grammar.name (fun t => wordOf t.val) Any :=
  (reads_token _).map fun _ => rfl

theorem reads_value : Reads value Grammar.value valueOf (· ∈ valueEnd) := by
  refine (ReadsOpen.alt ?_ ?_ rfl rfl (by decide)).reads_take rfl (by decide)
  · exact readsOpen_token (by decide) fun d => reads_require (if_pos d.property).symm
  · exact readsOpen_token (by decide) fun d => reads_require (if_neg (by rw [d.property]; decide)).symm

theorem reads_valueAnd (close : Mark) (hclose : .mark close ∈ valueEnd) : Reads (valueAnd close)
    (Grammar.value.seq (Grammar.mark close)) (fun d => (valueOf d.1, d.2.val)) Any := by
  refine reads_value.bind (fun d => (reads_mark close).map fun _ => rfl) ?_
  exact leads_of_opens rfl (by simpa [starts] using hclose)

theorem reads_bound : Reads bound (Grammar.value.opt.seq (Grammar.mark .greater))
    (fun d => (boundOf d.1, d.2.val)) Any := by
  refine reads_require_bind ?_ (leads_of_opens rfl (by decide))
  refine Reads.of_same (fun ts => readsAt_peek ?_) (same_opt_seq _)
  by_cases hclose : next ts = .mark .greater
  · rw [if_pos hclose]
    refine readsAt_inr ((reads_mark .greater).map (fun _ => rfl) ts) (not_follows rfl fun hopens => ?_)
    have hvalue := hopens.next_mem
    rw [hclose] at hvalue
    revert hvalue
    decide
  · rw [if_neg hclose]
    refine readsAt_inl (Reads.map (reads_valueAnd .greater (by decide)) (fun _ => rfl) ts)
      (not_follows rfl fun hopens => hclose (List.mem_singleton.mp hopens.next_mem))

/-! ### Types -/

/-- What follows a type. -/
def typeEnd : List Terminal := [.name, .mark .star]

/-- The part of a declaration that reads its type, with the first token. -/
def typed : Reader (Token × Base String) := do
  let t ← Reader.take typeStart
  let b ← baseFrom t
  Reader.require typeEnd
  return (t, b)

section Typed

variable {t : Token} {ts rest : List Token} {a : Token × Base String} {b : Base String}

theorem typed_scalar (ht : t.terminal ∈ typeStart) (hb : baseFrom t = pure b) :
    typed (t :: ts) = .ok (a, rest) ↔ a = (t, b) ∧ rest = ts ∧ next ts ∈ typeEnd := by
  rw [typed, take_bind ht, hb, pure_bind]
  by_cases hts : next ts ∈ typeEnd
  · rw [require_bind hts]
    constructor
    · intro h
      cases h
      exact ⟨rfl, rfl, hts⟩
    · rintro ⟨rfl, rfl, -⟩
      rfl
  · exact iff_of_false (not_ok_of_require hts a rest) fun h => hts h.2.2

theorem reads_unsigned (t : Token) :
    Reads (do let p ← unsignedWidth; Reader.require typeEnd; return (t, (.primitive p : Base String)))
      ((Grammar.keyword .int).alt ((Grammar.keyword .hyper).alt .empty))
      (fun | .inl _ | .inr (.inr _) => (t, .primitive .unsignedInt) | .inr (.inl _) => (t, .primitive .unsignedHyper))
      (· ∈ typeEnd) := by
  rw [unsignedWidth, bind_assoc]
  refine reads_require_bind ?_ (leads_of_starts (by decide) (by decide))
  rw [bind_assoc]
  refine fun ts => readsAt_peek ?_
  have hint : Leads ((Grammar.keyword .hyper).alt .empty) (· ∈ typeEnd)
      (· ∈ Terminal.keyword .hyper :: typeEnd) := leads_of_starts (by decide) (by decide)
  have hhyper : Leads .empty (· ∈ typeEnd) (· ∈ typeEnd) := leads_of_starts (by decide) (by decide)
  split
  · next hnext =>
    refine readsAt_inl ?_ (not_follows_of_leads hint (by rw [hnext]; decide))
    simp only [bind_assoc, pure_bind]
    exact (reads_keyword .int).bind_empty (fun _ => reads_require (by rfl)) _
  · next hnext =>
    refine readsAt_inr (readsAt_inl ?_ (not_follows_of_leads hhyper (by rw [hnext]; decide))) (not_follows rfl ?_)
    · simp only [bind_assoc, pure_bind]
      exact (reads_keyword .hyper).bind_empty (fun _ => reads_require (by rfl)) _
    · intro hopens
      have hmem := hopens.next_mem
      rw [hnext] at hmem
      cases List.mem_singleton.mp hmem
  · next hint hhyper =>
    refine readsAt_inr (readsAt_inr ?_ (not_follows rfl fun hopens => ?_)) (not_follows rfl fun hopens => ?_)
    · rw [pure_bind]
      exact reads_require (by rfl) ts
    · exact hhyper (List.mem_singleton.mp hopens.next_mem)
    · exact hint (List.mem_singleton.mp hopens.next_mem)

theorem typed_unsigned (ht : t.terminal = .keyword .unsigned) : typed (t :: ts) =
    (do let p ← unsignedWidth; Reader.require typeEnd; return (t, (.primitive p : Base String))) ts := by
  have hbase : baseFrom t = unsignedWidth >>= fun p => pure (.primitive p) := by
    rw [baseFrom, ht]
  rw [typed, take_bind (by rw [ht]; decide), hbase]
  simp only [bind_assoc, pure_bind]

theorem typed_keyword {k : Keyword} (ht : t.terminal = .keyword k) (hk : .keyword k ∈ typeStart)
    (hne : k ≠ .unsigned) : typed (t :: ts) = .ok (a, rest) ↔
      a = (t, .primitive ((primitive? k).getD .int)) ∧ rest = ts ∧ next ts ∈ typeEnd := by
  refine typed_scalar (ht ▸ hk) ?_
  rw [baseFrom, ht]
  cases k with
  | unsigned => exact (hne rfl).elim
  | _ => rfl

theorem typed_name (ht : t.terminal = .name) : typed (t :: ts) = .ok (a, rest) ↔
    a = (t, .named t.text) ∧ rest = ts ∧ next ts ∈ typeEnd := by
  refine typed_scalar (by rw [ht]; decide) ?_
  rw [baseFrom, ht]

/-- What the reader of types returns is what a derivation means. -/
theorem exists_of_typed (h : typed ts = .ok (a, rest)) : ∃ d : typeSpecifier.Tree, ts = d.yield ++ rest ∧
    (typeToken d, baseOf d) = a ∧ next rest ∈ typeEnd := by
  cases ts with
  | nil => cases h
  | cons t ts =>
    have ht : t.terminal ∈ typeStart := by
      refine Decidable.not_not.mp fun ht => ?_
      have hopens : ¬ Opens typeStart (t :: ts) := ht
      exact not_ok_of_take hopens a rest h
    simp only [typeStart, List.mem_cons, List.not_mem_nil, or_false] at ht
    rcases ht with ht | ht | ht | ht | ht | ht | ht | ht | ht | ht | ht
    · obtain ⟨rfl, rfl, hrest⟩ := (typed_name ht).mp h
      exact ⟨.inr (.inr (.inr (.inr (.inr (.inr (.inr ⟨t, ht⟩)))))), rfl, rfl, hrest⟩
    · obtain ⟨rfl, rfl, hrest⟩ := (typed_keyword ht (by decide) (by decide)).mp h
      exact ⟨.inl (.inl ⟨t, ht⟩), rfl, rfl, hrest⟩
    · obtain ⟨rfl, rfl, hrest⟩ := (typed_keyword ht (by decide) (by decide)).mp h
      exact ⟨.inl (.inr ⟨t, ht⟩), rfl, rfl, hrest⟩
    · rw [typed_unsigned ht] at h
      obtain ⟨d | d | d, rfl, rfl, hrest⟩ := (reads_unsigned t ts a rest).mp h
      · exact ⟨.inr (.inl (.inl (⟨t, ht⟩, .inl d))), rfl, rfl, hrest⟩
      · exact ⟨.inr (.inr (.inr (.inl (.inl (⟨t, ht⟩, d))))), rfl, rfl, hrest⟩
      · exact ⟨.inr (.inl (.inl (⟨t, ht⟩, .inr ()))), rfl, rfl, hrest⟩
    · obtain ⟨rfl, rfl, hrest⟩ := (typed_keyword ht (by decide) (by decide)).mp h
      exact ⟨.inr (.inl (.inr ⟨t, ht⟩)), rfl, rfl, hrest⟩
    · obtain ⟨rfl, rfl, hrest⟩ := (typed_keyword ht (by decide) (by decide)).mp h
      exact ⟨.inr (.inr (.inl (.inl ⟨t, ht⟩))), rfl, rfl, hrest⟩
    · obtain ⟨rfl, rfl, hrest⟩ := (typed_keyword ht (by decide) (by decide)).mp h
      exact ⟨.inr (.inr (.inl (.inr ⟨t, ht⟩))), rfl, rfl, hrest⟩
    · obtain ⟨rfl, rfl, hrest⟩ := (typed_keyword ht (by decide) (by decide)).mp h
      exact ⟨.inr (.inr (.inr (.inl (.inr ⟨t, ht⟩)))), rfl, rfl, hrest⟩
    · obtain ⟨rfl, rfl, hrest⟩ := (typed_keyword ht (by decide) (by decide)).mp h
      exact ⟨.inr (.inr (.inr (.inr (.inl ⟨t, ht⟩)))), rfl, rfl, hrest⟩
    · obtain ⟨rfl, rfl, hrest⟩ := (typed_keyword ht (by decide) (by decide)).mp h
      exact ⟨.inr (.inr (.inr (.inr (.inr (.inl ⟨t, ht⟩))))), rfl, rfl, hrest⟩
    · obtain ⟨rfl, rfl, hrest⟩ := (typed_keyword ht (by decide) (by decide)).mp h
      exact ⟨.inr (.inr (.inr (.inr (.inr (.inr (.inl ⟨t, ht⟩)))))), rfl, rfl, hrest⟩

theorem typed_yield (d : typeSpecifier.Tree) (hrest : next rest ∈ typeEnd) :
    typed (d.yield ++ rest) = .ok ((typeToken d, baseOf d), rest) := by
  rcases d with (t | t) | (⟨t, u | u⟩ | t) | (t | t) | (⟨t, u⟩ | t) | t | t | t | t
  · exact (typed_keyword t.property (by decide) (by decide)).mpr ⟨rfl, rfl, hrest⟩
  · exact (typed_keyword t.property (by decide) (by decide)).mpr ⟨rfl, rfl, hrest⟩
  · exact (typed_unsigned t.property).trans ((reads_unsigned t.val _ _ rest).mpr ⟨.inl u, rfl, rfl, hrest⟩)
  · exact (typed_unsigned t.property).trans ((reads_unsigned t.val _ _ rest).mpr ⟨.inr (.inr ()), rfl, rfl, hrest⟩)
  · exact (typed_keyword t.property (by decide) (by decide)).mpr ⟨rfl, rfl, hrest⟩
  · exact (typed_keyword t.property (by decide) (by decide)).mpr ⟨rfl, rfl, hrest⟩
  · exact (typed_keyword t.property (by decide) (by decide)).mpr ⟨rfl, rfl, hrest⟩
  · exact (typed_unsigned t.property).trans ((reads_unsigned t.val _ _ rest).mpr ⟨.inr (.inl u), rfl, rfl, hrest⟩)
  · exact (typed_keyword t.property (by decide) (by decide)).mpr ⟨rfl, rfl, hrest⟩
  · exact (typed_keyword t.property (by decide) (by decide)).mpr ⟨rfl, rfl, hrest⟩
  · exact (typed_keyword t.property (by decide) (by decide)).mpr ⟨rfl, rfl, hrest⟩
  · exact (typed_keyword t.property (by decide) (by decide)).mpr ⟨rfl, rfl, hrest⟩
  · exact (typed_name t.property).mpr ⟨rfl, rfl, hrest⟩

theorem reads_typed : Reads typed typeSpecifier (fun d => (typeToken d, baseOf d)) (· ∈ typeEnd) := by
  intro ts a rest
  constructor
  · exact exists_of_typed
  · rintro ⟨d, rfl, rfl, hrest⟩
    exact typed_yield d hrest

end Typed

/-! ### Declarations -/

section Declarations

variable (first : Token) (name : Word)

theorem reads_declared (last : Token) (type : TypeExpr Value String) :
    Reads (declared first last name type) .empty (fun _ => .item name type (first.span.cover last.span))
      (· ∈ declarationEnd) :=
  reads_require rfl

theorem reads_lengthSuffix (type : Value → TypeExpr Value String) :
    Reads (do
        let _ ← Reader.mark .openBracket
        let (n, close) ← valueAnd .closeBracket
        declared first close name (type n))
      lengthSuffix (fun d => .item name (type (valueOf d.2.1)) (first.span.cover d.2.2.val.span))
      (· ∈ declarationEnd) := by
  refine (reads_mark _).bind (fun _ => ?_) leads_any
  exact (reads_valueAnd .closeBracket (by decide)).bind_empty fun d => reads_declared first name d.2.val _

theorem reads_boundSuffix (type : Option Value → TypeExpr Value String) :
    Reads (do
        let _ ← Reader.mark .less
        let (n, close) ← bound
        declared first close name (type n))
      boundSuffix (fun d => .item name (type (boundOf d.2.1)) (first.span.cover d.2.2.val.span))
      (· ∈ declarationEnd) := by
  refine (reads_mark _).bind (fun _ => ?_) leads_any
  exact reads_bound.bind_empty fun d => reads_declared first name d.2.val _

theorem reads_stringFrom : Reads (stringFrom first) (Grammar.name.seq boundSuffix)
    (fun d => item first d.1.val (.string (boundOf d.2.2.1)) d.2.2.2.val) (· ∈ declarationEnd) :=
  reads_word.bind (fun d => reads_boundSuffix first (wordOf d.val) _) leads_any

/-- A name with what follows it in a declaration of bytes. -/
def bytesDeclarator : Pattern := Grammar.name.seq (boundSuffix.alt lengthSuffix)

def bytesOf : bytesDeclarator.Tree → Declaration
  | (name, .inl (_, n, close)) => item first name.val (.bytes (boundOf n)) close.val
  | (name, .inr (_, n, close)) => item first name.val (.fixedBytes (valueOf n)) close.val

theorem reads_bytesFrom : Reads (bytesFrom first) bytesDeclarator (bytesOf first) (· ∈ declarationEnd) := by
  refine reads_word.bind (fun d => ?_) leads_any
  refine (ReadsOpen.alt ?_ ?_ rfl rfl (by decide)).reads_take rfl (by decide)
  · refine readsOpen_take (by decide) fun t => ?_
    rw [if_pos t.property]
    exact reads_bound.bind_empty fun e => reads_declared first (wordOf d.val) e.2.val _
  · refine readsOpen_take (by decide) fun t => ?_
    rw [if_neg (by rw [t.property]; decide)]
    exact (reads_valueAnd .closeBracket (by decide)).bind_empty fun e => reads_declared first (wordOf d.val) e.2.val _

/-- A declaration after its type. -/
def itemTail (base : Base String) : Reader Declaration := do
  let t ← Reader.take [.name, .mark .star]
  if t.terminal = .mark .star then
    let t ← Reader.take [.name]
    declared first t ⟨t.text, t.span⟩ (.optional base)
  else
    let name : Word := ⟨t.text, t.span⟩
    Reader.require (.mark .less :: .mark .openBracket :: declarationEnd)
    match ← Reader.peek with
    | .mark .openBracket => do
      let _ ← Reader.mark .openBracket
      let (n, close) ← valueAnd .closeBracket
      declared first close name (.array base n)
    | .mark .less => do
      let _ ← Reader.mark .less
      let (n, close) ← bound
      declared first close name (.vector base n)
    | _ => declared first t name (.plain base)

theorem itemFrom_eq : itemFrom first = baseFrom first >>= fun base => itemTail first base := rfl

/-- A name, or an array of it, or a star before it. -/
def declarator : Pattern :=
  ((Grammar.mark .star).seq Grammar.name).alt (Grammar.name.seq (lengthSuffix.alt (boundSuffix.alt .empty)))

def declaratorOf (base : Base String) : declarator.Tree → Declaration
  | .inl (_, name) => item first name.val (.optional base) name.val
  | .inr (name, .inl (_, n, close)) => item first name.val (.array base (valueOf n)) close.val
  | .inr (name, .inr (.inl (_, n, close))) => item first name.val (.vector base (boundOf n)) close.val
  | .inr (name, .inr (.inr _)) => item first name.val (.plain base) name.val

theorem reads_itemTail (base : Base String) :
    Reads (itemTail first base) declarator (declaratorOf first base) (· ∈ declarationEnd) := by
  refine (ReadsOpen.alt ?_ ?_ rfl rfl (by decide)).reads_take rfl (by decide)
  · refine readsOpen_take (by decide) fun t => ?_
    rw [if_pos t.property]
    exact (reads_token .name).bind_empty fun d => reads_declared first (wordOf d.val) d.val _
  · refine readsOpen_take (by decide) fun t => ?_
    rw [if_neg (by rw [t.property]; decide)]
    refine reads_require_bind (fun ts => readsAt_peek ?_) (leads_of_starts (by decide) (by decide))
    have hplain : Leads .empty (· ∈ declarationEnd) (· ∈ declarationEnd) := leads_of_starts (by decide) (by decide)
    split
    · next hnext =>
      have hbound : Leads (boundSuffix.alt .empty) (· ∈ declarationEnd) (· ∈ .mark .less :: declarationEnd) :=
        leads_of_starts (by decide) (by decide)
      exact readsAt_inl (reads_lengthSuffix first (wordOf t.val) (.array base) ts)
        (not_follows_of_leads hbound (by rw [hnext]; decide))
    · next hnext =>
      refine readsAt_inr (readsAt_inl (reads_boundSuffix first (wordOf t.val) (.vector base) ts)
        (not_follows_of_leads hplain (by rw [hnext]; decide))) (not_follows rfl fun hopens => ?_)
      have hmem := hopens.next_mem
      rw [hnext] at hmem
      cases List.mem_singleton.mp hmem
    · next hlength hbound =>
      refine readsAt_inr (readsAt_inr (reads_declared first (wordOf t.val) t.val (.plain base) ts)
        (not_follows rfl fun hopens => ?_)) (not_follows rfl fun hopens => ?_)
      · exact hbound (List.mem_singleton.mp hopens.next_mem)
      · exact hlength (List.mem_singleton.mp hopens.next_mem)

/-- The declarations by their first tokens. -/
def anyDeclaration : Pattern :=
  voidDecl.alt <| ((Grammar.keyword .opaqueData).seq bytesDeclarator).alt <|
    stringDecl.alt (typeSpecifier.seq declarator)

def anyDeclarationOf : anyDeclaration.Tree → Declaration
  | .inl t => .void t.val.span
  | .inr (.inl (first, d)) => bytesOf first.val d
  | .inr (.inr (.inl (first, name, _, n, close))) => item first.val name.val (.string (boundOf n)) close.val
  | .inr (.inr (.inr (b, d))) => declaratorOf (typeToken b) (baseOf b) d

theorem same_anyDeclaration : Same declarationOf anyDeclarationOf := by
  constructor
  · rintro (⟨b, name⟩ | ⟨b, name, s⟩ | ⟨b, name, s⟩ | ⟨t, name, s⟩ | ⟨t, name, s⟩ | d | ⟨b, star, name⟩ | d)
    · exact ⟨.inr (.inr (.inr (b, .inr (name, .inr (.inr ()))))), rfl, rfl⟩
    · exact ⟨.inr (.inr (.inr (b, .inr (name, .inl s)))), rfl, rfl⟩
    · exact ⟨.inr (.inr (.inr (b, .inr (name, .inr (.inl s))))), rfl, rfl⟩
    · exact ⟨.inr (.inl (t, name, .inr s)), rfl, rfl⟩
    · exact ⟨.inr (.inl (t, name, .inl s)), rfl, rfl⟩
    · exact ⟨.inr (.inr (.inl d)), rfl, rfl⟩
    · exact ⟨.inr (.inr (.inr (b, .inl (star, name)))), rfl, rfl⟩
    · exact ⟨.inl d, rfl, rfl⟩
  · rintro (d | ⟨t, name, s | s⟩ | d | ⟨b, ⟨star, name⟩ | ⟨name, s | s | u⟩⟩)
    · exact ⟨.inr (.inr (.inr (.inr (.inr (.inr (.inr d)))))), rfl, rfl⟩
    · exact ⟨.inr (.inr (.inr (.inr (.inl (t, name, s))))), rfl, rfl⟩
    · exact ⟨.inr (.inr (.inr (.inl (t, name, s)))), rfl, rfl⟩
    · exact ⟨.inr (.inr (.inr (.inr (.inr (.inl d))))), rfl, rfl⟩
    · exact ⟨.inr (.inr (.inr (.inr (.inr (.inr (.inl (b, star, name))))))), rfl, rfl⟩
    · exact ⟨.inr (.inl (b, name, s)), rfl, rfl⟩
    · exact ⟨.inr (.inr (.inl (b, name, s))), rfl, rfl⟩
    · exact ⟨.inl (b, name), rfl, rfl⟩

theorem declaration_of_typed {ts : List Token} (hts : Opens typeStart ts) :
    declaration ts = (typed >>= fun x => itemTail x.1 x.2) ts := by
  cases ts with
  | nil => cases hts
  | cons t ts =>
    have ht : t.terminal ∈ typeStart := hts
    have hmem : t.terminal ∈ declarationStart := List.mem_append_left _ ht
    have hitem : declaration (t :: ts) = itemFrom t ts := by
      rw [declaration, take_bind hmem]
      refine congrFun (?_ : _ = itemFrom t) ts
      split
      · next heq => exact absurd (heq ▸ ht) (by decide)
      · next heq => exact absurd (heq ▸ ht) (by decide)
      · next heq => exact absurd (heq ▸ ht) (by decide)
      · rfl
    have htyped : (typed >>= fun x => itemTail x.1 x.2) (t :: ts) =
        (baseFrom t >>= fun base => Reader.require typeEnd >>= fun _ => itemTail t base) ts := by
      rw [typed, bind_assoc, take_bind ht]
      simp only [bind_assoc, pure_bind]
    have hrequire (base : Base String) : (Reader.require typeEnd >>= fun _ => itemTail t base) = itemTail t base :=
      require_take _ _
    rw [hitem, htyped, itemFrom_eq]
    simp only [hrequire]

theorem reads_declaration : Reads declaration Grammar.declaration declarationOf (· ∈ declarationEnd) := by
  refine Reads.of_same ?_ same_anyDeclaration
  refine (ReadsOpen.alt ?_ (ReadsOpen.alt ?_ (ReadsOpen.alt ?_ ?_ rfl rfl (by decide)) rfl rfl (by decide)) rfl rfl
    (by decide)).reads_take rfl (by decide)
  · refine readsOpen_token (by decide) fun t => ?_
    rw [t.property]
    exact reads_require (by rfl)
  · refine readsOpen_take (by decide) fun t => ?_
    rw [t.property]
    exact reads_bytesFrom t.val
  · refine readsOpen_take (by decide) fun t => ?_
    rw [t.property]
    exact reads_stringFrom t.val
  · intro ts hts
    have htail (d : typeSpecifier.Tree) : Reads (itemTail (typeToken d) (baseOf d)) declarator
        (fun e => anyDeclarationOf (.inr (.inr (.inr (d, e))))) (· ∈ declarationEnd) := reads_itemTail _ _
    exact (reads_typed.bind htail (leads_of_opens rfl (by decide)) ts).of_eq
      (declaration_of_typed (hts.mono (by decide)))

end Declarations

/-! ### Definitions -/

theorem reads_field : Reads field Grammar.field (fun d => declarationOf d.1) Any :=
  reads_declaration.bind (fun _ => (reads_mark .semicolon).map fun _ => rfl) (leads_of_opens rfl (by decide))

theorem reads_fields : Reads fields Grammar.field.some
    (fun d => declarationOf d.1.1 :: List.map (fun e => declarationOf e.1) d.2)
    (fun k => k ∈ .mark .closeBrace :: declarationStart ∧ k ∉ Grammar.field.starts) :=
  reads_field.bind (fun _ => (reads_itemsPeek reads_field rfl (fun _ _ => trivial) (by decide) (by decide)
    (by decide)).map fun _ => rfl) leads_any

theorem reads_member : Reads member enumMember memberOf (· ∈ valueEnd) :=
  reads_word.bind (fun _ => (reads_mark .equals).bind (fun _ => reads_value.map fun _ => rfl) leads_any) leads_any

theorem reads_labelValue : Reads labelValue (Grammar.value.seq (Grammar.mark .colon)) (fun d => valueOf d.1) Any :=
  reads_value.bind (fun _ => (reads_mark .colon).map fun _ => rfl) (leads_of_opens rfl (by decide))

theorem reads_moreLabels : Reads moreLabels caseLabel.many (List.map labelOf)
    (fun k => k ∈ .keyword .case :: declarationStart ∧ k ∉ caseLabel.starts) := by
  have hlabel : Reads (do let _ ← Reader.keyword .case; labelValue) caseLabel labelOf Any :=
    (reads_keyword .case).bind (fun _ => reads_labelValue) leads_any
  exact reads_itemsPeek hlabel rfl (fun _ _ => trivial) (by decide) (by decide) (by decide)

/-- An arm by its first token. -/
def anyArm : Pattern :=
  ((Grammar.keyword .case).seq <| (Grammar.value.seq (Grammar.mark .colon)).seq <| caseLabel.many.seq Grammar.field).alt
    defaultArm

def anyArmOf : anyArm.Tree → Arm
  | .inl (first, label, others, d) => armOf (.inl (((first, label), others), d))
  | .inr d => armOf (.inr d)

theorem append_nested (as bs cs ds : List Token) : as ++ bs ++ cs ++ ds = as ++ (bs ++ (cs ++ ds)) := by
  simp only [List.append_assoc]

theorem same_anyArm : Same armOf anyArmOf := by
  constructor
  · rintro (⟨⟨⟨first, label⟩, others⟩, d⟩ | d)
    · exact ⟨.inl (first, label, others, d), (append_nested _ _ _ _).symm, rfl⟩
    · exact ⟨.inr d, rfl, rfl⟩
  · rintro (⟨first, label, others, d⟩ | d)
    · exact ⟨.inl (((first, label), others), d), append_nested _ _ _ _, rfl⟩
    · exact ⟨.inr d, rfl, rfl⟩

theorem reads_arm : Reads arm Grammar.arm armOf Any := by
  refine Reads.of_same ?_ same_anyArm
  refine (ReadsOpen.alt ?_ ?_ rfl rfl (by decide)).reads_take rfl (by decide)
  · refine readsOpen_take (by decide) fun first => ?_
    rw [if_pos first.property]
    refine reads_labelValue.bind (fun label => ?_) leads_any
    refine reads_moreLabels.bind (fun others => ?_) (leads_of_opens rfl (by decide))
    refine reads_declaration.bind (fun d => ?_) (leads_of_opens rfl (by decide))
    exact (reads_mark .semicolon).map fun _ => rfl
  · refine readsOpen_take (by decide) fun first => ?_
    rw [if_neg (by rw [first.property]; decide)]
    refine (reads_mark .colon).bind (fun _ => ?_) leads_any
    refine reads_declaration.bind (fun d => ?_) (leads_of_opens rfl (by decide))
    exact (reads_mark .semicolon).map fun _ => rfl

theorem reads_arms : Reads arms Grammar.arm.some (fun d => armOf d.1 :: List.map armOf d.2)
    (fun k => k ∈ .mark .closeBrace :: armStart ∧ k ∉ Grammar.arm.starts) :=
  reads_arm.bind (fun _ => (reads_itemsPeek reads_arm rfl (fun _ _ => trivial) (by decide) (by decide)
    (by decide)).map fun _ => rfl) leads_any

theorem reads_enumBody : Reads (do
      let _ ← Reader.mark .openBrace
      let ms ← members
      let _ ← Reader.mark .closeBrace
      return ms) enumBody membersOf Any := by
  have hmember : Reads (do let _ ← Reader.mark .comma; member) ((Grammar.mark .comma).seq enumMember)
      (fun d => memberOf d.2) (· ∈ valueEnd) :=
    (reads_mark .comma).bind (fun _ => reads_member) leads_any
  refine (reads_mark .openBrace).bind (fun _ => ?_) leads_any
  rw [members, bind_assoc]
  refine reads_member.bind (fun first => ?_) (leads_of_opens rfl (by decide))
  rw [bind_assoc]
  refine (reads_itemsPeek hmember rfl (by decide) (by decide) (by decide) (by decide)).bind (fun others => ?_)
    (leads_of_opens rfl (by decide))
  rw [pure_bind]
  exact (reads_mark .closeBrace).map fun _ => rfl

theorem reads_structBody : Reads (do
      let _ ← Reader.mark .openBrace
      let ds ← fields
      let _ ← Reader.mark .closeBrace
      return ds) structBody fieldsOf Any := by
  refine (reads_mark .openBrace).bind (fun _ => ?_) leads_any
  refine reads_fields.bind (fun _ => ?_) (leads_of_opens rfl (by decide))
  exact (reads_mark .closeBrace).map fun _ => rfl

theorem reads_unionBody (name : Token) : Reads (do
      let _ ← Reader.keyword .switch
      let _ ← Reader.mark .openParen
      let switch ← declaration
      let _ ← Reader.mark .closeParen
      let _ ← Reader.mark .openBrace
      let arms ← arms
      let _ ← Reader.mark .closeBrace
      return Body.union (wordOf name) switch arms) unionBody (unionOf name) Any := by
  refine (reads_keyword .switch).bind (fun _ => ?_) leads_any
  refine (reads_mark .openParen).bind (fun _ => ?_) leads_any
  refine reads_declaration.bind (fun _ => ?_) (leads_of_opens rfl (by decide))
  refine (reads_mark .closeParen).bind (fun _ => ?_) leads_any
  refine (reads_mark .openBrace).bind (fun _ => ?_) leads_any
  refine reads_arms.bind (fun _ => ?_) (leads_of_opens rfl (by decide))
  exact (reads_mark .closeBrace).map fun _ => rfl

/-- What a definition has after its name, with the semicolon that ends it. -/
theorem reads_ended {α : Type} {p : Pattern} {r : Reader α} {g : p.Tree → α} {F : Terminal → Prop} (h : Reads r p g F)
    (hF : F (.mark .semicolon)) (first : Token) (body : α → Body) :
    Reads (do
        let a ← r
        let last ← Reader.mark .semicolon
        return (⟨body a, first.span.cover last.span⟩ : Definition))
      (p.seq (Grammar.mark .semicolon)) (fun d => ⟨body (g d.1), first.span.cover d.2.val.span⟩) Any :=
  h.bind (fun _ => (reads_mark .semicolon).map fun _ => rfl)
    (leads_of_opens rfl fun _ hk => List.mem_singleton.mp hk ▸ hF)

theorem reads_definition : Reads definition Grammar.definition definitionOf Any := by
  refine (ReadsOpen.alt ?_ (ReadsOpen.alt ?_ (ReadsOpen.alt ?_ (ReadsOpen.alt ?_ ?_ rfl rfl (by decide)) rfl rfl
    (by decide)) rfl rfl (by decide)) rfl rfl (by decide)).reads_take rfl (by decide)
  all_goals
    refine readsOpen_take (by decide) fun first => ?_
    rw [first.property]
    simp only [bodyOf, bind_assoc, pure_bind]
  · refine reads_word.bind (fun name => ?_) leads_any
    refine (reads_mark .equals).bind (fun _ => ?_) leads_any
    exact reads_ended reads_value (by decide) first.val (.const (wordOf name.val))
  · exact reads_ended reads_declaration (by decide) first.val .typedef
  · refine reads_word.bind (fun name => ?_) leads_any
    have hbody := reads_ended reads_enumBody trivial first.val (.enum (wordOf name.val))
    simp only [bind_assoc, pure_bind] at hbody
    exact hbody
  · refine reads_word.bind (fun name => ?_) leads_any
    have hbody := reads_ended reads_structBody trivial first.val (.struct (wordOf name.val))
    simp only [bind_assoc, pure_bind] at hbody
    exact hbody
  · refine reads_word.bind (fun name => ?_) leads_any
    have hbody := reads_ended (reads_unionBody name.val) trivial first.val fun body => body
    simp only [bind_assoc, pure_bind] at hbody
    exact hbody

theorem reads_specification : Reads specification Grammar.specification meaning
    (fun k => k ∈ .endOfInput :: definitionStart ∧ k ∉ Grammar.definition.starts) :=
  reads_itemsPeek reads_definition rfl (fun _ _ => trivial) (by decide) (by decide) (by decide)

end XdrSchema.Concrete
