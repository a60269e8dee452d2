import XdrSchema.Proofs.Concrete.Derivation

/-! A row of tokens has at most one derivation. Most alternatives of the grammar start with different tokens;
the types and the declarations that do not are told apart by what is read from them. Main statement:
`determined_specification`. -/
namespace XdrSchema.Concrete

open Pattern Grammar

variable {F : Terminal → Prop}

/-- Patterns whose derivations one reader gives different meanings have no common yield. -/
theorem apart_of_reads {α : Type} {p q s : Pattern} {r : Reader α} {f : s.Tree → α} (h : Reads r s f F)
    (i : p.Tree → s.Tree) (j : q.Tree → s.Tree) (hi : ∀ d, (i d).yield = d.yield)
    (hj : ∀ e, (j e).yield = e.yield) (hne : ∀ d e, f (i d) ≠ f (j e)) : Apart p q F := by
  intro d e rest rest' heq hrest hrest'
  have hd := (h _ _ _).mpr ⟨i d, rfl, rfl, hrest⟩
  have he := (h _ _ _).mpr ⟨j e, rfl, rfl, hrest'⟩
  rw [hi, heq] at hd
  rw [hj] at he
  obtain ⟨hmeaning, -⟩ := Prod.mk.inj (Except.ok.inj (hd.symm.trans he))
  exact hne d e hmeaning

theorem determined_value : Determined Grammar.value F :=
  (determined_token _).alt_of_starts (determined_token _) rfl rfl (by decide)

theorem determined_lengthSuffix : Determined lengthSuffix F :=
  (determined_token _).seq (determined_value.seq (determined_token _) leads_any) leads_any

theorem determined_boundSuffix : Determined boundSuffix F := by
  have hbound : Determined Grammar.value.opt (· ∉ Grammar.value.starts) :=
    determined_value.opt rfl fun _ hk hnot => hnot hk
  exact (determined_token _).seq (hbound.seq (determined_token _) (leads_of_opens rfl (by decide))) leads_any

/-! ### Types and declarations -/

theorem determined_keywords {k l : Keyword} (h : k ≠ l) :
    Determined ((Grammar.keyword k).alt (Grammar.keyword l)) F :=
  (determined_token _).alt_of_starts (determined_token _) rfl rfl (by simpa [starts] using h)

theorem determined_uintType : Determined uintType (· ∈ typeEnd) := by
  have hint : Determined (Grammar.keyword .int).opt (· ∈ typeEnd) := (determined_token _).opt rfl (by decide)
  exact ((determined_token _).seq hint leads_any).alt_of_starts (determined_token _) rfl rfl (by decide)

theorem determined_uhyperType : Determined uhyperType F :=
  ((determined_token _).seq (determined_token _) leads_any).alt_of_starts (determined_token _) rfl rfl (by decide)

/-- The types of both signs share a first word. -/
theorem determined_typeSpecifier : Determined typeSpecifier (· ∈ typeEnd) := by
  have hname : Determined (boolType.alt nameType) (· ∈ typeEnd) :=
    (determined_token _).alt_of_starts (determined_token _) rfl rfl (by decide)
  have hdouble := (determined_token (.keyword .double)).alt_of_starts hname rfl rfl (by decide)
  have hfloat := (determined_token (.keyword .float)).alt_of_starts hdouble rfl rfl (by decide)
  have huhyper := determined_uhyperType.alt_of_starts hfloat rfl rfl (by decide)
  have hhyper := (determined_keywords (k := .hyper) (l := .int64) (by decide)).alt_of_starts huhyper rfl rfl (by decide)
  have huint := determined_uintType.alt hhyper (apart_of_reads reads_typed (fun d => .inr (.inl d))
    (fun e => .inr (.inr e)) (fun _ => rfl) (fun _ => rfl) fun d e h => by
      have hbase := congrArg Prod.snd h
      rcases e with e | e | e | e | e | e <;> cases hbase)
  exact (determined_keywords (k := .int) (l := .int32) (by decide)).alt_of_starts huint rfl rfl (by decide)

/-- The type that a declaration gives. -/
def Declaration.type? : Declaration → Option (TypeExpr Value String)
  | .void _ => none
  | .item _ type _ => some type

section Declarations

variable {p : Pattern} (hp : Determined p (· ∈ declarationEnd))

include hp

theorem determined_typed (hnull : p.nullable = false) (hstarts : ∀ k ∈ p.starts, k ∈ typeEnd) :
    Determined (typeSpecifier.seq p) (· ∈ declarationEnd) :=
  determined_typeSpecifier.seq hp (leads_of_opens hnull hstarts)

theorem determined_named : Determined (Grammar.name.seq p) (· ∈ declarationEnd) :=
  (determined_token _).seq hp leads_any

end Declarations

theorem determined_declaration : Determined Grammar.declaration (· ∈ declarationEnd) := by
  have hlength := determined_named determined_lengthSuffix
  have hbound := determined_named determined_boundSuffix
  have hoptional : Determined optionalDecl (· ∈ declarationEnd) :=
    determined_typed ((determined_token _).seq (determined_token _) leads_any) rfl (by decide)
  have hvoid := hoptional.alt_of_starts (determined_token (.keyword .void)) rfl rfl (by decide)
  have hstring := ((determined_token (.keyword .string)).seq hbound leads_any).alt_of_starts hvoid rfl rfl (by decide)
  have hbytes := ((determined_token (.keyword .opaqueData)).seq hbound leads_any).alt_of_starts hstring rfl rfl
    (by decide)
  have hfixed := ((determined_token (.keyword .opaqueData)).seq hlength leads_any).alt hbytes
    (apart_of_reads reads_declaration (fun d => .inr (.inr (.inr (.inl d))))
      (fun e => .inr (.inr (.inr (.inr e)))) (fun _ => rfl) (fun _ => rfl) fun d e h => by
        have htype := congrArg Declaration.type? h
        rcases e with e | e | e | e <;> cases htype)
  have hvector := (determined_typed hbound rfl (by decide)).alt hfixed
    (apart_of_reads reads_declaration (fun d => .inr (.inr (.inl d))) (fun e => .inr (.inr (.inr e)))
      (fun _ => rfl) (fun _ => rfl) fun d e h => by
        have htype := congrArg Declaration.type? h
        rcases e with e | e | e | e | e <;> cases htype)
  have harray := (determined_typed hlength rfl (by decide)).alt hvector
    (apart_of_reads reads_declaration (fun d => .inr (.inl d)) (fun e => .inr (.inr e))
      (fun _ => rfl) (fun _ => rfl) fun d e h => by
        have htype := congrArg Declaration.type? h
        rcases e with e | e | e | e | e | e <;> cases htype)
  exact (determined_typed (determined_token .name) rfl (by decide)).alt harray
    (apart_of_reads reads_declaration (fun d => .inl d) (fun e => .inr e)
      (fun _ => rfl) (fun _ => rfl) fun d e h => by
        have htype := congrArg Declaration.type? h
        rcases e with e | e | e | e | e | e | e <;> cases htype)

/-! ### Definitions -/

theorem determined_some {p : Pattern} (hp : Determined p Any) (hnull : p.nullable = false) :
    Determined p.some (· ∉ p.starts) :=
  hp.seq (hp.many hnull fun _ hk hnot => hnot hk) leads_any

theorem determined_field : Determined Grammar.field F :=
  determined_declaration.seq (determined_token _) (leads_of_opens rfl (by decide))

theorem determined_enumMember : Determined enumMember F :=
  (determined_token _).seq ((determined_token _).seq determined_value leads_any) leads_any

theorem determined_enumBody : Determined enumBody F := by
  have hmember : Determined ((Grammar.mark .comma).seq enumMember) Any :=
    (determined_token _).seq determined_enumMember leads_any
  have hmembers : Determined ((Grammar.mark .comma).seq enumMember).many (· ∉ [.mark .comma]) :=
    hmember.many rfl fun _ hk hnot => hnot hk
  exact (determined_token _).seq (determined_enumMember.seq
    (hmembers.seq (determined_token _) (leads_of_opens rfl (by decide))) leads_any) leads_any

theorem determined_structBody : Determined structBody F :=
  (determined_token _).seq ((determined_some determined_field rfl).seq (determined_token _)
    (leads_of_opens rfl (by decide))) leads_any

theorem determined_caseLabel : Determined caseLabel F :=
  (determined_token _).seq (determined_value.seq (determined_token _) leads_any) leads_any

theorem determined_arm : Determined Grammar.arm F := by
  have hcase : Determined caseArm F :=
    (determined_some determined_caseLabel rfl).seq determined_field (leads_of_opens rfl (by decide))
  have hdefault : Determined defaultArm F :=
    (determined_token _).seq ((determined_token _).seq determined_field leads_any) leads_any
  exact hcase.alt_of_starts hdefault rfl rfl (by decide)

theorem determined_unionBody : Determined unionBody F := by
  have harms : Determined (Grammar.arm.some.seq (Grammar.mark .closeBrace)) F :=
    (determined_some determined_arm rfl).seq (determined_token _) (leads_of_opens rfl (by decide))
  have hclose : Determined ((Grammar.mark .closeParen).seq ((Grammar.mark .openBrace).seq
      (Grammar.arm.some.seq (Grammar.mark .closeBrace)))) F :=
    (determined_token _).seq ((determined_token _).seq harms leads_any) leads_any
  exact (determined_token _).seq ((determined_token _).seq (determined_declaration.seq hclose
    (leads_of_opens rfl (by decide))) leads_any) leads_any

theorem determined_ended {p : Pattern} (hp : Determined p Any) :
    Determined (Grammar.name.seq (p.seq (Grammar.mark .semicolon))) F :=
  (determined_token _).seq (hp.seq (determined_token _) leads_any) leads_any

theorem determined_definition : Determined Grammar.definition F := by
  have hunion := (determined_token (.keyword .union)).seq (determined_ended (F := F) determined_unionBody) leads_any
  have hstruct := ((determined_token (.keyword .struct)).seq (determined_ended determined_structBody)
    leads_any).alt_of_starts hunion rfl rfl (by decide)
  have henum := ((determined_token (.keyword .enum)).seq (determined_ended determined_enumBody)
    leads_any).alt_of_starts hstruct rfl rfl (by decide)
  have htypedef := ((determined_token (.keyword .typedef)).seq determined_field leads_any).alt_of_starts henum
    rfl rfl (by decide)
  have hconst : Determined constDef F :=
    (determined_token _).seq ((determined_token _).seq ((determined_token _).seq (determined_value.seq
      (determined_token _) leads_any) leads_any) leads_any) leads_any
  exact hconst.alt_of_starts htypedef rfl rfl (by decide)

theorem determined_specification : Determined Grammar.specification (· = .endOfInput) :=
  determined_definition.many rfl fun k hk heq => by
    subst heq
    revert hk
    decide

end XdrSchema.Concrete
