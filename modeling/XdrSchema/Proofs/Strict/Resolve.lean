import XdrSchema.Proofs.Strict.Scope

/-! Strict resolving of all types. A type that is not resolved is fresh or in progress, and one in progress
is on the path, so that meeting it again closes a cycle. In the end the table holds the whole schema. -/
namespace XdrSchema.Schema

open Work (raise breach report)
open Resolve (Gives Sound Refers names)

/-- Resolves the definition of a type, unless that is done. -/
def strictVisit (symbols : List Symbol) (fresh : List (TypeKind × Spec.Definition)) (path : List String)
    (name : String) (span : Span) : Work Unit := do
  match (← get).progress.done.lookup name with
  | some _ => return ()
  | none =>
    match _h : fresh.find? (·.2.name = name) with
    | none =>
      if name ∈ path then raise ⟨.cyclic (Constant.cycleAt path name), some span⟩
      else breach (.assertion "a type in progress is on the path")
    | some (_, d) =>
      let rest := fresh.eraseP (·.2.name = name)
      let scope : StrictScope := ⟨symbols, fun n s => strictVisit symbols rest (path ++ [name]) n s⟩
      Work.finish name (← scope.definition d)
termination_by fresh.length
decreasing_by
  refine length_eraseP_key_lt (List.mem_map.mpr ⟨_, List.mem_of_find?_eq_some _h, ?_⟩)
  simpa using List.find?_some _h

def strictVisitAll (symbols : List Symbol) : Work Unit :=
  let types := Symbol.types symbols
  types.forM fun (_, d) => strictVisit symbols types [] d.name d.nameSpan

def strictBuild (spec : Spec) : Work Schema := do
  let symbols := Symbol.ofSpec spec
  report (Symbol.checkDistinct [] symbols)
  Constant.strictCheckAll symbols
  strictVisitAll symbols
  let types := Symbol.types symbols
  if types.isEmpty then Work.warn .noTypes spec.span?
  return ⟨symbols, inOrder types (← get).progress.done⟩

variable {symbols : List Symbol} {values : List (String × Int)}

section Visit

variable {fresh : List (TypeKind × Spec.Definition)} {path : List String} {name : String} {span : Span}

/-- A type that is not fresh is resolved already, or closes a cycle. -/
theorem visit_of_not_fresh (h : fresh.find? (·.2.name = name) = none) :
    visit symbols fresh path name span = (do
      if ((← get).done.lookup name).isSome then return ()
      Resolve.fail (.cyclic (Constant.cycleAt path name)) span) := by
  rw [visit]
  refine bind_congr fun p => ?_
  by_cases hdone : (p.done.lookup name).isSome
  · rw [if_pos hdone, if_pos hdone]
  · rw [if_neg hdone, if_neg hdone]
    split
    · rfl
    · next heq => cases h.symm.trans heq

theorem strictVisit_of_not_fresh (h : fresh.find? (·.2.name = name) = none) (hpath : name ∈ path) :
    strictVisit symbols fresh path name span = (do
      match (← get).progress.done.lookup name with
      | some _ => return ()
      | none => raise ⟨.cyclic (Constant.cycleAt path name), some span⟩) := by
  rw [strictVisit]
  refine bind_congr fun t => ?_
  cases t.progress.done.lookup name with
  | some d => rfl
  | none =>
    dsimp only
    split
    · rw [if_pos hpath]
    · next heq => cases h.symm.trans heq

theorem visit_of_fresh {k : TypeKind} {d : Spec.Definition}
    (h : fresh.find? (·.2.name = name) = some (k, d)) :
    visit symbols fresh path name span = (do
      if ((← get).done.lookup name).isSome then return ()
      Resolve.finish name (← Scope.definition
        ⟨symbols, fun n s => visit symbols (fresh.eraseP (·.2.name = name)) (path ++ [name]) n s⟩ d)) := by
  rw [visit]
  refine bind_congr fun p => ?_
  by_cases hdone : (p.done.lookup name).isSome
  · rw [if_pos hdone, if_pos hdone]
  · rw [if_neg hdone, if_neg hdone]
    split
    · next heq => cases h.symm.trans heq
    · next heq =>
      cases h.symm.trans heq
      rfl

theorem strictVisit_of_fresh {k : TypeKind} {d : Spec.Definition}
    (h : fresh.find? (·.2.name = name) = some (k, d)) :
    strictVisit symbols fresh path name span = (do
      match (← get).progress.done.lookup name with
      | some _ => return ()
      | none => Work.finish name (← StrictScope.definition
        ⟨symbols, fun n s => strictVisit symbols (fresh.eraseP (·.2.name = name)) (path ++ [name]) n s⟩ d)) := by
  rw [strictVisit]
  refine bind_congr fun t => ?_
  cases t.progress.done.lookup name with
  | some d => rfl
  | none =>
    dsimp only
    split
    · next heq => cases h.symm.trans heq
    · next heq =>
      cases h.symm.trans heq
      rfl

end Visit

/-- Work on a type that is done, or else work that follows other work. -/
theorem follows_unless_done {t : Table} {name : String} {x' : Work Unit} {x : Resolve Unit}
    {P : Unit → Table → Prop} (hdone : P () t) (h : Follows t x' x P) :
    Follows t (do
        match (← get).progress.done.lookup name with
        | some _ => return ()
        | none => x')
      (do
        if ((← get).done.lookup name).isSome then return ()
        x) P := by
  apply follows_get_bind
  cases t.progress.done.lookup name with
  | some d => exact follows_pure hdone
  | none => exact h

theorem tracks_visit (hcomplete : Constant.Complete symbols values)
    (fresh : List (TypeKind × Spec.Definition)) (hdistinct : (fresh.map (·.2.name)).Nodup)
    (hpending : ∀ x ∈ fresh, Pending symbols x) (path : List String)
    (hplaced : ∀ r, Refers symbols r → r.name ∈ fresh.map (·.2.name) ∨ r.name ∈ path)
    (name : String) (span : Span) (base : List (String × Definition)) {k : TypeKind}
    (hrefers : Refers symbols ⟨name, k⟩) :
    Tracks symbols values base (strictVisit symbols fresh path name span)
      (visit symbols fresh path name span) := by
  intro t ht hbase hsound
  cases hfind : fresh.find? (·.2.name = name) with
  | none =>
    have hnew : name ∉ fresh.map (·.2.name) := by
      rintro hmem
      obtain ⟨x, hx, hname⟩ := List.mem_map.mp hmem
      exact List.find?_eq_none.mp hfind x hx (by simpa using hname)
    have hpath := (hplaced _ hrefers).resolve_left hnew
    rw [strictVisit_of_not_fresh hfind hpath, visit_of_not_fresh hfind]
    exact follows_unless_done ht (follows_raise trivial)
  | some x =>
    obtain ⟨k', d⟩ := x
    rw [strictVisit_of_fresh hfind, visit_of_fresh hfind]
    have hmem := List.mem_of_find?_eq_some hfind
    have hname : d.name = name := by simpa using List.find?_some hfind
    have herase := map_eraseP_key (fun x : TypeKind × Spec.Definition => x.2.name) fresh name
    have hdistinct' := herase ▸ hdistinct.erase name
    have hpending' : ∀ x ∈ fresh.eraseP (·.2.name = name), Pending symbols x := fun x hx =>
      hpending x (List.mem_of_mem_eraseP hx)
    have hplaced' : ∀ r, Refers symbols r →
        r.name ∈ (fresh.eraseP (·.2.name = name)).map (·.2.name) ∨ r.name ∈ path ++ [name] := fun r hr =>
      mem_eraseP_key_or_append (hplaced r hr)
    have hmirrors : StrictScope.Mirrors values
        ⟨symbols, fun n s => strictVisit symbols (fresh.eraseP (·.2.name = name)) (path ++ [name]) n s⟩
        ⟨symbols, fun n s => visit symbols (fresh.eraseP (·.2.name = name)) (path ++ [name]) n s⟩
        ((fresh.eraseP (·.2.name = name)).map (·.2.name)) :=
      { symbols := rfl
        complete := hcomplete
        visits := fun n s b => gives_visit _ hdistinct' hpending' (path ++ [name]) n s b
        visit := fun n s b k hk =>
          tracks_visit hcomplete _ hdistinct' hpending' (path ++ [name]) hplaced' n s b hk }
    refine follows_unless_done ht ?_
    refine (hmirrors.definition d (hpending _ hmem).kind t ht hbase hsound).bind fun r t' ht' _ => ?_
    exact follows_finish fun t'' heq => heq.trans ht'
termination_by fresh.length
decreasing_by exact length_eraseP_key_lt (List.mem_map.mpr ⟨_, hmem, hname⟩)

theorem tracks_forM (hcomplete : Constant.Complete symbols values)
    {types pending : List (TypeKind × Spec.Definition)} (hdistinct : (types.map (·.2.name)).Nodup)
    (hpending : ∀ x ∈ types, Pending symbols x)
    (hall : ∀ r, Refers symbols r → r.name ∈ types.map (·.2.name)) (hsub : ∀ x ∈ pending, x ∈ types)
    (base : List (String × Definition)) :
    Tracks symbols values base
      (pending.forM fun x => strictVisit symbols types [] x.2.name x.2.nameSpan)
      (pending.forM fun x => visit symbols types [] x.2.name x.2.nameSpan) := by
  induction pending generalizing base with
  | nil => exact tracks_pure ()
  | cons x rest ih =>
    rw [List.forall_mem_cons] at hsub
    change Tracks symbols values base
      (strictVisit symbols types [] x.2.name x.2.nameSpan >>= fun _ =>
        rest.forM fun x => strictVisit symbols types [] x.2.name x.2.nameSpan)
      (visit symbols types [] x.2.name x.2.nameSpan >>= fun _ =>
        rest.forM fun x => visit symbols types [] x.2.name x.2.nameSpan)
    refine (tracks_visit hcomplete types hdistinct hpending [] (fun r hr => .inl (hall r hr)) _ _ base
      (hpending x hsub.1).symbol).bind (gives_visit types hdistinct hpending [] _ _ base)
      fun _ done _ _ => ih hsub.2 done

/-! ### The schema -/

/-- The schema is read off the table in the end. -/
theorem follows_schema {types : List (TypeKind × Spec.Definition)} {t : Table} :
    Follows t (do return Schema.mk symbols (inOrder types (← get).progress.done))
      (do return Schema.mk symbols (inOrder types (← get).done)) fun s t' =>
        s = ⟨symbols, inOrder types t'.progress.done⟩ ∧ t'.values = t.values :=
  follows_get_bind (follows_pure ⟨rfl, rfl⟩)

theorem follows_build {spec : Spec} (hproper : ∀ d ∈ spec.definitions, d.Proper) :
    Follows ⟨Constant.builtinValues, ⟨[], []⟩⟩ (strictBuild spec) (build spec) fun s t =>
      s = ⟨Symbol.ofSpec spec, inOrder (Symbol.types (Symbol.ofSpec spec)) t.progress.done⟩ ∧
        ((Symbol.ofSpec spec).map (·.name)).Nodup ∧ Constant.Complete (Symbol.ofSpec spec) t.values := by
  unfold strictBuild build
  dsimp only
  refine (follows_report (P := fun _ t => t = ⟨Constant.builtinValues, ⟨[], []⟩⟩ ∧
      ((Symbol.ofSpec spec).map (·.name)).Nodup) (failsWith_checkDistinct (fun _ _ _ => trivial) _ _)
    fun _ h => ⟨rfl, (checkDistinct_eq_ok_iff.mp h).1⟩).bind fun _ t ⟨ht, hdistinct⟩ _ => ?_
  subst ht
  refine (Constant.follows_checkAll hdistinct (Constant.ready_builtinValues spec _)).bind
    fun _ t hcomplete hends => ?_
  obtain ⟨-, hprogress⟩ := ends_lift.mp hends
  have hall : ∀ r, Refers (Symbol.ofSpec spec) r →
      r.name ∈ (Symbol.types (Symbol.ofSpec spec)).map (·.2.name) := fun r ⟨_, hfind, hkind⟩ =>
    mem_types_of_kind hfind hkind
  have hsound : Sound (Symbol.ofSpec spec) t.progress.done := by
    rw [hprogress]
    exact .nil
  refine (tracks_forM hcomplete (nodup_types hdistinct) (pending_of_mem_types hproper hdistinct) hall
    (fun _ hx => hx) [] t rfl List.nil_suffix hsound).bind fun _ t₁ ht₁ _ => ?_
  have hkept {t₂ : Table} (h : t₂.values = t.values) :
      Constant.Complete (Symbol.ofSpec spec) t₂.values := h ▸ hcomplete
  split
  · refine (follows_warn (P := fun _ t₂ => t₂.values = t.values) fun t₂ h => h.trans ht₁).bind
      fun _ t₂ ht₂ _ => ?_
    exact follows_schema.mono fun s t₃ h => ⟨h.1, hdistinct, hkept (h.2.trans ht₂)⟩
  · exact follows_schema.mono fun s t₂ h => ⟨h.1, hdistinct, hkept (h.2.trans ht₁)⟩

/-- A table in which a schema is resolved. -/
structure Table.Holds (t : Table) (s : Schema) : Prop where
  wellFormed : s.WellFormed
  typeNames : s.typeNames = (Symbol.types s.symbols).map (·.2.name)
  constants : Constant.knownConstants s.symbols t.values = Symbol.constants s.symbols
  definition : ∀ name d, s.definition? name = some d → t.definition s.symbols name = .ok d

/-- Strict resolving agrees with resolving, and the table in the end holds the schema. -/
theorem follows_build_holds {spec : Spec} (hproper : ∀ d ∈ spec.definitions, d.Proper) :
    Follows ⟨Constant.builtinValues, ⟨[], []⟩⟩ (strictBuild spec) (build spec) fun s t => t.Holds s := by
  have h := follows_build hproper
  refine ⟨h.result, h.progress, fun s t hends => ?_⟩
  obtain ⟨hs, hdistinct, hcomplete⟩ := h.holds s t hends
  have hwf := wellFormed_of_build hproper (h.ends hends)
  obtain ⟨-, -, -, -, done', hdone', -, -, hall⟩ :=
    gives_build hproper _ _ _ List.nil_suffix .nil (h.ends hends)
  refine ⟨hwf, ?_, ?_, fun name d hd => ?_⟩
  · rw [hs]
    exact map_fst_inOrder fun x hx => (hdone'.map (·.1)).subset (hall x hx)
  · rw [hs]
    exact Constant.knownConstants_eq hdistinct hcomplete
  · have hrefers := hwf.symbol name d hd
    rw [hs] at hd hrefers ⊢
    exact Table.definition_eq_ok hrefers (lookup_inOrder.mp hd).2

end XdrSchema.Schema
