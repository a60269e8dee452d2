import Mathlib.Data.List.Nodup

/-! Looking up by a key. Where no key occurs twice, each entry is the one that is found under its key. -/
namespace XdrSchema

variable {α β κ : Type}

theorem find?_eq_some_iff_of_nodup [DecidableEq κ] {key : α → κ} {l : List α} (h : (l.map key).Nodup)
    {k : κ} {a : α} : l.find? (fun x => key x = k) = some a ↔ a ∈ l ∧ key a = k := by
  constructor
  · intro hfind
    exact ⟨List.mem_of_find?_eq_some hfind, by simpa using List.find?_some hfind⟩
  · rintro ⟨hmem, rfl⟩
    cases hfind : l.find? (fun x => key x = key a) with
    | none => simpa using List.find?_eq_none.mp hfind a hmem
    | some b =>
      have hkey : key b = key a := by simpa using List.find?_some hfind
      rw [List.inj_on_of_nodup_map h (List.mem_of_find?_eq_some hfind) hmem hkey]

/-- To take out the entry of a key is to take out the key. -/
theorem map_eraseP_key [DecidableEq κ] (key : α → κ) (l : List α) (k : κ) :
    (l.eraseP fun x => key x = k).map key = (l.map key).erase k := by
  rw [List.erase_eq_eraseP', List.eraseP_map]
  rfl

theorem length_eraseP_key_lt [DecidableEq κ] {key : α → κ} {l : List α} {k : κ} (h : k ∈ l.map key) :
    (l.eraseP fun x => key x = k).length < l.length := by
  have hlength := List.length_erase_of_mem h
  have hpos := List.length_pos_of_mem h
  rw [← map_eraseP_key, List.length_map, List.length_map] at hlength
  rw [List.length_map] at hpos
  omega

/-- What was not begun stays so, and what is begun is on the path. -/
theorem mem_eraseP_key_or_append [DecidableEq κ] {key : α → κ} {l : List α} {path : List κ} {k k' : κ}
    (h : k' ∈ l.map key ∨ k' ∈ path) :
    k' ∈ (l.eraseP fun x => key x = k).map key ∨ k' ∈ path ++ [k] := by
  by_cases heq : k' = k
  · exact .inr (by simp [heq])
  · refine h.imp (fun hmem => ?_) (List.mem_append_left _)
    rw [map_eraseP_key]
    exact (List.mem_erase_of_ne heq).mpr hmem

variable [BEq κ] [LawfulBEq κ] {l : List (κ × β)} {k : κ} {b : β}

theorem lookup_eq_some_iff_of_nodup (h : (l.map (·.1)).Nodup) : l.lookup k = some b ↔ (k, b) ∈ l := by
  constructor
  · intro hlookup
    obtain ⟨before, rest, rfl, -⟩ := List.lookup_eq_some_iff.mp hlookup
    simp
  · intro hmem
    obtain ⟨before, rest, rfl⟩ := List.append_of_mem hmem
    apply List.lookup_eq_some_iff.mpr
    refine ⟨before, rest, rfl, fun x hx => ?_⟩
    rw [List.map_append, List.map_cons] at h
    have hne := (List.nodup_append.mp h).2.2 x.1 (List.mem_map_of_mem hx) k List.mem_cons_self
    simpa [bne_iff_ne] using Ne.symm hne

theorem lookup_isSome_iff_mem : (l.lookup k).isSome ↔ k ∈ l.map (·.1) := by
  rw [List.lookup_isSome_iff, List.mem_map]
  apply exists_congr
  intro x
  rw [beq_iff_eq, eq_comm]

theorem lookup_ne_none (h : k ∈ l.map (·.1)) : l.lookup k ≠ none :=
  Option.isSome_iff_ne_none.mp (lookup_isSome_iff_mem.mpr h)

theorem lookup_of_suffix {before : List (κ × β)} (h : before <:+ l) (hnodup : (l.map (·.1)).Nodup)
    (hk : before.lookup k = some b) : l.lookup k = some b := by
  rw [lookup_eq_some_iff_of_nodup (hnodup.sublist (h.sublist.map _))] at hk
  rw [lookup_eq_some_iff_of_nodup hnodup]
  exact h.subset hk

/-- Lists under whose keys the same is found have the same entries. -/
theorem perm_of_lookup_eq {l' : List (κ × β)} (h : (l.map (·.1)).Nodup) (h' : (l'.map (·.1)).Nodup)
    (heq : ∀ k, l'.lookup k = l.lookup k) : l'.Perm l := by
  refine (List.perm_ext_iff_of_nodup h'.of_map h.of_map).mpr fun ⟨k, b⟩ => ?_
  rw [← lookup_eq_some_iff_of_nodup h, ← lookup_eq_some_iff_of_nodup h', heq]

end XdrSchema
