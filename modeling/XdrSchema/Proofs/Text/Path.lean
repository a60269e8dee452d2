import XdrSchema.Proofs.Text.Bracket
import XdrSchema.Text.Path

/-! The characters of a path and of the names that are made from it. Main statements: `mem_of_mem_name`,
`mem_of_mem_display`. -/
namespace XdrSchema.Text.Path

variable {path : String} {c : Char}

theorem mem_of_mem_part {part : String} (hpart : part ∈ (parse path).parts) (hc : c ∈ part.toList) :
    c ∈ path.toList := by
  obtain ⟨chars, hchars, rfl⟩ := List.mem_map.mp (List.mem_filter.mp hpart).1
  rw [String.toList_ofList] at hc
  exact mem_of_mem_splitOn hchars hc

/-- The name of a file is a part of its path. -/
theorem mem_of_mem_name (h : c ∈ (parse path).name.toList) : c ∈ path.toList := by
  unfold name at h
  cases hlast : (parse path).parts.getLast? with
  | none =>
    rw [hlast] at h
    cases h
  | some part =>
    rw [hlast, Option.getD_some] at h
    exact mem_of_mem_part (List.mem_of_getLast? hlast) h

/-- Double dots take components away and add none. -/
theorem mem_of_mem_descendFrom {above parts kept : List String} (h : descendFrom above parts = some kept) :
    ∀ part ∈ kept, part ∈ above ∨ part ∈ parts := by
  fun_induction descendFrom above parts with
  | case1 above =>
    cases h
    exact fun part hpart => .inl (List.mem_reverse.mp hpart)
  | case2 => cases h
  | case3 rest p above ih =>
    exact fun part hpart => (ih h part hpart).imp (List.mem_cons_of_mem p) (List.mem_cons_of_mem _)
  | case4 above p rest _ ih =>
    intro part hpart
    rcases ih h part hpart with hmem | hmem
    · rcases List.mem_cons.mp hmem with rfl | hmem
      · exact .inr List.mem_cons_self
      · exact .inl hmem
    · exact .inr (List.mem_cons_of_mem p hmem)

/-- What a report calls a file has the characters of its path, and dots and slashes. -/
theorem mem_of_mem_display (h : c ∈ (parse path).display.toList) : c ∈ path.toList ∨ c = '.' ∨ c = '/' := by
  unfold display at h
  split at h
  · next parts hparts =>
    have hwithin : (parse path).within? = some parts := Option.eq_some_of_filter_eq_some hparts
    have hmem : ∀ part ∈ parts, part ∈ (parse path).parts := by
      unfold within? at hwithin
      split at hwithin
      · exact fun part hpart => (mem_of_mem_descendFrom hwithin part hpart).resolve_left List.not_mem_nil
      · cases hwithin
    rw [String.toList_append, List.mem_append] at h
    rcases h with h | h
    · exact .inr (by simpa using h)
    · unfold text at h
      dsimp only at h
      split at h
      · exact .inr (.inl (by simpa using h))
      · rw [String.empty_append] at h
        exact forall_mem_toList_intercalate (P := fun c => c ∈ path.toList ∨ c = '.' ∨ c = '/') (by simp)
          (fun part hpart c hc => .inl (mem_of_mem_part (hmem part hpart) hc)) c h
  · exact .inl (mem_of_mem_name h)

end XdrSchema.Text.Path
