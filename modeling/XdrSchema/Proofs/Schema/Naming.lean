import XdrSchema.Proofs.Schema.Variant

/-! The rule by which the arms of a union are named. An arm asks for the name of its label, of its field or of
its values. Where others ask for the same name it is named after its values, and where an earlier arm has that
name already it gets the first number that is free. Main statement: `assign_follows_rule`. -/
namespace XdrSchema.Schema.Variant

/-! ### Names made from values -/

theorem toList_valueText (n : Int) :
    (valueText n).toList = (if n < 0 then "Neg".toList else []) ++ n.natAbs.repr.toList := by
  unfold valueText
  split
  · exact String.toList_append
  · next hn =>
    obtain ⟨k, rfl⟩ := Int.eq_ofNat_of_zero_le (Int.not_lt.mp hn)
    rfl

theorem not_mem_repr {c : Char} (hc : c.isDigit = false) (k : Nat) : c ∉ k.repr.toList :=
  fun h => absurd (hc.symm.trans (isDigit_of_mem_repr h)) (by decide)

theorem valueText_injective : Function.Injective valueText := by
  intro m n h
  have hsign (k : Nat) (rest : List Char) : k.repr.toList ≠ "Neg".toList ++ rest := fun h =>
    not_mem_repr (c := 'N') (by decide) k (h ▸ List.mem_cons_self)
  have htext := congrArg String.toList h
  rw [toList_valueText, toList_valueText] at htext
  have habs : (m < 0 ↔ n < 0) ∧ m.natAbs = n.natAbs := by
    split at htext <;> split at htext
    · exact ⟨by omega, repr_injective (String.toList_inj.mp (List.append_cancel_left htext))⟩
    · exact absurd htext.symm (hsign _ _)
    · exact absurd htext (hsign _ _)
    · exact ⟨by omega, repr_injective (String.toList_inj.mp htext)⟩
  omega

theorem underscore_not_mem_valueText (n : Int) : '_' ∉ (valueText n).toList := by
  have hsign : '_' ∉ if n < 0 then "Neg".toList else [] := by
    split <;> decide
  rw [toList_valueText, List.mem_append]
  exact not_or.mpr ⟨hsign, not_mem_repr (by decide) _⟩

theorem valueText_ne_nil (n : Int) : (valueText n).toList ≠ [] := by
  rw [toList_valueText]
  exact List.append_ne_nil_of_right_ne_nil _ (by simp [Nat.toList_repr])

/-- The values of some labels stand between the underscores of the name made from them. -/
theorem splitOn_values {values : List Int} (h : values ≠ []) :
    ("_".intercalate (values.map valueText)).toList.splitOn '_' = values.map fun n => (valueText n).toList := by
  rw [String.toList_intercalate, List.map_map]
  refine List.splitOn_intercalate '_' (fun text htext => ?_) (by simpa using h)
  obtain ⟨n, -, rfl⟩ := List.mem_map.mp htext
  exact underscore_not_mem_valueText n

theorem values_ne_nil {values : List Int} (h : values ≠ []) :
    "_".intercalate (values.map valueText) ≠ "" := by
  intro hempty
  have hsplit := splitOn_values h
  rw [hempty] at hsplit
  have hmem : [] ∈ values.map fun n => (valueText n).toList := hsplit ▸ List.mem_singleton_self []
  obtain ⟨n, -, hn⟩ := List.mem_map.mp hmem
  exact valueText_ne_nil n hn

theorem caseName_inj {labels labels' : List Label} :
    caseName labels = caseName labels' ↔ labels.map (·.value) = labels'.map (·.value) := by
  have hname (ls : List Label) : caseName ls = "Case" ++ "_".intercalate ((ls.map (·.value)).map valueText) := by
    rw [caseName, List.map_map]
    rfl
  rw [hname, hname, String.append_right_inj]
  generalize labels.map (·.value) = values, labels'.map (·.value) = values'
  constructor
  · intro h
    rcases eq_or_ne values [] with rfl | hvalues <;> rcases eq_or_ne values' [] with rfl | hvalues'
    · rfl
    · exact absurd h.symm (values_ne_nil hvalues')
    · exact absurd h (values_ne_nil hvalues)
    · have htexts := splitOn_values hvalues
      rw [h, splitOn_values hvalues'] at htexts
      exact (List.map_injective_iff.mpr (fun m n h => valueText_injective (String.toList_inj.mp h)) htexts).symm
  · rintro rfl
    rfl

/-! ### The name that is asked for -/

/-- An arm prefers the name of its single label, if that is an identifier, else that of its field, else the one made
from its values. -/
inductive Prefers (d : Draft) : String → Prop
  | label {n : Int} {name : String} (h : d.labels = [⟨n, some name⟩]) : Prefers d name
  | field {name : String} (hlabel : ∀ n label, d.labels ≠ [⟨n, some label⟩]) (h : d.fieldName = some name) :
    Prefers d name
  | values (hlabel : ∀ n label, d.labels ≠ [⟨n, some label⟩]) (h : d.fieldName = none) :
    Prefers d (caseName d.labels)

theorem prefers_preferred (d : Draft) : Prefers d (preferred d) := by
  unfold preferred
  split
  · next h => exact .label h
  · next hfield hlabel => exact .field (fun n label h => hlabel n label h) hfield
  · next hfield hlabel => exact .values (fun n label h => hlabel n label h) hfield

theorem prefers_iff {d : Draft} {name : String} : Prefers d name ↔ preferred d = name := by
  refine ⟨fun h => ?_, fun h => h ▸ prefers_preferred d⟩
  unfold preferred
  cases h with
  | label h => rw [h]
  | field hlabel h =>
    rw [h]
    split
    · next hlabels => exact absurd hlabels (hlabel _ _)
    · next hfield _ => exact Option.some.inj hfield.symm
    · next hfield _ => cases hfield
  | values hlabel h =>
    rw [h]
    split
    · next hlabels => exact absurd hlabels (hlabel _ _)
    · next hfield _ => cases hfield
    · rfl

/-- The name is preferred by an arm among `others`, or it is that of the default arm. -/
def Contested (hasDefault : Bool) (others : List Draft) (name : String) : Prop :=
  (∃ d ∈ others, Prefers d name) ∨ hasDefault = true ∧ name = "Default"

/-- The name that an arm asks for beside the other arms of its union. -/
inductive Asks (hasDefault : Bool) (others : List Draft) (d : Draft) : String → Prop
  | preferred {name : String} (h : Prefers d name) (hfree : ¬ Contested hasDefault others name) :
    Asks hasDefault others d name
  | values {name : String} (h : Prefers d name) (hcontested : Contested hasDefault others name) :
    Asks hasDefault others d (caseName d.labels)

/-- The name is the one asked for if that is free, else that with the first number, from 2 on, that makes it free. -/
inductive FirstFree (taken : List String) (name : String) : String → Prop
  | plain (h : name ∉ taken) : FirstFree taken name name
  | numbered {n : Nat} (h : name ∈ taken) (hn : 2 ≤ n) (hfree : s!"{name}_{n}" ∉ taken)
    (hfirst : ∀ m, 2 ≤ m → m < n → s!"{name}_{m}" ∈ taken) : FirstFree taken name s!"{name}_{n}"

theorem firstFree_unique (taken : List String) (name : String) : FirstFree taken name (unique taken name) := by
  unfold unique
  dsimp only
  split
  · next hmem =>
    obtain ⟨k, hk, hfree⟩ := exists_variation taken name
    split
    · next j hj =>
      obtain ⟨hj, -, hearlier⟩ := List.find?_range_eq_some.mp hj
      refine .numbered hmem (by omega) (by simpa using hj) fun m hm hlt => ?_
      obtain ⟨i, rfl⟩ := Nat.exists_eq_add_of_le' hm
      simpa using hearlier i (by omega)
    · next hnone => exact absurd hfree (by simpa using List.find?_eq_none.mp hnone k hk)
  · next hfree => exact .plain hfree

/-! ### Assignment -/

section

variable (hasDefault : Bool) (before : List Draft) (d : Draft) (after : List Draft)

/-- What several arms prefer is counted more than once, as each of them counts. -/
theorem contested_iff :
    (1 < ((before ++ d :: after).map preferred).count (preferred d) ||
      (hasDefault && preferred d = defaultName)) = true ↔
    Contested hasDefault (before ++ after) (preferred d) := by
  have hcount : 1 < ((before ++ d :: after).map preferred).count (preferred d) ↔
      preferred d ∈ (before ++ after).map preferred := by
    rw [← List.count_pos_iff]
    simp only [List.map_append, List.map_cons, List.count_append, List.count_cons_self]
    omega
  have hothers : preferred d ∈ (before ++ after).map preferred ↔
      ∃ other ∈ before ++ after, Prefers other (preferred d) := by
    rw [List.mem_map]
    exact exists_congr fun other => and_congr_right fun _ => prefers_iff.symm
  rw [Bool.or_eq_true, Bool.and_eq_true, decide_eq_true_iff, decide_eq_true_iff, hcount, hothers]
  rfl

theorem assignFrom_append (all taken : List String) (rest : List Draft) :
    assignFrom all hasDefault taken (before ++ rest) = assignFrom all hasDefault taken before ++
      assignFrom all hasDefault (taken ++ assignFrom all hasDefault taken before) rest := by
  induction before generalizing taken with
  | nil => simp [assignFrom]
  | cons d before ih => simp only [List.cons_append, assignFrom, ih, List.append_assoc, List.nil_append]

/-- An arm is named by what it asks for and what the arms before it have got. -/
theorem exists_assign_eq :
    ∃ earlier name later base, assign hasDefault (before ++ d :: after) = earlier ++ name :: later ∧
      earlier.length = before.length ∧ Asks hasDefault (before ++ after) d base ∧
      FirstFree earlier base name := by
  have hsplit := assignFrom_append hasDefault before ((before ++ d :: after).map preferred) [] (d :: after)
  refine ⟨_, _, _, _, hsplit, length_assignFrom _ _ _ _, ?_, firstFree_unique _ _⟩
  split
  · next h => exact .values (prefers_preferred d) ((contested_iff hasDefault before d after).mp h)
  · next h => exact .preferred (prefers_preferred d) (mt (contested_iff hasDefault before d after).mpr h)

end

/-! ### The name of the default arm -/

theorem caseName_ne_default (labels : List Label) : caseName labels ≠ "Default" := by
  intro h
  have hfirst : "Case".toList.head? = "Default".toList.head? := by
    rw [← h, caseName, String.toList_append]
    rfl
  exact absurd hfirst (by decide)

theorem variation_ne_default (base : String) (n : Nat) : s!"{base}_{n}" ≠ "Default" := by
  intro h
  have hmem : '_' ∈ (base ++ "_" ++ n.repr).toList := by simp
  rw [show base ++ "_" ++ n.repr = "Default" from h] at hmem
  exact absurd hmem (by decide)

theorem Asks.ne_default {others : List Draft} {d : Draft} {base : String} (h : Asks true others d base) :
    base ≠ "Default" := by
  cases h with
  | preferred _ hfree => exact fun hbase => hfree (.inr ⟨rfl, hbase⟩)
  | values _ _ => exact caseName_ne_default d.labels

theorem FirstFree.ne_default {taken : List String} {base name : String} (h : FirstFree taken base name)
    (hbase : base ≠ "Default") : name ≠ "Default" := by
  cases h with
  | plain _ => exact hbase
  | numbered _ _ _ _ => exact variation_ne_default base _

/-- No arm has the name of the default arm beside it. -/
theorem default_not_mem (drafts : List Draft) : "Default" ∉ assign true drafts := by
  intro hmem
  obtain ⟨i, hi, hname⟩ := List.getElem_of_mem hmem
  have hlength := length_assign true drafts
  obtain ⟨before, d, after, rfl, rfl⟩ : ∃ before d after, drafts = before ++ d :: after ∧ before.length = i :=
    ⟨drafts.take i, drafts[i], drafts.drop (i + 1), by simp, by simp; omega⟩
  obtain ⟨earlier, name, later, base, hnames, hearlier, hasks, hfirst⟩ := exists_assign_eq true before d after
  have heq : name = "Default" := by
    rw [← hname]
    simp [hnames, ← hearlier]
  exact hfirst.ne_default hasks.ne_default heq

theorem defaultFor_assign (drafts : List Draft) : defaultFor (assign true drafts) = "Default" :=
  if_neg (default_not_mem drafts)

/-! ### The rule -/

/-- The arms of a union get one name each. These are distinct from each other and from the name of the default arm,
which is the same in all unions. An arm gets the name that it asks for beside the others, with a number just if
an earlier arm has that name. A name made from values tells the values. -/
theorem assign_follows_rule (hasDefault : Bool) (drafts : List Draft) :
    let names := assign hasDefault drafts
    let default? := if hasDefault then some (defaultFor names) else none
    names.length = drafts.length ∧ (names ++ default?.toList).Nodup ∧
      default? = (if hasDefault then some "Default" else none) ∧
      (∀ before d after, drafts = before ++ d :: after →
        ∃ earlier name later base, names = earlier ++ name :: later ∧ earlier.length = before.length ∧
          Asks hasDefault (before ++ after) d base ∧ FirstFree earlier base name) ∧
      ∀ labels labels' : List Label,
        caseName labels = caseName labels' ↔ labels.map (·.value) = labels'.map (·.value) := by
  intro names default?
  have hdefault : default? = if hasDefault then some "Default" else none := by
    cases hasDefault with
    | false => rfl
    | true => exact congrArg some (defaultFor_assign drafts)
  refine ⟨length_assign hasDefault drafts, ?_, hdefault, ?_, fun _ _ => caseName_inj⟩
  · cases hasDefault with
    | false => exact (List.append_nil names).symm ▸ assign_nodup false drafts
    | true =>
      exact (assign_nodup true drafts).append (List.nodup_singleton _)
        (List.disjoint_singleton.mpr (defaultFor_not_mem names))
  · rintro before d after rfl
    exact exists_assign_eq hasDefault before d after

/-- The first two arms prefer the same name, the third that of the default arm, and the last two names that
arms before them have got. -/
example :
    let arm (labels : List Label) (fieldName : Option String) : Draft := ⟨labels, fieldName, ⟨1, 1, 1, 1⟩⟩
    assign true [arm [⟨1, some "A"⟩] (some "x"), arm [⟨2, none⟩, ⟨-3, none⟩] (some "A"), arm [⟨4, some "Default"⟩] none,
      arm [⟨5, none⟩] (some "Case4"), arm [⟨6, some "Case2_Neg3"⟩] none] =
      ["Case1", "Case2_Neg3", "Case4", "Case4_2", "Case2_Neg3_2"] := by
  decide +kernel

end XdrSchema.Schema.Variant
