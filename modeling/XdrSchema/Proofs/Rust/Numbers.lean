import XdrSchema.Proofs.Rust.SupportText
import XdrSchema.Proofs.Rust.Vocabulary

/-! The numbers of a generated module. Each one is in the range of what it is written for, and the sizes of a type
are stated as far as they fit. -/
namespace XdrSchema.Rust

open Schema (Definition)

/-! ### Sizes -/

theorem append_ne {a b : String} (k : Nat) (ha : k ≤ a.toList.length) (hb : k ≤ b.toList.length)
    (h : a.toList.take k ≠ b.toList.take k) (x y : String) : a ++ x ≠ b ++ y := by
  intro heq
  have hlists := congrArg (fun t => t.toList.take k) heq
  simp only [String.toList_append, List.take_append_of_le_length ha, List.take_append_of_le_length hb] at hlists
  exact h hlists

/-- The line of a least size. -/
def leastLine (n : Int) : String := "pub const XDR_MIN_SIZE: u64 = " ++ (toString n ++ ";")

/-- The line of a greatest size. -/
def greatestLine (n : Int) : String :=
  "pub const XDR_MAX_SIZE: ::core::option::Option<u64> = " ++
    ("::core::option::Option::Some(" ++ (toString n ++ ");"))

def noGreatestLine : String :=
  "pub const XDR_MAX_SIZE: ::core::option::Option<u64> = " ++ "::core::option::Option::None;"

theorem greatestLine_eq (n : Int) : greatestLine n = "pub const XDR_MAX_SIZE: ::core::option::Option<u64> = " ++
    ("::core::option::Option::Some(" ++ (toString n ++ ");")) :=
  rfl

theorem noGreatestLine_eq : noGreatestLine =
    "pub const XDR_MAX_SIZE: ::core::option::Option<u64> = " ++ "::core::option::Option::None;" :=
  rfl

/-- The line of an exact size. -/
def exactLine (n : Int) : String := "pub const XDR_FIXED_SIZE: u64 = " ++ (toString n ++ ";")

/-- The lines state the sizes that fit: the least one or else the greatest number, the others or else nothing. -/
structure StatesSize (size : Wire.Size) (lines : List String) : Prop where
  least : ∀ n, leastLine n ∈ lines ↔ n = min size.min maxSize
  greatest : ∀ n, greatestLine n ∈ lines ↔ size.max = some n ∧ n ≤ maxSize
  unstated : noGreatestLine ∈ lines ↔ ∀ n ∈ size.max, maxSize < n
  exact : ∀ n, exactLine n ∈ lines ↔ size.fixed = true ∧ n = size.min ∧ n ≤ maxSize

theorem leastLine_ne_exactLine (m n : Int) : leastLine m ≠ exactLine n :=
  append_ne 17 (by decide) (by decide) (by decide) _ _

theorem greatestLine_ne_leastLine (m n : Int) : greatestLine m ≠ leastLine n :=
  append_ne 17 (by decide) (by decide) (by decide) _ _

theorem greatestLine_ne_exactLine (m n : Int) : greatestLine m ≠ exactLine n :=
  append_ne 17 (by decide) (by decide) (by decide) _ _

theorem greatestLine_ne_noGreatestLine (n : Int) : greatestLine n ≠ noGreatestLine := by
  rw [greatestLine_eq, noGreatestLine_eq, ne_eq, String.append_right_inj,
    ← String.append_empty (s := "::core::option::Option::None;")]
  exact append_ne 25 (by decide) (by decide) (by decide) _ _

theorem noGreatestLine_ne_leastLine (n : Int) : noGreatestLine ≠ leastLine n :=
  append_ne 17 (by decide) (by decide) (by decide) _ _

theorem noGreatestLine_ne_exactLine (n : Int) : noGreatestLine ≠ exactLine n :=
  append_ne 17 (by decide) (by decide) (by decide) _ _

theorem append_toString_inj {a b : String} {m n : Int} :
    a ++ (toString m ++ b) = a ++ (toString n ++ b) ↔ m = n := by
  rw [String.append_right_inj, String.append_left_inj, ← String.toList_inj, toString_inj]

theorem leastLine_inj {m n : Int} : leastLine m = leastLine n ↔ m = n := append_toString_inj

theorem greatestLine_inj {m n : Int} : greatestLine m = greatestLine n ↔ m = n := by
  rw [greatestLine_eq, greatestLine_eq, String.append_right_inj, append_toString_inj]

theorem exactLine_inj {m n : Int} : exactLine m = exactLine n ↔ m = n := append_toString_inj

/-- The line of a greatest size, where it can be stated. -/
def greatestOrNone : Option Int → String
  | some n => if n ≤ maxSize then greatestLine n else noGreatestLine
  | none => noGreatestLine

def sizeLines (size : Wire.Size) : List String :=
  [leastLine (min size.min maxSize), greatestOrNone size.max] ++
    if size.fixed && size.min ≤ maxSize then [exactLine size.min] else []

theorem render_greatest (k : Option Int) : "pub const XDR_MAX_SIZE: ::core::option::Option<u64> = " ++
    render (greatestTemplate k ++ [.fixed ";"]) = greatestOrNone k := by
  have hnone : render ([.fixed "::core::option::Option::None"] ++ [.fixed ";"]) =
      "::core::option::Option::None;" := rfl
  cases k with
  | none => rw [greatestTemplate, hnone, greatestOrNone, noGreatestLine_eq]
  | some n =>
    by_cases hn : n ≤ maxSize
    · have htemplate : greatestTemplate (some n) =
          [.fixed "::core::option::Option::Some(", .number .u64 n "", .fixed ")"] := if_pos hn
      have hline : greatestOrNone (some n) = greatestLine n := if_pos hn
      have hclose : ");" = ")" ++ ";" := rfl
      rw [htemplate, hline, greatestLine_eq, hclose]
      simp only [List.cons_append, List.nil_append, render_cons, render_nil, Piece.text, String.append_empty]
    · have htemplate : greatestTemplate (some n) = [.fixed "::core::option::Option::None"] := if_neg hn
      have hline : greatestOrNone (some n) = noGreatestLine := if_neg hn
      rw [htemplate, hline, hnone, noGreatestLine_eq]

theorem render_size (naming : Naming) (n : String) (size : Wire.Size) : ∃ header,
    (sizeTemplates naming n size).map render = ("impl" ++ header) :: (sizeLines size ++ ["\x7d"]) := by
  have hgeneric : "impl<" = "impl" ++ "<" := rfl
  have hplain : "impl " = "impl" ++ " " := rfl
  have hconstant (start : String) (k : Int) : render [.fixed start, .number .u64 k "", .fixed ";"] =
      start ++ (toString k ++ ";") := by
    simp only [render_cons, render_nil, Piece.text, String.append_empty]
  have hheader : ∃ header, render (((if naming.isGeneric n then
      [.fixed "impl<", .parameter naming.parameter, .fixed "> "] else [.fixed "impl "]) ++ declaredTemplate naming n) ++
        [.fixed " \x7b"]) = "impl" ++ header := by
    split
    · rw [List.cons_append, List.cons_append, render_cons, Piece.text, hgeneric, String.append_assoc]
      exact ⟨_, rfl⟩
    · rw [List.cons_append, List.cons_append, render_cons, Piece.text, hplain, String.append_assoc]
      exact ⟨_, rfl⟩
  obtain ⟨header, hheader⟩ := hheader
  refine ⟨header, ?_⟩
  have hexact : (if size.fixed && size.min ≤ maxSize then
      [[.fixed "pub const XDR_FIXED_SIZE: u64 = ", .number .u64 size.min "", .fixed ";"]] else []).map render =
      if size.fixed && size.min ≤ maxSize then [exactLine size.min] else [] := by
    split
    · exact congrArg (fun line => [line]) (hconstant _ _)
    · rfl
  have hgreatest : render (.fixed "pub const XDR_MAX_SIZE: ::core::option::Option<u64> = " ::
      greatestTemplate size.max ++ [.fixed ";"]) = greatestOrNone size.max := by
    rw [List.cons_append, render_cons, Piece.text, render_greatest]
  rw [sizeTemplates, blockTemplates, List.cons_append, List.map_cons, hheader, List.map_append, List.map_append, hexact,
    List.map_cons, hconstant, List.map_singleton, hgreatest]
  rfl

theorem head?_append {a : String} {c : Char} (h : a.toList.head? = some c) (x : String) :
    (a ++ x).toList.head? = some c := by
  rw [String.toList_append, List.head?_append, h, Option.some_or]

/-- A line that declares something is one of those for the sizes. -/
theorem mem_render_size_iff (naming : Naming) (n : String) (size : Wire.Size) {line : String}
    (h : line.toList.head? = some 'p') : line ∈ (sizeTemplates naming n size).map render ↔ line ∈ sizeLines size := by
  obtain ⟨header, hlines⟩ := render_size naming n size
  have hheader : line ≠ "impl" ++ header := by
    rintro rfl
    rw [head?_append (c := 'i') (by decide)] at h
    exact absurd h (by decide)
  have hclose : line ≠ "\x7d" := by
    rintro rfl
    exact absurd h (by decide)
  rw [hlines, List.mem_cons, List.mem_append, List.mem_singleton, or_iff_right hheader, or_iff_left hclose]

theorem mem_sizeLines_iff {size : Wire.Size} {line : String} : line ∈ sizeLines size ↔
    line = leastLine (min size.min maxSize) ∨ line = greatestOrNone size.max ∨
      (size.fixed = true ∧ size.min ≤ maxSize) ∧ line = exactLine size.min := by
  rw [sizeLines, List.mem_append, List.mem_cons, List.mem_singleton, or_assoc]
  by_cases h : size.fixed = true ∧ size.min ≤ maxSize
  · simp only [h, decide_true, Bool.and_self, if_true, List.mem_singleton, true_and]
  · have hfalse : (size.fixed && decide (size.min ≤ maxSize)) = false := by simpa using h
    simp only [hfalse, Bool.false_eq_true, if_false, List.not_mem_nil, h, false_and]

theorem greatestOrNone_cases (k : Option Int) :
    (∃ n, k = some n ∧ n ≤ maxSize ∧ greatestOrNone k = greatestLine n) ∨
      (∀ n ∈ k, maxSize < n) ∧ greatestOrNone k = noGreatestLine := by
  cases k with
  | none => exact .inr ⟨nofun, rfl⟩
  | some n =>
    by_cases hn : n ≤ maxSize
    · exact .inl ⟨n, rfl, hn, if_pos hn⟩
    · refine .inr ⟨fun m hm => ?_, if_neg hn⟩
      obtain rfl : n = m := Option.some.inj hm
      exact Int.not_le.mp hn

theorem ne_greatestOrNone {line : String} (h : ∀ n, greatestLine n ≠ line) (hnone : noGreatestLine ≠ line)
    (k : Option Int) : line ≠ greatestOrNone k := by
  rcases greatestOrNone_cases k with ⟨n, -, -, heq⟩ | ⟨-, heq⟩ <;> rw [heq]
  · exact (h n).symm
  · exact hnone.symm

theorem statesSize_render (naming : Naming) (n : String) (size : Wire.Size) :
    StatesSize size ((sizeTemplates naming n size).map render) where
  least k := by
    have hhead : (leastLine k).toList.head? = some 'p' := head?_append (by decide) _
    have hgreatest : leastLine k ≠ greatestOrNone size.max :=
      ne_greatestOrNone (greatestLine_ne_leastLine · k) (noGreatestLine_ne_leastLine k) _
    rw [mem_render_size_iff _ _ _ hhead, mem_sizeLines_iff, leastLine_inj, or_iff_right hgreatest,
      or_iff_left fun h => leastLine_ne_exactLine _ _ h.2]
  greatest k := by
    have hhead : (greatestLine k).toList.head? = some 'p' := head?_append (by decide) _
    rw [mem_render_size_iff _ _ _ hhead, mem_sizeLines_iff, or_iff_right (greatestLine_ne_leastLine _ _),
      or_iff_left fun h => greatestLine_ne_exactLine _ _ h.2]
    rcases greatestOrNone_cases size.max with ⟨m, hm, hle, heq⟩ | ⟨hlt, heq⟩
    · rw [heq, greatestLine_inj, hm, Option.some.injEq, eq_comm]
      exact ⟨fun h => ⟨h, h ▸ hle⟩, And.left⟩
    · rw [heq]
      exact iff_of_false (greatestLine_ne_noGreatestLine k) fun h => Int.not_le.mpr (hlt k h.1) h.2
  unstated := by
    have hhead : noGreatestLine.toList.head? = some 'p' := head?_append (by decide) _
    rw [mem_render_size_iff _ _ _ hhead, mem_sizeLines_iff, or_iff_right (noGreatestLine_ne_leastLine _),
      or_iff_left fun h => noGreatestLine_ne_exactLine _ h.2]
    rcases greatestOrNone_cases size.max with ⟨m, hm, hle, heq⟩ | ⟨hlt, heq⟩
    · rw [heq]
      exact iff_of_false (greatestLine_ne_noGreatestLine m).symm fun h => Int.not_lt.mpr hle (h m hm)
    · exact iff_of_true heq.symm hlt
  exact k := by
    have hhead : (exactLine k).toList.head? = some 'p' := head?_append (by decide) _
    have hgreatest : exactLine k ≠ greatestOrNone size.max :=
      ne_greatestOrNone (greatestLine_ne_exactLine · k) (noGreatestLine_ne_exactLine k) _
    rw [mem_render_size_iff _ _ _ hhead, mem_sizeLines_iff, or_iff_right (leastLine_ne_exactLine _ _).symm,
      or_iff_right hgreatest, exactLine_inj, and_assoc]
    exact and_congr_right fun _ => ⟨fun h => ⟨h.2, h.2 ▸ h.1⟩, fun h => ⟨h.1 ▸ h.2, h.1⟩⟩

/-! ### A module -/

/-- A line of the module with its template: its numbers are those of the template, and in range. -/
structure WritesNumbers (t : Template) (line : String) : Prop where
  written : ∃ k, line = indented k (render t)
  numbers : numbers line = t.filterMap Piece.number?
  fits : ∀ type n suffix, .number type n suffix ∈ t → type.Holds n ∧ (suffix = "" ∨ suffix = type.suffix)

theorem writesNumbers_of_sound {v : Vocabulary} (hv : v.Proper) {t : Template} (ht : Sound v t) (k : Nat) :
    WritesNumbers t (indented k (render t)) where
  written := ⟨k, rfl⟩
  numbers := (numbers_indented k _).trans (numbers_render hv ht)
  fits _ _ _ hp := ht.proper _ hp

/-- The numbers of a module are in range. Its lines are empty, or of its frame, or written for a definition; in the
frame there are comments, the support code, and what the settings ask for. -/
structure Module.FitsNumbers (m : Module) (s : Schema) : Prop where
  text : m.text = "\n".intercalate m.lines ++ "\n"
  lines : ∀ l ∈ m.lines, l = "" ∨ (∃ t ∈ frame m, ∃ k, l = indented k t) ∨ ∃ t ∈ templates s, WritesNumbers t l
  support : ∀ l ∈ supportLines, ∀ w ∈ supportNumbers l.toList, isSupportNumber w = true
  constants : ∀ c ∈ m.constants, Integer.i64.Holds c.2
  definitions : ∀ x ∈ s.types, InRange x.2
  sizes : ∀ i ∈ m.items, i.declaration.size = (Wire.SizeTable.ofSchema s).get i.declaration.name ∧
    StatesSize i.declaration.size i.declaration.sizeCode.texts

/-- Every number of a module is in the range of what it is written for, and sizes are stated as far as they fit. -/
theorem numbers_in_range {source : String} {s : Schema} (h : (Schema.analyzeText source).result = .ok s)
    (settings : Settings) (sourceName : String) : (Module.ofSchema s settings sourceName).FitsNumbers s := by
  have hwell := Schema.wellFormed_of_analyzeText h
  obtain ⟨spec, hspec, hs⟩ := Schema.analyzeText_eq_ok_iff.mp h
  refine ⟨Module.text_eq _, fun l hl => ?_, fun l hl w hw => ?_, fun c hc => ?_, fun x hx => ?_, fun i hi => ?_⟩
  · refine (exists_template_of_mem_lines h settings sourceName hl).imp_right (Or.imp_right ?_)
    rintro ⟨t, ht, k, rfl⟩
    obtain ⟨v, hv, hsound, -⟩ := exists_vocabulary h ht
    exact ⟨t, ht, writesNumbers_of_sound hv hsound k⟩
  · have hline := isSupportLine_of_mem l hl
    simp only [isSupportLine, Bool.and_eq_true, List.all_eq_true] at hline
    exact hline.1.1 w hw
  · exact (constant_of_mem hspec hs hc).2.2
  · exact inRange_of_analyze hspec hs ((lookup_eq_some_iff_of_nodup hwell.distinct).mpr hx)
  · obtain ⟨x, -, rfl⟩ := List.mem_map.mp hi
    refine ⟨rfl, ?_⟩
    rw [texts_size (Naming.ofSchema s) x.1 rfl rfl]
    exact statesSize_render _ _ _

/-- Arrays of arrays as long as they can be. -/
def nestedText : String :=
  "typedef int A[4294967295]; typedef A B[4294967295]; typedef B C<4294967295>; typedef B D[2];"

def nestedTypes : List (String × Definition) :=
  [("A", .typedef (.array (.primitive .int) 4294967295)),
    ("B", .typedef (.array (.named ⟨"A", .typedef⟩) 4294967295)),
    ("C", .typedef (.vector (.named ⟨"B", .typedef⟩) (some 4294967295))),
    ("D", .typedef (.array (.named ⟨"B", .typedef⟩) 2))]

def nestedSchema : Schema := Schema.withTypes nestedText nestedTypes

theorem analyzeText_nestedText : (Schema.analyzeText nestedText).result = .ok nestedSchema :=
  Schema.analyzeText_eq_ok (by decide +kernel)

/-- The least size of two such arrays is stated as the greatest number, and the exact one is not. -/
theorem numbers_in_range_nested : ∃ i ∈ (Module.ofSchema nestedSchema Settings.default "nested.x").items,
    i.declaration.name = "D" ∧ leastLine 0xffffffffffffffff ∈ i.declaration.sizeCode.texts ∧
      noGreatestLine ∈ i.declaration.sizeCode.texts ∧ ∀ n, exactLine n ∉ i.declaration.sizeCode.texts := by
  have hfits := numbers_in_range analyzeText_nestedText Settings.default "nested.x"
  have hsize : (Wire.SizeTable.ofSchema nestedSchema).get "D" =
      ⟨147573952520956936200, some 147573952520956936200, true⟩ := by decide +kernel
  have hmem : ("D", Definition.typedef (.array (.named ⟨"B", .typedef⟩) 2)) ∈ nestedSchema.types := by decide
  have hi := List.mem_map_of_mem (f := fun x => Item.ofDefinition (Naming.ofSchema nestedSchema) Settings.default
    (Wire.SizeTable.ofSchema nestedSchema) x.1 x.2) hmem
  obtain ⟨heq, hstates⟩ := hfits.sizes _ hi
  have heq := heq.trans hsize
  rw [heq] at hstates
  exact ⟨_, hi, rfl, (hstates.least _).mpr (by decide), hstates.unstated.mpr (by decide),
    fun n hn => absurd ((hstates.exact n).mp hn) (by rintro ⟨-, rfl, h⟩; exact absurd h (by decide))⟩

end XdrSchema.Rust
