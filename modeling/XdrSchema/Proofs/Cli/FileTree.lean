import XdrSchema.Cli.FileTree
import XdrSchema.Proofs.Chain
import XdrSchema.Proofs.Lookup

/-! Paths and files. A path that is written out leads where it led before. What is written to a file is read from
it afterwards, and all other files stay as they are. Main statements: `parse_text`, `read_of_write`. -/
namespace XdrSchema

/-! ### Paths -/

namespace Text.Path

theorem not_mem_of_mem_splitOn {c : Char} {text part : List Char} (h : part ∈ text.splitOn c) : c ∉ part := by
  induction text generalizing part with
  | nil =>
    rw [List.splitOn_nil, List.mem_singleton] at h
    rw [h]
    exact List.not_mem_nil
  | cons x text ih =>
    rw [List.splitOn_cons_eq_if_modifyHead] at h
    split at h
    · rcases List.mem_cons.mp h with rfl | h
      · exact List.not_mem_nil
      · exact ih h
    · next hne =>
      cases hsplit : text.splitOn c with
      | nil => exact absurd hsplit (List.splitOn_ne_nil c text)
      | cons first rest =>
        rw [hsplit, List.modifyHead_cons] at h
        rcases List.mem_cons.mp h with rfl | h
        · have hx : c ≠ x := fun heq => hne (by simp [heq])
          exact List.not_mem_cons_of_ne_of_not_mem hx (ih (by simp [hsplit]))
        · exact ih (by simp [hsplit, h])

/-- A component of a path: it means something, and there is no slash in it. -/
def IsPart (part : String) : Prop := part ≠ "" ∧ part ≠ "." ∧ '/' ∉ part.toList

theorem isPart_of_mem_parse {s part : String} (h : part ∈ (parse s).parts) : IsPart part := by
  obtain ⟨hmem, hpart⟩ := List.mem_filter.mp h
  obtain ⟨letters, hletters, rfl⟩ := List.mem_map.mp hmem
  have hslash : '/' ∉ (String.ofList letters).toList := by
    rw [String.toList_ofList]
    exact not_mem_of_mem_splitOn hletters
  simp only [Bool.and_eq_true, decide_eq_true_eq] at hpart
  exact ⟨hpart.1, hpart.2, hslash⟩

variable {parts : List String} (hparts : ∀ part ∈ parts, IsPart part)

include hparts

/-- The components of a row of them with slashes in between. -/
theorem parts_intercalate :
    ((List.splitOn '/' (['/'].intercalate (parts.map String.toList))).map String.ofList).filter
      (fun part => part ≠ "" && part ≠ ".") = parts := by
  cases parts with
  | nil => rfl
  | cons first rest =>
    have hslash : ∀ part ∈ (first :: rest).map String.toList, '/' ∉ part := by
      rw [List.forall_mem_map]
      exact fun part hpart => (hparts part hpart).2.2
    have hkept : ∀ part ∈ first :: rest, (part ≠ "" && part ≠ ".") = true := fun part hpart => by
      simp [(hparts part hpart).1, (hparts part hpart).2.1]
    have htexts : String.ofList ∘ String.toList = id := funext fun s => String.ofList_toList
    rw [List.splitOn_intercalate '/' hslash (by simp), List.map_map, htexts, List.map_id,
      List.filter_eq_self.mpr hkept]

/-- A row of components starts with no slash. -/
theorem takeWhile_intercalate :
    (['/'].intercalate (parts.map String.toList)).takeWhile (· = '/') = [] := by
  cases parts with
  | nil => rfl
  | cons first rest =>
    obtain ⟨hne, -, hslash⟩ := hparts first List.mem_cons_self
    obtain ⟨c, letters, hletters⟩ := List.exists_cons_of_ne_nil (fun h => hne (String.toList_eq_nil_iff.mp h))
    have hc : c ≠ '/' := by
      rintro rfl
      exact hslash (by simp [hletters])
    cases rest <;> simp [hletters, hc, List.intercalate]

omit hparts

/-- A path starts with slashes and goes on with a row of components. -/
theorem toList_text (p : Path) (h : p.root ≠ "" ∨ p.parts ≠ []) (hparts : ∀ part ∈ p.parts, IsPart part) :
    p.text.toList = p.root.toList ++ ['/'].intercalate (p.parts.map String.toList) := by
  have hrow : (p.root ++ "/".intercalate p.parts).toList =
      p.root.toList ++ ['/'].intercalate (p.parts.map String.toList) := by
    rw [String.toList_append, String.toList_intercalate]
    rfl
  have hne : (p.root ++ "/".intercalate p.parts).isEmpty = false := by
    rw [Bool.eq_false_iff, ne_eq, String.isEmpty_iff, ← String.toList_eq_nil_iff, hrow, List.append_eq_nil_iff]
    rintro ⟨hroot, hrest⟩
    have hroot : p.root = "" := String.toList_eq_nil_iff.mp hroot
    have hempty := parts_intercalate hparts
    rw [hrest] at hempty
    exact h.elim (fun h => h hroot) fun h => h hempty.symm
  rw [text, hne, ← hrow]
  rfl

/-- A path that is written out is read as the same path. -/
theorem parse_text (s : String) : parse (parse s).text = parse s := by
  have hparts : ∀ part ∈ (parse s).parts, IsPart part := fun _ => isPart_of_mem_parse
  have hroot : (parse s).root = "" ∨ (parse s).root = "/" ∨ (parse s).root = "//" := by
    rw [parse]
    dsimp only
    split
    · exact .inl rfl
    · split <;> simp
  generalize parse s = p at hparts hroot
  by_cases h : p.root ≠ "" ∨ p.parts ≠ []
  · have htext := toList_text p h hparts
    have hslashes := takeWhile_intercalate hparts
    have hrow := parts_intercalate hparts
    obtain ⟨root, parts⟩ := p
    dsimp only at hroot htext hslashes hrow
    rw [parse, htext]
    rcases hroot with rfl | rfl | rfl <;> simpa [hslashes, List.splitOn_cons_eq_if_modifyHead] using hrow
  · rw [not_or, not_not, not_not] at h
    obtain ⟨root, parts⟩ := p
    obtain ⟨rfl, rfl⟩ := h
    rfl

theorem name_parse_text (s : String) : (parse (parse s).text).name = (parse s).name := by
  rw [parse_text]

end Text.Path

/-! ### Files -/

namespace Cli.FileTree

open Text (Path)

variable {t : FileTree} {here place : List String} {parts : List String} {text text' : String}

/-! #### Places -/

theorem lookup_put_self : (t.put place text).files.lookup place = some text := by
  have hfiltered : (t.files.filter (·.1 ≠ place)).lookup place = none := by
    rw [List.lookup_eq_none_iff]
    intro f hf
    have hne : f.1 ≠ place := by simpa using (List.mem_filter.mp hf).2
    simpa using hne.symm
  rw [put, List.lookup_append, hfiltered]
  simp

theorem lookup_put_of_ne {other : List String} (h : other ≠ place) :
    (t.put place text).files.lookup other = t.files.lookup other := by
  have hlast : [(place, text)].lookup other = none := by simp [h]
  rw [put, List.lookup_append, hlast, Option.or_none]
  induction t.files with
  | nil => rfl
  | cons f files ih =>
    by_cases hf : f.1 = place
    · have hother : (other == f.1) = false := by simp [hf, h]
      rw [List.filter_cons_of_neg (by simp [hf]), ih, List.lookup_cons, hother]
    · rw [List.filter_cons_of_pos (by simp [hf]), List.lookup_cons, List.lookup_cons, ih]

theorem hasDirectory_put {other : List String} (h : t.hasDirectory other = true) :
    (t.put place text).hasDirectory other = true := by
  obtain ⟨f, hf, hinside⟩ := List.any_eq_true.mp h
  by_cases hplace : f.1 = place
  · exact List.any_eq_true.mpr ⟨(place, text), by simp [put], by rwa [← hplace]⟩
  · exact List.any_eq_true.mpr ⟨f, by simp [put, hf, hplace], hinside⟩

/-! #### Walks -/

/-- Where a text can be put. -/
def Found.place? : Found → Option (List String)
  | .file place _ | .absent place => some place
  | .directory => none

/-- A walk, step by step: out of a directory, into one, or to its end. -/
inductive Walks (t : FileTree) : List String → List String → Found → Prop
  | stay (here : List String) : Walks t here [] .directory
  | up {here rest : List String} {found : Found} (hhere : here ≠ []) (h : Walks t here.dropLast rest found) :
    Walks t here (".." :: rest) found
  | down {here rest : List String} {name : String} {found : Found} (hname : name ≠ "..")
    (hfile : t.files.lookup (here ++ [name]) = none) (hdirectory : t.hasDirectory (here ++ [name]) = true)
    (h : Walks t (here ++ [name]) rest found) : Walks t here (name :: rest) found
  | file {here : List String} {name text : String} (hname : name ≠ "..")
    (h : t.files.lookup (here ++ [name]) = some text) : Walks t here [name] (.file (here ++ [name]) text)
  | absent {here : List String} {name : String} (hname : name ≠ "..")
    (hfile : t.files.lookup (here ++ [name]) = none) (hdirectory : t.hasDirectory (here ++ [name]) = false) :
    Walks t here [name] (.absent (here ++ [name]))

theorem Walks.walk {found : Found} (h : Walks t here parts found) : t.walk here parts = .ok found := by
  induction h with
  | stay here => rfl
  | up hhere _ ih => rw [FileTree.walk, if_neg (by simpa using hhere), ih]
  | down hname hfile hdirectory _ ih =>
    rw [FileTree.walk.eq_3 _ _ _ _ hname, hfile]
    dsimp only
    rw [if_pos hdirectory, ih]
  | file hname h =>
    rw [FileTree.walk.eq_3 _ _ _ _ hname, h]
    rfl
  | absent hname hfile hdirectory =>
    rw [FileTree.walk.eq_3 _ _ _ _ hname, hfile]
    dsimp only
    rw [if_neg (by simp [hdirectory])]
    rfl

/-- What cannot be walked is not there. -/
theorem walks_or_absence (t : FileTree) (here parts : List String) :
    (∃ found, Walks t here parts found) ∨
      ∃ e, t.walk here parts = .error e ∧ (e = .notFound ∨ e = .notDirectory) := by
  induction parts generalizing here with
  | nil => exact .inl ⟨_, .stay here⟩
  | cons name rest ih =>
    by_cases hname : name = ".."
    · subst hname
      by_cases hhere : here = []
      · exact .inr ⟨.notFound, by rw [walk, if_pos (by simpa using hhere)]; rfl, .inl rfl⟩
      · rw [walk, if_neg (by simpa using hhere)]
        exact (ih here.dropLast).imp_left fun ⟨found, h⟩ => ⟨found, .up hhere h⟩
    · rw [walk.eq_3 _ _ _ _ hname]
      cases hfile : t.files.lookup (here ++ [name]) with
      | some text =>
        cases rest with
        | nil => exact .inl ⟨_, .file hname hfile⟩
        | cons next rest => exact .inr ⟨.notDirectory, rfl, .inr rfl⟩
      | none =>
        dsimp only
        by_cases hdirectory : t.hasDirectory (here ++ [name]) = true
        · rw [if_pos hdirectory]
          exact (ih (here ++ [name])).imp_left fun ⟨found, h⟩ => ⟨found, .down hname hfile hdirectory h⟩
        · rw [if_neg hdirectory]
          cases rest with
          | nil => exact .inl ⟨_, .absent hname hfile (by simpa using hdirectory)⟩
          | cons next rest => exact .inr ⟨.notFound, rfl, .inl rfl⟩

theorem walk_eq_ok_iff {found : Found} : t.walk here parts = .ok found ↔ Walks t here parts found := by
  refine ⟨fun h => ?_, Walks.walk⟩
  rcases walks_or_absence t here parts with ⟨found', hwalks⟩ | ⟨e, he, -⟩
  · cases h.symm.trans hwalks.walk
    exact hwalks
  · cases h.symm.trans he

/-- At a place for a text there is a file, or no directory. -/
theorem Walks.isSome_or {found : Found} (h : Walks t here parts found) (hplace : found.place? = some place) :
    (t.files.lookup place).isSome = true ∨ t.hasDirectory place = false := by
  induction h with
  | stay here => cases hplace
  | up _ _ ih => exact ih hplace
  | down _ _ _ _ ih => exact ih hplace
  | file _ h =>
    cases hplace
    exact .inl (by rw [h]; rfl)
  | absent _ _ hdirectory =>
    cases hplace
    exact .inr hdirectory

/-- The walk to where a text was put leads to this text. -/
theorem Walks.put {found : Found} (h : Walks t here parts found) (hplace : found.place? = some place)
    (text : String) : Walks (t.put place text) here parts (.file place text) := by
  have hfree := h.isSome_or hplace
  induction h with
  | stay here => cases hplace
  | up hhere _ ih => exact .up hhere (ih hplace)
  | down hname hfile hdirectory _ ih =>
    refine .down hname ?_ (hasDirectory_put hdirectory) (ih hplace)
    -- a directory on the way is not the place, so that no file takes it over
    rw [lookup_put_of_ne, hfile]
    rintro rfl
    simp [hfile, hdirectory] at hfree
  | file hname _ =>
    cases hplace
    exact .file hname lookup_put_self
  | absent hname _ _ =>
    cases hplace
    exact .file hname lookup_put_self

/-! #### Reading and writing -/

variable {path : String} {t' : FileTree}

/-- A path without a null character that does not start at the root. -/
theorem find_eq_ok_iff {found : Found} : t.find path = .ok found ↔
    '\x00' ∉ path.toList ∧ (Path.parse path).root = "" ∧ Walks t [] (Path.parse path).parts found := by
  unfold find
  dsimp only
  split
  · next hnull => exact iff_of_false (fun h => nomatch h) fun h => h.1 hnull
  · next hnull =>
    rw [and_iff_right hnull]
    split
    · next hroot => rw [walk_eq_ok_iff, and_iff_right (String.isEmpty_iff.mp hroot)]
    · next hroot => exact iff_of_false (fun h => nomatch h) fun h => hroot (String.isEmpty_iff.mpr h.1)

theorem find_eq_null_iff : t.find path = .error .nullCharacter ↔ '\x00' ∈ path.toList := by
  unfold find
  dsimp only
  split
  · next hnull => exact iff_of_true rfl hnull
  · next hnull =>
    refine iff_of_false (fun h => ?_) hnull
    split at h
    · rcases walks_or_absence t [] (Path.parse path).parts with ⟨found, hwalks⟩ | ⟨e', he', hmissing⟩
      · cases h.symm.trans hwalks.walk
      · cases h.symm.trans he'
        rcases hmissing with hmissing | hmissing <;> cases hmissing
    · cases h

theorem isAbsence_of_find {e : FileError} (h : t.find path = .error e) : e.isAbsence = true := by
  unfold find at h
  dsimp only at h
  split at h
  · cases h
    rfl
  · split at h
    · rcases walks_or_absence t [] (Path.parse path).parts with ⟨found, hwalks⟩ | ⟨e', he', hmissing⟩
      · cases h.symm.trans hwalks.walk
      · cases h.symm.trans he'
        rcases hmissing with rfl | rfl <;> rfl
    · cases h
      rfl

theorem write_eq_ok_iff : t.write path text = .ok t' ↔
    ∃ found place, t.find path = .ok found ∧ found.place? = some place ∧ t' = t.put place text := by
  rw [write, bind_eq_ok_iff]
  refine exists_congr fun found => ?_
  rw [exists_and_left]
  refine and_congr_right fun _ => ?_
  cases found with
  | directory =>
    refine iff_of_false (fun h => nomatch h) ?_
    rintro ⟨place, hplace, -⟩
    cases hplace
  | file place text' | absent place =>
    constructor
    · intro h
      cases h
      exact ⟨place, rfl, rfl⟩
    · rintro ⟨place, hplace, rfl⟩
      cases hplace
      rfl

/-- What was written to a file is read from it. -/
theorem read_of_write (h : t.write path text = .ok t') : t'.read path = .ok text := by
  obtain ⟨found, place, hfind, hplace, rfl⟩ := write_eq_ok_iff.mp h
  obtain ⟨hnull, hroot, hwalks⟩ := find_eq_ok_iff.mp hfind
  rw [read, find_eq_ok_iff.mpr ⟨hnull, hroot, hwalks.put hplace text⟩]
  rfl

/-- One file is written. -/
theorem exists_place_of_write (h : t.write path text = .ok t') : ∃ place, t'.files.lookup place = some text ∧
    ∀ other, other ≠ place → t'.files.lookup other = t.files.lookup other := by
  obtain ⟨found, place, -, -, rfl⟩ := write_eq_ok_iff.mp h
  exact ⟨place, lookup_put_self, fun other hother => lookup_put_of_ne hother⟩

/-- What is there can be read, unless it is a directory. -/
theorem read_eq_error_iff {e : FileError} : t.read path = .error e ∧ e.isAbsence = false ↔
    t.find path = .ok .directory ∧ e = .isDirectory := by
  constructor
  · rintro ⟨h, habsence⟩
    cases hfind : t.find path with
    | error e' =>
      rw [read, hfind] at h
      cases h
      rw [isAbsence_of_find hfind] at habsence
      cases habsence
    | ok found =>
      rw [read, hfind] at h
      cases found with
      | file place text => cases h
      | directory =>
        cases h
        exact ⟨rfl, rfl⟩
      | absent place =>
        cases h
        cases habsence
  · rintro ⟨hfind, rfl⟩
    rw [read, hfind]
    exact ⟨rfl, rfl⟩

theorem read_eq_null_iff : t.read path = .error .nullCharacter ↔ '\x00' ∈ path.toList := by
  rw [← find_eq_null_iff (t := t), read]
  cases t.find path with
  | error e => constructor <;> rintro ⟨⟩ <;> rfl
  | ok found => cases found <;> exact iff_of_false (fun h => nomatch h) nofun

theorem write_eq_null_iff : t.write path text = .error .nullCharacter ↔ '\x00' ∈ path.toList := by
  rw [← find_eq_null_iff (t := t), write]
  cases t.find path with
  | error e => constructor <;> rintro ⟨⟩ <;> rfl
  | ok found => cases found <;> exact iff_of_false (fun h => nomatch h) nofun

end Cli.FileTree

end XdrSchema
