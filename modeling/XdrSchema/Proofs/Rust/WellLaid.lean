import XdrSchema.Proofs.Order
import XdrSchema.Proofs.Rust.SupportText
import XdrSchema.Proofs.Rust.Tidy
import XdrSchema.Proofs.Settings.Form
import XdrSchema.Proofs.Text.Path

/-! The layout of a generated module. Its front, up to the support code or its import, closes what it opens, and what
follows is tidy code. Main statement: `well_laid_of_compile`. -/
namespace XdrSchema

namespace Rust

open Text (Rows isOutermost isBracket rows_nil rows_singleton)

/-- The lines of a text, without their line ends. -/
def rowsOf (l : String) : List (List Char) := l.toList.splitOn '\n'

theorem rowsOf_of_not_mem {l : String} (h : '\n' ∉ l.toList) : rowsOf l = [l.toList] := List.splitOn_eq_singleton h

theorem flatMap_rowsOf {ls : List String} (h : ∀ l ∈ ls, '\n' ∉ l.toList) :
    ls.flatMap rowsOf = ls.map String.toList := by
  induction ls with
  | nil => rfl
  | cons l ls ih =>
    rw [List.forall_mem_cons] at h
    rw [List.flatMap_cons, rowsOf_of_not_mem h.1, ih h.2]
    rfl

/-- Lines with line ends after them are the lines of their text; nothing follows the last line end. -/
theorem rowsOf_text {ls : List String} (h : ls ≠ []) :
    rowsOf ("\n".intercalate ls ++ "\n") = ls.flatMap rowsOf ++ [[]] := by
  have hend : "\n".toList = ['\n'] := rfl
  obtain ⟨l, rest, rfl⟩ := List.exists_cons_of_ne_nil h
  clear h
  induction rest generalizing l with
  | nil =>
    rw [rowsOf, String.intercalate_singleton, String.toList_append, hend, List.splitOn_append_cons_self,
      List.flatMap_singleton]
    rfl
  | cons m rest ih =>
    rw [rowsOf, String.intercalate_cons_cons, String.append_assoc, String.append_assoc, String.toList_append,
      String.toList_append, hend, List.singleton_append, List.splitOn_append_cons_self, List.flatMap_cons,
      List.append_assoc]
    exact congrArg _ (ih m)

/-! ### The front -/

/-- The first lines of a module, up to the support code or its import. -/
def Module.front (m : Module) : List String :=
  ["// Code generated by xdrc " ++ version ++ " from " ++ m.sourceName ++ ". DO NOT EDIT.",
    "#![allow(" ++ ", ".intercalate lints ++ ")]", ""] ++
    if m.support then supportLines else ["use " ++ m.supportPath ++ "::*;"]

/-- The code of the front. -/
def Module.frontCode (m : Module) : List Code :=
  [.line ("// Code generated by xdrc " ++ version ++ " from " ++ m.sourceName ++ ". DO NOT EDIT."),
    .line ("#![allow(" ++ ", ".intercalate lints ++ ")]"), .blank] ++
    if m.support then supportLines.map .line else [.line ("use " ++ m.supportPath ++ "::*;")]

/-- What follows the front. -/
def Module.rest (m : Module) : List Code :=
  [.blank] ++ m.constants.map (fun (name, n) => constantCode name n)
    ++ (if m.constants.isEmpty then [] else [.blank])
    ++ m.items.flatMap Item.code

theorem Module.code_eq (m : Module) : m.code = m.frontCode ++ m.rest := by
  rw [code, frontCode, rest]
  simp only [List.append_assoc]

/-- A text without brackets keeps nothing open, wherever its lines end. -/
theorem rows_of_no_brackets {t : String} (h : ∀ c ∈ t.toList, isBracket c = false) :
    Rows isOutermost [] (rowsOf t) [] :=
  Text.rows_of_plain (fun _ => rfl) fun _ hline _ hc => h _ (Text.mem_of_mem_splitOn hline hc)

theorem Spell.rows {texts : List String} {lines : List (List Char)} (h : Spell texts lines)
    (hlines : Rows isOutermost [] (lines.flatMap (·.splitOn '\n')) []) :
    Rows isOutermost [] (texts.flatMap rowsOf) [] := by
  have heq : texts.flatMap rowsOf = lines.flatMap (·.splitOn '\n') := by
    clear hlines
    induction h with
    | nil => rfl
    | cons _ ih => rw [List.flatMap_cons, List.flatMap_cons, ih, rowsOf, String.toList_ofList]
  rwa [heq]

/-- The support code closes what it opens, and each of its items begins with nothing open. -/
theorem rows_support : Rows isOutermost [] (supportLines.flatMap rowsOf) [] := by
  have hblank : Rows isOutermost [] ([""].flatMap rowsOf) [] := rows_singleton rfl rfl
  have hparts : ∀ part ∈ supportParts, Rows isOutermost [] (part.flatMap rowsOf) [] := by
    intro part hpart
    obtain ⟨lines, hspell, -, hlines⟩ := exists_spell_of_mem_parts part hpart
    exact hspell.rows hlines
  simp only [supportParts, List.forall_mem_cons] at hparts
  obtain ⟨herror, hcursor, htrait, hhelper, -⟩ := hparts
  simp only [supportLines, List.flatMap_append]
  exact (((((herror.append hblank).append hcursor).append hblank).append htrait).append hblank).append hhelper

theorem not_isBracket_of_isPath {text : List Char} (h : isPath text = true) : ∀ c ∈ text, isBracket c = false := by
  obtain ⟨path, hpath, htext⟩ := isPath_iff.mp h
  have hplain : ∀ c ∈ path, isBracket c = false := by
    intro c hc
    rcases hpath.mem c hc with rfl | hc
    · rfl
    · exact (plain_of_isWordChar (inIdentifier_iff.mp hc)).1
  rcases htext with rfl | rfl
  · exact hplain
  · exact List.forall_mem_append.mpr ⟨hplain, List.forall_mem_singleton.mpr rfl⟩

theorem rows_front {m : Module} (hname : ∀ c ∈ m.sourceName.toList, isBracket c = false)
    (hpath : isPath m.supportPath.toList = true) : Rows isOutermost [] (m.front.flatMap rowsOf) [] := by
  have hplain {t : List Char} (h : t.all (fun c => !isBracket c) = true) :
      ∀ c ∈ (String.ofList t).toList, isBracket c = false := by
    rw [String.toList_ofList]
    exact fun c hc => by simpa using List.all_eq_true.mp h c hc
  have hheader : Rows isOutermost [] (rowsOf ("// Code generated by xdrc " ++ version ++ " from " ++ m.sourceName ++
      ". DO NOT EDIT.")) [] := by
    refine rows_of_no_brackets ?_
    simp only [String.toList_append, List.forall_mem_append]
    exact ⟨⟨⟨⟨hplain rfl, hplain rfl⟩, hplain rfl⟩, hname⟩, hplain rfl⟩
  have hallow : Closed ("#![allow(" ++ ", ".intercalate lints ++ ")]") := by
    refine Turns.around (turns_fixed rfl rfl) (closed_intercalate (turns_fixed rfl rfl) ?_) (turns_fixed rfl rfl)
    simp only [lints, List.forall_mem_cons]
    exact ⟨turns_fixed rfl rfl, turns_fixed rfl rfl, turns_fixed rfl rfl, turns_fixed rfl rfl, List.forall_mem_nil _⟩
  have hallow' : Rows isOutermost [] (rowsOf ("#![allow(" ++ ", ".intercalate lints ++ ")]")) [] := by
    rw [rowsOf_of_not_mem hallow.line]
    exact rows_singleton rfl hallow.nest
  have hsupport : Rows isOutermost []
      ((if m.support then supportLines else ["use " ++ m.supportPath ++ "::*;"]).flatMap rowsOf) [] := by
    split
    · exact rows_support
    · rw [List.flatMap_singleton]
      refine rows_of_no_brackets ?_
      simp only [String.toList_append, List.forall_mem_append]
      exact ⟨⟨hplain rfl, not_isBracket_of_isPath hpath⟩, hplain rfl⟩
  have hblank : Rows isOutermost [] (rowsOf "") [] := rows_singleton rfl rfl
  rw [Module.front, List.flatMap_append]
  exact (hheader.append (hallow'.append (hblank.append rows_nil))).append hsupport

/-! ### Lines -/

namespace Source

theorem writeAll_append (s : Source) (cs cs' : List Code) : s.writeAll (cs ++ cs') = (s.writeAll cs).writeAll cs' := by
  induction cs generalizing s with
  | nil => rfl
  | cons c cs ih => rw [List.cons_append, writeAll, writeAll, ih]

/-- Outside of all blocks a line is not indented. -/
theorem line_of_closers {s : Source} (hs : s.closers = []) (t : String) : s.line t = s.push t := by
  unfold line
  split
  · next ht => rw [String.isEmpty_iff.mp ht]
  · rw [depth, hs]
    exact congrArg s.push String.empty_append

theorem lines_writeAll_line {s : Source} (hs : s.closers = []) (ts : List String) :
    (s.writeAll (ts.map .line)).lines = s.lines ++ ts := by
  induction ts generalizing s with
  | nil => exact (List.append_nil _).symm
  | cons t ts ih =>
    rw [List.map_cons, writeAll, write, ih (by rw [closers_line, hs]), line_of_closers hs, lines_push,
      List.append_assoc, List.singleton_append]

theorem blank_push (s : Source) {t : String} (ht : t.isEmpty = false) : (s.push t).blank = (s.push t).push "" := by
  unfold blank
  dsimp only [push]
  rw [ht]
  rfl

theorem lines_frontCode (m : Module) : (empty.writeAll m.frontCode).lines = m.front := by
  have hsupport : (if m.support then supportLines.map Code.line else [.line ("use " ++ m.supportPath ++ "::*;")]) =
      (if m.support then supportLines else ["use " ++ m.supportPath ++ "::*;"]).map .line := by
    split <;> rfl
  rw [Module.frontCode, Module.front, hsupport, writeAll_append, writeAll, writeAll, writeAll, writeAll, write, write,
    write, line_of_closers rfl, line_of_closers rfl, blank_push _ (by simp), lines_writeAll_line rfl]
  rfl

/-- Empty lines are dropped at the end, and no other ones. -/
theorem exists_lines_trimEnd {s : Source} {front ls : List String} (hlines : s.lines = front ++ ls)
    (hfront : ∀ l ∈ front.getLast?, l ≠ "") (hlaid : Laid [] ls []) :
    ∃ ls', s.trimEnd.lines = front ++ ls' ∧ Laid [] ls' [] ∧ ∀ l ∈ (front ++ ls').getLast?, l ≠ "" := by
  have htrim : s.trimEnd.lines = ((front ++ ls).reverse.dropWhile (·.isEmpty)).reverse := by
    rw [← hlines]
    change _ = (s.reversed.reverse.reverse.dropWhile _).reverse
    rw [List.reverse_reverse]
    rfl
  have hkept {ls' : List String} (h : ∀ l ∈ ls'.getLast?, l ≠ "") :
      (ls'.reverse.dropWhile (·.isEmpty)).reverse = ls' := by
    rcases List.eq_nil_or_concat ls' with rfl | ⟨init, l, rfl⟩
    · rfl
    · rw [List.concat_eq_append, List.getLast?_concat] at h
      rw [List.concat_eq_append, List.reverse_concat, List.dropWhile_cons_of_neg (by simpa using h l rfl),
        List.reverse_cons, List.reverse_reverse]
  rw [htrim]
  clear htrim hlines
  induction ls using List.reverseRecOn with
  | nil => exact ⟨[], by rw [List.append_nil, hkept hfront], laid_nil, by rwa [List.append_nil]⟩
  | append_singleton ls l ih =>
    by_cases hl : l = ""
    · subst hl
      rw [← List.append_assoc, List.reverse_concat, List.dropWhile_cons_of_pos rfl]
      obtain ⟨hrows, hwhole⟩ := hlaid
      rw [List.map_append, Text.rows_append] at hrows
      obtain ⟨opened, hrows, hlast⟩ := hrows
      obtain ⟨_, -, ⟨⟩, ⟨⟩⟩ := Text.rows_cons.mp hlast
      exact ih ⟨hrows, (List.forall_mem_append.mp hwhole).1⟩
    · have hlast : ∀ x ∈ (front ++ (ls ++ [l])).getLast?, x ≠ "" := by
        rw [← List.append_assoc, List.getLast?_concat]
        rintro x ⟨⟩
        exact hl
      exact ⟨ls ++ [l], hkept hlast, hlaid, hlast⟩

end Source

theorem exists_intercalate_concat (separator : String) (ls : List String) (l : String) :
    ∃ before, separator.intercalate (ls ++ [l]) = before ++ l := by
  induction ls with
  | nil => exact ⟨"", by simp⟩
  | cons t ls ih =>
    obtain ⟨before, hbefore⟩ := ih
    obtain ⟨u, rest, hrest⟩ := List.exists_cons_of_ne_nil (List.concat_ne_nil l ls)
    rw [hrest] at hbefore
    refine ⟨t ++ separator ++ before, ?_⟩
    rw [List.cons_append, hrest, String.intercalate_cons_cons, hbefore]
    simp only [String.append_assoc]

/-- A text ends in one line end after its last line, if that ends in none. -/
theorem ends_text {ls : List String} {l : String} {c : Char} (hl : l ∈ ls.getLast?) (hc : c ∈ l.toList.getLast?)
    (hline : c ≠ '\n') :
    ∃ (init : List Char) (c : Char), ("\n".intercalate ls ++ "\n").toList = init ++ [c, '\n'] ∧ c ≠ '\n' := by
  have hend : "\n".toList = ['\n'] := rfl
  obtain ⟨before, hbefore⟩ := exists_intercalate_concat "\n" ls.dropLast l
  rw [List.dropLast_append_getLast? l hl] at hbefore
  refine ⟨before.toList ++ l.toList.dropLast, c, ?_, hline⟩
  conv_lhs => rw [hbefore, String.toList_append, String.toList_append, hend, ← List.dropLast_append_getLast? c hc]
  simp

/-- The text of lines behind a front, the last of which is not empty, ends in one line end. -/
theorem ends_lines {front ls : List String} (hfront : ∃ l ∈ front.getLast?, ∃ c ∈ l.toList.getLast?, c ≠ '\n')
    (hwhole : ∀ l ∈ ls, '\n' ∉ l.toList) (hlast : ∀ l ∈ (front ++ ls).getLast?, l ≠ "") :
    ∃ (init : List Char) (c : Char),
      ("\n".intercalate (front ++ ls) ++ "\n").toList = init ++ [c, '\n'] ∧ c ≠ '\n' := by
  rcases List.eq_nil_or_concat ls with rfl | ⟨init, l, rfl⟩
  · obtain ⟨l, hl, c, hc, hline⟩ := hfront
    rw [List.append_nil]
    exact ends_text hl hc hline
  · rw [List.concat_eq_append, ← List.append_assoc] at hlast ⊢
    have hl : l ∈ (front ++ init ++ [l]).getLast? := List.getLast?_concat
    rcases List.eq_nil_or_concat l.toList with hnil | ⟨chars, c, hc⟩
    · exact absurd (String.toList_inj.mp hnil) (hlast l hl)
    · rw [List.concat_eq_append] at hc
      refine ends_text hl (c := c) (by rw [hc, List.getLast?_concat]; rfl) ?_
      rintro rfl
      exact hwhole l (by simp) (by simp [hc])

/-! ### A module -/

/-- A module whose brackets are nested and whose lines are indented. Nothing is open after its front, nor after any
piece of code behind that. -/
structure Module.WellLaid (m : Module) : Prop where
  text : Text.WellLaid (m.front.flatMap rowsOf) m.text.toList
  items : ∀ before after, m.rest = before ++ after → (Source.empty.writeAll (m.frontCode ++ before)).depth = 0 ∧
    Text.nest [] ((Source.empty.writeAll (m.frontCode ++ before)).lines.flatMap rowsOf).flatten = some []
  depth : (Source.empty.writeAll m.code).depth = 0

section Module

variable {source : String} {s : Schema} (h : (Schema.analyzeText source).result = .ok s) (settings : Settings)
  (sourceName : String)

include h

/-- The code behind the front is tidy, with the annotations that types have by default. -/
theorem tidy_rest (hannotations : ∀ n, settings.annotationsFor n = Settings.default.annotations) :
    TidyAll (Module.ofSchema s settings sourceName).rest := by
  have hwell := Schema.wellFormed_of_analyzeText h
  obtain ⟨spec, hspec, hs⟩ := Schema.analyzeText_eq_ok_iff.mp h
  have hattribute : ∀ a ∈ Settings.default.annotations, Begins (String.ofList (Text.trim a.toList)) [] := by
    have htrim : Text.trim "#[derive(Debug, Clone, PartialEq)]".toList =
        "#[derive(Debug, Clone, PartialEq)]".toList := by decide +kernel
    rw [Settings.default, List.forall_mem_singleton, htrim, String.ofList_toList]
    exact begins_fixed rfl rfl rfl
  simp only [Module.rest, tidyAll_append]
  refine ⟨⟨⟨tidyAll_singleton.mpr trivial, tidyAll_map fun c hc => ?_⟩, ?_⟩, tidyAll_flatMap
    (List.forall_mem_map.mpr fun x hx => ?_)⟩
  · exact tidy_constant (isWord_of_isName (constant_of_mem hspec hs hc).2.1) c.2
  · split
    · exact tidyAll_nil
    · exact tidyAll_singleton.mpr trivial
  · have hd := (lookup_eq_some_iff_of_nodup hwell.distinct).mpr hx
    refine tidy_item _ settings _ x.1 (proper_vocabulary hspec hs hd) (inRange_of_analyze hspec hs hd)
      (hwell.proper x.1 x.2 hd) ?_
    rw [hannotations]
    exact hattribute

end Module

/-- Code that is tidy is written behind the front with nothing open around it. -/
theorem exists_lines_of_tidy (m : Module) {cs : List Code} (h : TidyAll cs) :
    ∃ ls, (Source.empty.writeAll (m.frontCode ++ cs)).lines = m.front ++ ls ∧ Laid [] ls [] := by
  obtain ⟨ls, hls, hlaid⟩ := Source.exists_lines_writeAll (Source.empty.writeAll m.frontCode) cs h
  refine ⟨ls, by rw [Source.writeAll_append, hls, Source.lines_frontCode], hlaid [] ⟨?_, fun _ => rfl⟩⟩
  rw [Source.depth, Source.closers_writeAll]
  rfl

/-- The last line of the front ends in a bracket or a semicolon. -/
theorem exists_last_front (m : Module) :
    ∃ l ∈ m.front.getLast?, ∃ c ∈ l.toList.getLast?, c ≠ '\n' := by
  rw [Module.front]
  split
  · exact ⟨"\x7d", rfl, '\x7d', rfl, by decide⟩
  · refine ⟨"use " ++ m.supportPath ++ "::*;", rfl, ';', ?_, by decide⟩
    rw [String.toList_append, List.getLast?_append]
    rfl

theorem wellLaid_module {m : Module} (hname : ∀ c ∈ m.sourceName.toList, isBracket c = false)
    (hpath : isPath m.supportPath.toList = true) (hrest : TidyAll m.rest) : m.WellLaid := by
  have hfront := rows_front hname hpath
  have hdepth (cs : List Code) : (Source.empty.writeAll cs).depth = 0 := by
    rw [Source.depth, Source.closers_writeAll]
    rfl
  refine ⟨?_, fun before after hsplit => ⟨hdepth _, ?_⟩, hdepth _⟩
  · obtain ⟨ls, hls, hlaid⟩ := exists_lines_of_tidy m hrest
    obtain ⟨l, hl, c, hc, hline⟩ := exists_last_front m
    have hnonempty : ∀ x ∈ m.front.getLast?, x ≠ "" := by
      rintro x hx rfl
      cases hl.symm.trans hx
      cases hc
    obtain ⟨ls', hls', hlaid', hlast⟩ := Source.exists_lines_trimEnd hls hnonempty hlaid
    rw [← Module.code_eq] at hls'
    have hne : m.front ++ ls' ≠ [] := by simp [Module.front]
    have hrows : rowsOf m.text = m.front.flatMap rowsOf ++ (ls'.map String.toList ++ [[]]) := by
      rw [Module.text, Source.text, hls', rowsOf_text hne, List.flatMap_append, flatMap_rowsOf hlaid'.whole,
        List.append_assoc]
    refine Text.wellLaid_of_rows hrows hfront (hlaid'.rows.append (rows_singleton rfl rfl)) ?_
    rw [Module.text, Source.text, hls']
    exact ends_lines ⟨l, hl, c, hc, hline⟩ hlaid'.whole hlast
  · rw [hsplit, tidyAll_append] at hrest
    obtain ⟨ls, hls, hlaid⟩ := exists_lines_of_tidy m hrest.1
    rw [hls, List.flatMap_append, flatMap_rowsOf hlaid.whole, List.flatten_append]
    exact Text.nest_append_eq_some hfront.nest_flatten hlaid.rows.nest_flatten

end Rust

open Rust in
/-- The module that an accepted text is compiled to is laid out well. -/
theorem well_laid_of_compile {source filename text : String} {settings : Settings}
    (hfilename : ∀ c ∈ filename.toList, Text.isBracket c = false) (hpath : isPath settings.supportPath.toList = true)
    (hannotations : ∀ n, settings.annotationsFor n = Settings.default.annotations)
    (h : (compile source settings filename).result = .ok text) :
    ∃ s, (Schema.analyzeText source).result = .ok s ∧
      text = (Module.ofSchema s settings (Text.Path.parse filename).name).text ∧
      (Module.ofSchema s settings (Text.Path.parse filename).name).WellLaid := by
  obtain ⟨s, hs, -, htext⟩ := compile_eq_ok_iff.mp h
  refine ⟨s, hs, htext, wellLaid_module (fun c hc => ?_) hpath (tidy_rest hs settings _ hannotations)⟩
  exact hfilename c (Text.Path.mem_of_mem_name hc)

/-- Types have their default annotations, and the support code is imported. -/
def Settings.imported : Settings := ⟨default.annotations, [], false, "crate::xdr"⟩

open Rust in
theorem well_laid_sample :
    ∃ text, (compile Schema.sampleText Settings.imported "spec/sample.x").result = .ok text ∧
      (Module.ofSchema Schema.sampleSchema Settings.imported "sample.x").WellLaid := by
  have hnames : checkNames Schema.sampleSchema = .ok () := toOption_eq_some_iff.mp (by decide +kernel)
  have hcompile := (@compile_eq_ok_iff _ "spec/sample.x" _ Settings.imported).mpr
    ⟨Schema.sampleSchema, Schema.analyzeText_sampleText, hnames, rfl⟩
  have hplain : ("spec/sample.x".toList.all fun c => Text.isBracket c = false) = true := by decide +kernel
  obtain ⟨s, hs, -, hlaid⟩ := well_laid_of_compile (fun c hc => of_decide_eq_true (List.all_eq_true.mp hplain c hc))
    (by decide +kernel) (fun _ => rfl) hcompile
  cases Schema.analyzeText_sampleText.symm.trans hs
  exact ⟨_, hcompile, hlaid⟩

end XdrSchema
