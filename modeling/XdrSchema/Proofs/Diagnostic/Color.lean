import XdrSchema.Proofs.Diagnostic.Snippet
import XdrSchema.Proofs.Text.Escape
import XdrSchema.Proofs.Text.Path

/-! Colours of a report. What is tinted stands between escape sequences, and nothing else in a report does, as long
as there is no escape character in what is reported. Main statement: `withoutSequences_format`. -/
namespace XdrSchema.Report

open Text (escape withoutSequences withoutSequences_append withoutSequences_rendition)

/-! ### Tinted text -/

namespace Segment

/-- What a part of a report says. -/
def content : Segment → String
  | plain text => text
  | tinted _ text => text

end Segment

theorem isParameter_code (t : Tint) : ∀ d ∈ t.code.toList, Text.isParameter d = true :=
  List.all_eq_true.mp (by cases t <;> rfl)

theorem withoutSequences_escape (t : Tint) (rest : List Char) :
    withoutSequences (t.escape.toList ++ rest) = withoutSequences rest := by
  have htext : t.escape.toList ++ rest = escape :: '[' :: (t.code.toList ++ 'm' :: rest) := by
    simp [Tint.escape, escape]
  rw [htext, withoutSequences_rendition (isParameter_code t)]

theorem withoutSequences_escapes (tints : List Tint) (rest : List Char) :
    withoutSequences ((String.join (tints.map Tint.escape)).toList ++ rest) = withoutSequences rest := by
  induction tints with
  | nil => rfl
  | cons t tints ih =>
    rw [List.map_cons, String.join_cons, String.toList_append, List.append_assoc, withoutSequences_escape, ih]

theorem withoutSequences_reset (rest : List Char) :
    withoutSequences ("\x1b[0m".toList ++ rest) = withoutSequences rest := by
  change withoutSequences (escape :: '[' :: (['0'] ++ 'm' :: rest)) = _
  exact withoutSequences_rendition (List.all_eq_true.mp rfl)

theorem withoutSequences_segment {x : Segment} (h : escape ∉ x.content.toList) (rest : List Char) :
    withoutSequences ((x.text true).toList ++ rest) = (x.text false).toList ++ withoutSequences rest := by
  cases x with
  | plain text => exact withoutSequences_append h
  | tinted tints text =>
    have htext : escape ∉ text.toList := h
    change withoutSequences ((String.join (tints.map Tint.escape) ++ text ++ "\x1b[0m").toList ++ rest) = _
    rw [String.toList_append, String.toList_append, List.append_assoc, List.append_assoc, withoutSequences_escapes,
      withoutSequences_append htext, withoutSequences_reset]
    rfl

/-! ### Lines -/

/-- No part of a line has an escape character of its own. -/
def Unescaped (line : List Segment) : Prop := ∀ x ∈ line, escape ∉ x.content.toList

theorem unescaped_cons {x : Segment} {line : List Segment} :
    Unescaped (x :: line) ↔ escape ∉ x.content.toList ∧ Unescaped line := List.forall_mem_cons

theorem withoutSequences_line {line : List Segment} (h : Unescaped line) (rest : List Char) :
    withoutSequences ((lineText true line).toList ++ rest) = (lineText false line).toList ++ withoutSequences rest := by
  induction line with
  | nil => rfl
  | cons x line ih =>
    obtain ⟨hx, hline⟩ := List.forall_mem_cons.mp h
    rw [lineText_cons, lineText_cons, String.toList_append, String.toList_append, List.append_assoc, List.append_assoc,
      withoutSequences_segment hx, ih hline]

theorem withoutSequences_lines {shown : List (List Segment)} (h : ∀ line ∈ shown, Unescaped line) :
    withoutSequences ("\n".intercalate (shown.map (lineText true))).toList =
      ("\n".intercalate (shown.map (lineText false))).toList := by
  induction shown with
  | nil => simp
  | cons line shown ih =>
    obtain ⟨hline, hshown⟩ := List.forall_mem_cons.mp h
    cases shown with
    | nil =>
      have hlast := withoutSequences_line hline []
      rw [List.append_nil] at hlast
      simpa using hlast
    | cons next shown =>
      have hnewline (rest : List Char) :
          withoutSequences ("\n".toList ++ rest) = "\n".toList ++ withoutSequences rest :=
        withoutSequences_append (by decide)
      rw [List.map_cons, List.map_cons, List.map_cons, List.map_cons, String.intercalate_cons_cons,
        String.intercalate_cons_cons, String.toList_append, String.toList_append, String.toList_append,
        String.toList_append, List.append_assoc, List.append_assoc, withoutSequences_line hline, hnewline]
      exact congrArg _ (congrArg _ (ih hshown))

/-! ### Reports -/

theorem unescaped_append {a b : String} :
    escape ∉ (a ++ b).toList ↔ escape ∉ a.toList ∧ escape ∉ b.toList := by
  rw [String.toList_append, List.mem_append, not_or]

theorem unescaped_int (n : Int) : escape ∉ (toString n).toList := by
  have hdigits (k : Nat) : escape ∉ k.repr.toList := fun h => absurd (isDigit_of_mem_repr h) (by decide)
  rw [Int.toString_eq_repr, Int.repr_eq_if]
  split
  · exact hdigits _
  · exact unescaped_append.mpr ⟨by decide, hdigits _⟩

theorem unescaped_replicate {c : Char} (hc : escape ≠ c) (n : Nat) :
    escape ∉ (String.ofList (List.replicate n c)).toList := by
  rw [String.toList_ofList]
  exact fun h => hc (List.eq_of_mem_replicate h)

theorem unescaped_alignRight {text : String} (h : escape ∉ text.toList) (width : Nat) :
    escape ∉ (alignRight width text).toList :=
  unescaped_append.mpr ⟨unescaped_replicate (by decide) _, h⟩

theorem mem_of_lineAt? {lines : List (List Char)} {s : Span} {line : List Char} (h : lineAt? lines s = some line) :
    line ∈ lines := by
  rw [lineAt?, Option.ite_none_right_eq_some] at h
  exact List.mem_of_getElem? h.2

section

variable {name : String} {d : Diagnostic} (hname : escape ∉ name.toList) (hcode : escape ∉ d.code.toList)
  (hmessage : escape ∉ d.message.toList)

include hname hcode hmessage

theorem unescaped_head : Unescaped (head name d) := by
  have hplace (s : Span) : escape ∉ (name ++ ":" ++ s.label).toList := by
    change escape ∉ (name ++ ":" ++ (toString s.line ++ ":" ++ toString s.column)).toList
    simp only [unescaped_append]
    exact ⟨⟨hname, by decide⟩, ⟨unescaped_int _, by decide⟩, unescaped_int _⟩
  have hseverity : escape ∉ d.severity.text.toList := by
    cases d.severity <;> decide
  have hsentence : escape ∉ (sentence d.message).toList := by
    unfold sentence
    split
    · exact hmessage
    · exact unescaped_append.mpr ⟨hmessage, by decide⟩
  unfold head
  simp only [unescaped_cons, Segment.content, unescaped_append]
  refine ⟨?_, by decide, hseverity, by decide, hcode, ⟨by decide, hsentence⟩, List.forall_mem_nil _⟩
  split
  · exact hplace _
  · exact hname

theorem unescaped_display {lines : List (List Char)} (hlines : ∀ line ∈ lines, escape ∉ line) (unicode : Bool) :
    ∀ line ∈ display unicode name lines d, Unescaped line := by
  have hhead := unescaped_head hname hcode hmessage
  have hend : Unescaped [] := List.forall_mem_nil _
  unfold display
  dsimp only
  split
  · exact List.forall_mem_singleton.mpr hhead
  · next s line hshown =>
    have hline : escape ∉ (String.ofList line).toList := by
      obtain ⟨_, -, hat⟩ := Option.bind_eq_some_iff.mp hshown
      obtain ⟨_, hat, ⟨⟩⟩ := Option.map_eq_some_iff.mp hat
      rw [String.toList_ofList]
      exact hlines _ (mem_of_lineAt? hat)
    have hindent := unescaped_replicate (c := ' ') (by decide) (max 1 s.column - 1).toNat
    have hmark {c : Char} (hc : escape ≠ c) := unescaped_replicate hc (markWidth s line)
    have hnumber := unescaped_alignRight (unescaped_int s.line)
    split
    · rw [List.forall_mem_cons, unescaped_cons]
      simp only [List.forall_mem_cons, unescaped_cons, Segment.content, unescaped_append]
      exact ⟨⟨by decide, hhead⟩, ⟨⟨hnumber 3, by decide⟩, ⟨by decide, hline⟩, hend⟩,
        ⟨by decide, ⟨by decide, hindent⟩, hmark (by decide), hend⟩, ⟨by decide, hend⟩, List.forall_mem_nil _⟩
    · rw [List.forall_mem_cons]
      simp only [List.forall_mem_cons, unescaped_cons, Segment.content, unescaped_append]
      exact ⟨hhead, ⟨⟨⟨hnumber 4, by decide⟩, hline⟩, hend⟩, ⟨⟨by decide, hindent⟩, hmark (by decide), hend⟩,
        List.forall_mem_nil _⟩

end

/-- Colours change nothing but colour: a report in colours, without its escape sequences, is the one without colours. -/
theorem withoutSequences_format (r : Report) (unicode : Bool) (hsource : ∀ s ∈ r.source, escape ∉ s.toList)
    (hfilename : escape ∉ r.filename.toList)
    (hitems : ∀ d ∈ r.items, escape ∉ d.code.toList ∧ escape ∉ d.message.toList) :
    withoutSequences (r.format ⟨true, unicode⟩).toList = (r.format ⟨false, unicode⟩).toList := by
  have hname : escape ∉ (Text.Path.parse r.filename).display.toList := by
    intro h
    rcases Text.Path.mem_of_mem_display h with h | h | h
    · exact hfilename h
    · cases h
    · cases h
  have hlines : ∀ line ∈ Text.lines (r.source.getD "").toList, escape ∉ line := by
    intro line hline hescape
    have hmem := Text.mem_of_mem_lines hline hescape
    cases hr : r.source with
    | none =>
      rw [hr] at hmem
      cases hmem
    | some s =>
      rw [hr] at hmem
      exact hsource s hr hmem
  refine withoutSequences_lines fun line hline => ?_
  obtain ⟨d, hd, hline⟩ := List.mem_flatMap.mp hline
  exact unescaped_display hname (hitems d hd).1 (hitems d hd).2 hlines unicode line hline

/-- An error in a line that has text around it, a warning without a place, and one behind the last line. -/
def sampleReport : Report :=
  ⟨some "const A = 1;\n  const B = C; // the sum\n", "spec/../a.x",
    [⟨.error, "XE2001", "undefined reference 'C'", some ⟨2, 13, 2, 14⟩⟩,
      ⟨.warning, "XW2002", "spec declares no types.", none⟩, ⟨.warning, "XW2001", "not covered", some ⟨9, 1, 9, 4⟩⟩]⟩

theorem withoutSequences_format_sample :
    (∀ s ∈ sampleReport.source, escape ∉ s.toList) ∧ escape ∉ sampleReport.filename.toList ∧
      (∀ d ∈ sampleReport.items, escape ∉ d.code.toList ∧ escape ∉ d.message.toList) ∧
      (∀ unicode, sampleReport.format ⟨true, unicode⟩ ≠ sampleReport.format ⟨false, unicode⟩ ∧
        withoutSequences (sampleReport.format ⟨true, unicode⟩).toList =
          (sampleReport.format ⟨false, unicode⟩).toList) := by
  have hsource : ∀ s ∈ sampleReport.source, escape ∉ s.toList := by decide +kernel
  have hfilename : escape ∉ sampleReport.filename.toList := by decide +kernel
  have hitems : ∀ d ∈ sampleReport.items, escape ∉ d.code.toList ∧ escape ∉ d.message.toList := by decide +kernel
  refine ⟨hsource, hfilename, hitems, fun unicode => ⟨?_, ?_⟩⟩
  · revert unicode
    decide +kernel
  · exact withoutSequences_format sampleReport unicode hsource hfilename hitems

end XdrSchema.Report
