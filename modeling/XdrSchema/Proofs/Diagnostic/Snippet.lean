import XdrSchema.Compile
import XdrSchema.Proofs.Schema.Placed
import XdrSchema.Proofs.Text.Lines

/-! What a report shows of a place: a display line and, below it, marks from the column of the place on. The places
of what is reported are found in the text, but positions and display lines are numbered alike only as long as lines
end at line feeds. Main statements: `placed_diagnostics`, `Report.shows_line`. -/
namespace XdrSchema

variable {P : Span → Prop}

/-! ### The generated module -/

namespace Rust

theorem failsAt_checkInner (name : String) {span : Option Span} (h : ∀ s ∈ span, P s) :
    FailsWith (SpecError.Placed P) (checkInner name span) := by
  unfold checkInner
  split
  · exact failsWith_error h
  · exact failsWith_ok ()

theorem failsAt_checkItem (name : String) {span : Option Span} (h : ∀ s ∈ span, P s) :
    FailsWith (SpecError.Placed P) (checkItem name span) := by
  unfold checkItem
  split
  · exact failsWith_error h
  · split
    · exact failsWith_error h
    · split
      · exact failsWith_error h
      · exact failsWith_ok ()

theorem failsAt_checkVariants (d : Option Schema.Definition) {span : Option Span} (h : ∀ s ∈ span, P s) :
    FailsWith (SpecError.Placed P) (match d with
      | some (.union u) => u.allArms.forM fun a => checkInner a.variant span
      | _ => return ()) := by
  split
  · exact failsWith_forM fun a _ => failsAt_checkInner a.variant h
  · exact failsWith_ok ()

theorem failsAt_checkType (s : Schema) {x : Symbol} (h : x.Placed P) :
    FailsWith (SpecError.Placed P) (checkType s x) := by
  unfold checkType
  cases htype : x.type? with
  | none => exact failsWith_ok ()
  | some y =>
    obtain ⟨k, d⟩ := y
    have hd := h.type _ htype
    have hvariants := failsAt_checkVariants (s.definition? x.name) h.span
    refine (failsAt_checkItem x.name h.span).bind fun _ _ => ?_
    obtain ⟨name, body, span, nameSpan⟩ := d
    cases body with
    | struct fields =>
      refine (failsWith_forM fun f hf => failsAt_checkInner f.name ?_).bind fun _ _ => hvariants
      rintro _ ⟨⟩
      exact (hd.child (List.mem_map_of_mem hf)).written (x := (f.name, f.nameSpan)) rfl
    | _ => exact hvariants

theorem failsAt_checkValue {x : Symbol} (h : x.Placed P) : FailsWith (SpecError.Placed P) (checkValue x) := by
  unfold checkValue
  split
  · exact failsAt_checkInner x.name h.span
  · exact failsAt_checkItem x.name h.span
  · exact failsWith_ok ()

/-- What cannot be generated is told at a place of the specification. -/
theorem failsAt_generate {s : Schema} (h : ∀ x ∈ s.symbols, x.Placed P) (settings : Settings) (sourceName : String) :
    FailsWith (SpecError.Placed P) (generate s settings sourceName) := by
  have htypes := failsWith_forM fun x hx => failsAt_checkType s (h x hx)
  have hvalues := failsWith_forM fun x hx => failsAt_checkValue (h x hx)
  exact (htypes.bind fun _ _ => hvalues).bind fun _ _ => failsWith_ok _

end Rust

/-! ### A whole run -/

/-- Whatever there is to report on a text is at places that start with its tokens, or where it breaks the grammar. -/
theorem placed_diagnostics {source : String} {settings : Settings} {filename : String}
    (hstarts : ∀ ts, Concrete.Splits .start source.toList ts → Concrete.Starts P ts)
    (hstuck : ∀ f p, Concrete.Stuck source.toList f p → P (.point p)) :
    ∀ d ∈ (compile source settings filename).diagnostics, ∀ s ∈ d.span, P s := by
  have hresult : (∀ w ∈ (Schema.analyzeText source).warnings, ∀ s ∈ w.span, P s) ∧
      FailsWith (SpecError.Placed P) (compile source settings filename).result := by
    unfold compile Schema.analyzeText
    cases hspec : Spec.parse source with
    | error e => exact ⟨nofun, failsWith_error (Spec.placed_of_parse_error hspec hstarts hstuck)⟩
    | ok spec =>
      have hplaced := Spec.placed_of_parse hspec hstarts
      obtain ⟨hwarnings, hfails⟩ := Schema.placed_analyze hplaced
      refine ⟨hwarnings, hfails.bind fun s hs => Rust.failsAt_generate (fun x hx => ?_) settings _⟩
      exact Symbol.placed_ofSpec hplaced x (Schema.symbols_of_analyze hs ▸ hx)
  obtain ⟨hwarnings, hfails⟩ := hresult
  have hwarnings : ∀ w ∈ (compile source settings filename).warnings, ∀ s ∈ w.span, P s := hwarnings
  unfold Compilation.diagnostics
  split
  · next e he => exact List.forall_mem_append.mpr ⟨hwarnings, List.forall_mem_singleton.mpr (hfails e he)⟩
  · exact hwarnings

/-! ### Where places begin -/

/-- The place begins at a character of the text that is no blank. -/
def Span.StartsIn (cs : List Char) (s : Span) : Prop :=
  ∃ front c rest, cs = front ++ c :: rest ∧ Concrete.isGapChar c = false ∧
    s.head = Span.point (Position.start.afterAll front)

namespace Concrete

theorem Stands.startsIn {cs front rest : List Char} {t : Token} (h : Stands .start cs front t rest) (s : Span) :
    (t.span.cover s).StartsIn cs := by
  obtain ⟨c, chars, hchars, hstep⟩ := step_of_spelled h.spelled h.ends
  refine ⟨front, c, chars ++ rest, ?_, ?_, head_span_of_stands h⟩
  · rw [h.text_eq, hchars]
    rfl
  · refine Bool.eq_false_iff.mpr fun hc => ?_
    unfold step at hstep
    rw [if_pos hc] at hstep
    cases hstep

theorem Stands.startsIn_point {cs front rest : List Char} {t : Token} (h : Stands .start cs front t rest) :
    (Span.point (Position.start.afterAll front)).StartsIn cs := by
  rw [← head_span_of_stands h]
  exact h.startsIn t.span.head

theorem Stuck.startsIn {cs : List Char} {f : SyntaxFault} {p : Position} (h : Stuck cs f p) :
    (Span.point p).StartsIn cs := by
  cases h with
  | token expected ht => exact ht.startsIn_point
  | character heq hillegal =>
    refine ⟨_, _, _, heq, Bool.eq_false_iff.mpr fun hc => ?_, rfl⟩
    exact hillegal.not_gap [_] _ rfl (.blank (List.cons_ne_nil _ _) (List.forall_mem_singleton.mpr hc))
  | endOfInput expected hlast => exact hlast.startsIn_point

theorem Splits.starts {cs : List Char} {ts : List Token} (h : Splits .start cs ts) : Starts (Span.StartsIn cs) ts := by
  intro t ht s
  obtain ⟨before, after, rfl⟩ := List.append_of_mem ht
  obtain ⟨front, rest, hstands, -⟩ := h.stands
  exact hstands.startsIn s

end Concrete

/-- The line that a place begins in, and its column there. -/
theorem Span.StartsIn.exists_line {cs : List Char} {s : Span} (h : s.StartsIn cs) :
    ∃ (k : Nat) (line before after : List Char) (c : Char), s.line = k + 1 ∧ (cs.splitOn '\n')[k]? = some line ∧
      Text.withoutReturn line = before ++ c :: after ∧ Concrete.isGapChar c = false ∧ s.column = before.length + 1 := by
  obtain ⟨front, c, rest, rfl, hc, hhead⟩ := h
  have hline : c ≠ '\n' := by
    rintro rfl
    cases hc
  have hreturn : c ≠ '\r' := by
    rintro rfl
    cases hc
  obtain ⟨k, before, after, hplace, hsplit⟩ := Text.exists_line_at hline front rest 1
  obtain ⟨after', hafter⟩ := Text.exists_withoutReturn hreturn before after
  have hstart : Position.start.afterAll front = ⟨1 + k, before.length + 1⟩ := hplace
  rw [hstart] at hhead
  obtain ⟨hrow, hcolumn, -⟩ := Span.mk.inj hhead
  refine ⟨k, _, before, after', c, ?_, hsplit, hafter, hc, hcolumn⟩
  rw [hrow, Nat.add_comm]
  rfl

/-! ### The lines of a report -/

namespace Report

namespace Style

variable (style : Style)

def gray (text : String) : String := (Segment.tinted [.gray] text).text style.color

/-- What stands before the head of a diagnostic. -/
def opening : String := if style.unicode then style.gray "  ╭─ " else ""

/-- What stands before a line: its number, in three or four columns if they are enough. -/
def gutter (number : String) : String :=
  if style.unicode then style.gray (alignRight 3 number ++ " │") ++ " " else alignRight 4 number ++ " | "

/-- What stands before the marks. -/
def margin : String := if style.unicode then style.gray "    │" ++ " " else "     | "

def marks (severity : Diagnostic.Severity) (width : Nat) : String :=
  (Segment.tinted [tint severity]
    (String.ofList (List.replicate width (if style.unicode then '━' else '^')))).text style.color

/-- What stands below the marks. -/
def closing : List String := if style.unicode then [style.gray "    ╰─"] else []

end Style

def spaces (n : Nat) : String := String.ofList (List.replicate n ' ')

/-- In the report, `line` stands below the head of the diagnostic, and below that, from the column of the place on,
stand marks: for the columns that the place covers, if it covers any on that line alone. They stand under what they
mark unless the number of the line takes up too many columns. -/
def Shows (r : Report) (style : Style) (d : Diagnostic) (s : Span) (line : List Char) : Prop :=
  ∃ (before after : List String) (width : Nat),
    r.format style = "\n".intercalate (before ++
      (style.opening ++ lineText style.color (head (Text.Path.parse r.filename).display d)) ::
      (style.gutter (toString s.line) ++ String.ofList line) ::
      (style.margin ++ spaces (s.column - 1).toNat ++ style.marks d.severity width) :: after) ∧
    (style.gutter (toString s.line)).length =
      style.margin.length + ((toString s.line).length - if style.unicode then 3 else 4) ∧
    0 < width ∧ (s.endLine = s.line → s.column < s.endColumn → s.column + width = s.endColumn)

theorem markWidth_pos (s : Span) (line : List Char) : 0 < markWidth s line := by
  unfold markWidth
  split
  · next h =>
    simp only [Bool.and_eq_true, decide_eq_true_eq] at h
    omega
  · omega

theorem add_markWidth {s : Span} (hline : s.endLine = s.line) (hcolumn : s.column < s.endColumn) (line : List Char) :
    s.column + markWidth s line = s.endColumn := by
  unfold markWidth
  rw [if_pos (by simp [hline, hcolumn])]
  omega

theorem length_alignRight (width : Nat) (text : String) :
    (alignRight width text).length = width + (text.length - width) := by
  unfold alignRight
  rw [String.length_append, String.length_ofList, List.length_replicate]
  omega

/-- A text in gray is longer by its escapes, whatever it says. -/
theorem length_gray (style : Style) (text : String) :
    (style.gray text).length = (style.gray "").length + text.length := by
  obtain ⟨color, unicode⟩ := style
  cases color with
  | true =>
    change (String.join [Tint.gray.escape] ++ text ++ "\x1b[0m").length =
      (String.join [Tint.gray.escape] ++ "" ++ "\x1b[0m").length + text.length
    rw [String.length_append, String.length_append, String.length_append, String.length_append, String.length_empty]
    omega
  | false => exact (Nat.zero_add text.length).symm

theorem length_gutter (style : Style) (number : String) : (style.gutter number).length =
    style.margin.length + (number.length - if style.unicode then 3 else 4) := by
  unfold Style.gutter Style.margin
  split
  · rw [String.length_append, String.length_append, length_gray, length_gray style "    │", String.length_append,
      length_alignRight]
    have hedge : " │".length = 2 := rfl
    have hmargin : "    │".length = 5 := rfl
    omega
  · rw [String.length_append, length_alignRight]
    have hedge : " | ".length = 3 := rfl
    have hmargin : "     | ".length = 7 := rfl
    omega

theorem lineText_cons (color : Bool) (x : Segment) (xs : List Segment) :
    lineText color (x :: xs) = x.text color ++ lineText color xs := by
  simp [lineText, String.join_cons]

section

variable {r : Report} {d : Diagnostic} {s : Span} {line : List Char} {lines : List (List Char)}

/-- The lines that show a diagnostic are among those of the report. -/
theorem exists_format (hd : d ∈ r.items) (style : Style) : ∃ before after, r.format style = "\n".intercalate (before ++
    ((display style.unicode (Text.Path.parse r.filename).display (Text.lines (r.source.getD "").toList) d).map
      (lineText style.color) ++ after)) := by
  obtain ⟨first, others, hitems⟩ := List.append_of_mem hd
  unfold format
  dsimp only
  rw [hitems, List.flatMap_append, List.flatMap_cons, List.map_append, List.map_append]
  exact ⟨_, _, rfl⟩

theorem map_lineText_display (hs : d.span = some s) (hline : lineAt? lines s = some line) (hcolumn : 1 ≤ s.column)
    (style : Style) (name : String) : (display style.unicode name lines d).map (lineText style.color) =
      (style.opening ++ lineText style.color (head name d)) :: (style.gutter (toString s.line) ++ String.ofList line) ::
        (style.margin ++ spaces (s.column - 1).toNat ++ style.marks d.severity (markWidth s line)) ::
          style.closing := by
  have hshown : (d.span.bind fun s => (lineAt? lines s).map fun line => (s, line)) = some (s, line) := by
    rw [hs, Option.bind_some, hline]
    rfl
  have hindent : max 1 s.column = s.column := max_eq_right hcolumn
  obtain ⟨color, unicode⟩ := style
  unfold display
  rw [hshown]
  dsimp only
  rw [hindent]
  have hplain (text : String) : (Segment.plain text).text color = text := rfl
  have hnil : lineText color [] = "" := rfl
  cases unicode with
  | true =>
    simp only [if_true, List.map_cons, List.map_nil, lineText_cons, hplain, hnil, String.append_empty, Style.opening,
      Style.gutter, Style.margin, Style.marks, Style.closing, Style.gray, spaces, String.append_assoc]
  | false =>
    simp only [Bool.false_eq_true, if_false, List.map_cons, List.map_nil, lineText_cons, hplain, hnil,
      String.append_empty, String.empty_append, Style.opening, Style.gutter, Style.margin, Style.marks, Style.closing,
      spaces, String.append_assoc]

theorem shows_of_lineAt? (hd : d ∈ r.items) (hs : d.span = some s)
    (hline : lineAt? (Text.lines (r.source.getD "").toList) s = some line) (hcolumn : 1 ≤ s.column) (style : Style) :
    r.Shows style d s line := by
  obtain ⟨before, after, hformat⟩ := exists_format hd style
  rw [map_lineText_display hs hline hcolumn] at hformat
  exact ⟨before, style.closing ++ after, markWidth s line, hformat, length_gutter style _, markWidth_pos s line,
    fun hrow hcolumn => add_markWidth hrow hcolumn line⟩

/-- What is reported on a text is at a character of it. The report shows the display line that has the number of
that character's line, with marks from the character on. It is that line itself, less a carriage return at its end,
if neither it nor a line before it holds any other line end. -/
theorem shows_line {source : String} {settings : Settings} {filename : String}
    (hd : d ∈ (compile source settings filename).diagnostics) (hs : d.span = some s) :
    ∃ (k : Nat) (line before after shown : List Char) (c : Char),
      s.line = k + 1 ∧ (source.toList.splitOn '\n')[k]? = some line ∧
      Text.withoutReturn line = before ++ c :: after ∧ Concrete.isGapChar c = false ∧
      s.column = before.length + 1 ∧ (Text.lines source.toList)[k]? = some shown ∧
      ((∀ l ∈ (source.toList.splitOn '\n').take (k + 1), Text.Whole l) → shown = Text.withoutReturn line) ∧
      ∀ r : Report, r.source = some source → d ∈ r.items → ∀ style, r.Shows style d s shown := by
  have hplace : s.StartsIn source.toList :=
    placed_diagnostics (fun ts hts => hts.starts) (fun f p hstuck => hstuck.startsIn) d hd s hs
  obtain ⟨k, line, before, after, c, hrow, hline, hfront, hc, hcolumn⟩ := hplace.exists_line
  have hne : line ≠ [] := by
    rintro rfl
    cases before <;> cases hfront
  obtain ⟨shown, hshown, hwhole⟩ := Text.exists_display_line hline hne
  refine ⟨k, line, before, after, shown, c, hrow, hline, hfront, hc, hcolumn, hshown, hwhole, ?_⟩
  intro r hsource hitem style
  refine shows_of_lineAt? hitem hs ?_ (by omega) style
  have hindex : (s.line - 1).toNat = k := by omega
  unfold lineAt?
  rw [if_pos (by omega), hindex, hsource]
  exact hshown

end

theorem shows_line_sample : ∃ d ∈ (compile "const A = 1;\nconst B = C;" .default "a.x").diagnostics,
    d.span = some ⟨2, 11, 2, 12⟩ ∧ ∀ r : Report, r.source = some "const A = 1;\nconst B = C;" → d ∈ r.items →
      ∀ style, r.Shows style d ⟨2, 11, 2, 12⟩ "const B = C;".toList := by
  have hspans : (compile "const A = 1;\nconst B = C;" .default "a.x").diagnostics.map (·.span) =
      [some ⟨2, 11, 2, 12⟩] := by decide +kernel
  obtain ⟨d, hitems, hspan⟩ := List.map_eq_singleton_iff.mp hspans
  have hd : d ∈ (compile "const A = 1;\nconst B = C;" .default "a.x").diagnostics := by
    rw [hitems]
    exact List.mem_singleton_self d
  obtain ⟨k, line, _, _, shown, _, hrow, hline, -, -, -, -, hwhole, hshows⟩ := shows_line hd hspan
  obtain rfl : k = 1 := by
    change (2 : Int) = k + 1 at hrow
    omega
  have hsecond : ("const A = 1;\nconst B = C;".toList.splitOn '\n')[1]? = some "const B = C;".toList := by
    decide +kernel
  cases hsecond.symm.trans hline
  obtain rfl : shown = "const B = C;".toList := (hwhole (by decide +kernel)).trans (by decide +kernel)
  exact ⟨d, hd, hspan, hshows⟩

/-- A form feed ends a display line, so that the rest of its line, with nothing in it, is shown for the next. -/
theorem shows_rest_of_line :
    ("const A = 1;\x0c\nconst B = C;\n".toList.splitOn '\n')[1]? = some "const B = C;".toList ∧
    (compile "const A = 1;\x0c\nconst B = C;\n" .default "a.x").diagnostics.map (·.span) = [some ⟨2, 11, 2, 12⟩] ∧
    (Report.mk (some "const A = 1;\x0c\nconst B = C;\n") "a.x"
      (compile "const A = 1;\x0c\nconst B = C;\n" .default "a.x").diagnostics).format ⟨false, false⟩ =
        "./a.x:2:11: error [XE2001]: undefined reference 'C'.\n   2 | \n     |           ^" := by
  decide +kernel

end Report

end XdrSchema
