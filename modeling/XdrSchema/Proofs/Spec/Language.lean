import XdrSchema.Proofs.Spec.Printing
import XdrSchema.Proofs.Spec.Source

/-! The language of specifications. A text is read when it has a derivation, which is then its only one, and what
is read is built from that derivation in the order of the text; written out again in any way, it is read as the
same. -/
namespace XdrSchema.Spec

open Concrete (DerivedBy Printed)

/-- The text has the words of the specification in some spelling, with gaps between them. -/
def WrittenAs (spec : Spec) (text : String) : Prop := ∃ w, spec.Words w ∧ Printed w text.toList

theorem exists_writtenAs (spec : Spec) : ∃ text, spec.WrittenAs text := by
  obtain ⟨w, hw⟩ := exists_words spec
  obtain ⟨cs, hcs⟩ := Concrete.exists_printed w
  exact ⟨String.ofList cs, w, hw, by rwa [String.toList_ofList]⟩

/-- A text is read exactly when its tokens derive from the grammar. The derivation is unique and the specification is
what it means. Each text from which a specification is read is one of those that it can be written as, and what
has names and numbers that are tokens, no empty list and no name twice is read back from all of those. -/
theorem parse_grammar :
    (∀ text, (∃ tree, Concrete.parse text = .ok tree) ↔ ∃ d, DerivedBy text d) ∧
    (∀ text d, DerivedBy text d → (∀ d', DerivedBy text d' → d' = d) ∧
      Concrete.parse text = .ok (Concrete.Grammar.meaning d) ∧ parse text = ofTree (Concrete.Grammar.meaning d)) ∧
    (∀ text spec, parse text = .ok spec → spec.WrittenAs text) ∧
    ∀ spec : Spec, (∀ d ∈ spec.definitions, d.body.Buildable ∧ ∀ n ∈ d.names, IsName n) →
      (∃ text, spec.WrittenAs text) ∧
      ∀ text, spec.WrittenAs text → ∃ spec', parse text = .ok spec' ∧ spec'.unplaced = spec.unplaced := by
  refine ⟨fun text => ⟨?_, ?_⟩, fun text d hd => ⟨fun d' hd' => hd'.unique hd, ?_, ?_⟩,
    fun _ _ h => ?_, fun spec hspec => ⟨exists_writtenAs spec, ?_⟩⟩
  · rintro ⟨tree, htree⟩
    obtain ⟨d, hd, -⟩ := Concrete.parse_eq_ok_iff.mp htree
    exact ⟨d, hd⟩
  · rintro ⟨d, hd⟩
    exact ⟨_, Concrete.parse_eq_ok_iff.mpr ⟨d, hd, rfl⟩⟩
  · exact Concrete.parse_eq_ok_iff.mpr ⟨d, hd, rfl⟩
  · rw [parse, Concrete.parse_eq_ok_iff.mpr ⟨d, hd, rfl⟩]
    rfl
  · obtain ⟨w, hw, htext, -⟩ := exists_words_of_parse h
    exact ⟨w, hw, htext⟩
  · rintro text ⟨w, hw, htext⟩
    exact parse_printed hw hspec htext

def sampleTypedef : Spec :=
  ⟨[⟨"T", .typedef (.vector (.primitive .unsignedInt) (some (.literal 4 "4" .nowhere))), .nowhere, .nowhere⟩]⟩

/-- One of the texts of `sampleTypedef`: the type has three spellings, and blanks stand where words would run
together. -/
theorem writtenAs_sampleTypedef : sampleTypedef.WrittenAs "typedef unsigned T<4>;" := by
  have htype : BaseWords (.primitive .unsignedInt) [keyword .unsigned] :=
    BaseWords.primitive (show [Concrete.Keyword.unsigned] ∈ spellings .unsignedInt by decide)
  have hwords : sampleTypedef.Words [keyword .typedef, keyword .unsigned, word "T", mark .less, (.number, "4"),
      mark .greater, mark .semicolon] :=
    ⟨[_], .cons (.mk (.typedef (.vector htype))) .nil, rfl⟩
  have hblank {rest : List Char} : Concrete.Gap [' '] rest := .blank (List.cons_ne_nil _ _) (List.all_eq_true.mp rfl)
  refine ⟨_, hwords, ?_⟩
  have hends {c : Char} {rest : List Char} {l : Concrete.Lexeme} (h : l.1.goesOn c = false) :
      ∀ d ∈ (c :: rest).head?, l.1.goesOn d = false := Concrete.forall_head?_cons h
  exact .word (hends rfl) (.gap hblank (.word (hends rfl) (.gap hblank (.word (hends rfl) (.word (hends rfl)
    (.word (hends rfl) (.word (hends rfl) (.word nofun .nil))))))))

theorem parse_grammar_typedef : ∃ spec, parse "typedef unsigned T<4>;" = .ok spec ∧
    spec.unplaced = sampleTypedef.unplaced := by
  refine (parse_grammar.2.2.2 sampleTypedef ?_).2 _ writtenAs_sampleTypedef
  have hname : IsName "T" := .name ⟨'T', [], rfl, by decide, by simp⟩ fun k => by cases k <;> decide
  have hlength : Value.Spelled (.literal 4 "4" .nowhere) :=
    ⟨⟨'4', [], .inl rfl, by decide, by simp⟩, by decide⟩
  refine List.forall_mem_singleton.mpr ⟨fun v hv => ?_, List.forall_mem_singleton.mpr hname⟩
  obtain rfl := Option.some.inj hv
  exact hlength

end XdrSchema.Spec
