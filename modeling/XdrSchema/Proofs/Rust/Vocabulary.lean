import XdrSchema.Proofs.Rust.Legible
import XdrSchema.Proofs.Rust.Names
import XdrSchema.Proofs.Schema.Variant
import XdrSchema.Proofs.Text.Bracket
import XdrSchema.Proofs.Wire.SizeTable

/-! The names and the numbers of an accepted specification. Its names are words, those of its variants too, and
its numbers are in the ranges that they are written for. -/
namespace XdrSchema

/-! ### Names of arms -/

namespace Schema

variable {spec : Spec} {u : Spec.Union} {u' : Union} {a : Arm}

/-- The labels and the field of an arm have names that were read. -/
structure Arm.Named (a : Arm) : Prop where
  labels : ∀ l ∈ a.labels, ∀ n ∈ l.name, Spec.IsName n
  field : ∀ f ∈ a.field, Spec.IsName f.name

/-- What a variant was named after. -/
def Arm.draft (a : Arm) (span : Span) : Variant.Draft := ⟨a.labels, a.field.map (·.name), span⟩

theorem name?_of_payloadAs {p : Spec.Payload} {f : Option Field} (h : spec.PayloadAs p f) :
    f.map (·.name) = p.name? := by
  unfold Spec.PayloadAs at h
  unfold Spec.Payload.name?
  generalize p.field? = g at h
  cases h with
  | some h => exact congrArg some h.1
  | none => rfl

/-- A case arm of a union comes from one of the specification, and its name is made from that. -/
theorem exists_arm_of_mem (hu : spec.UnionAs u u') (ha : a ∈ u'.arms) : ∃ b ∈ u.arms,
    List.Forall₂ spec.LabelAs b.labels a.labels ∧ spec.PayloadAs b.payload a.field ∧
      Variant.Made (a.draft b.span) a.variant := by
  obtain ⟨drafts, hdrafts, harms, -⟩ := hu.arms
  obtain ⟨⟨name, d, b⟩, hx, harm⟩ := Scope.exists_left_of_forall₂ harms ha
  have hzip : (d, b) ∈ drafts.zip u.arms := (List.of_mem_zip hx).2
  have hdraft : spec.DraftAs b d := List.forall₂_zip hdrafts.flip hzip
  have hmade := Variant.made_assign _ drafts u.arms _ hx
  refine ⟨b, (List.of_mem_zip hzip).2, harm.labels ▸ hdraft.labels, harm.payload, ?_⟩
  have heq : a.draft b.span = d := by
    rw [Arm.draft, harm.labels, name?_of_payloadAs harm.payload, ← hdraft.field, ← hdraft.span]
  rw [heq, harm.variant]
  exact hmade

theorem exists_payload_of_mem (hu : spec.UnionAs u u') (ha : a ∈ u'.default) : ∃ p ∈ u.default,
    spec.PayloadAs p a.field ∧ a.labels = [] ∧ ∃ taken, a.variant = Variant.unique taken Variant.defaultName := by
  obtain ⟨drafts, -, -, hdefault⟩ := hu.arms
  rw [Option.mem_def] at ha
  rw [ha] at hdefault
  generalize u.default = p at hdefault
  cases hdefault with
  | some h => exact ⟨_, rfl, h.payload, h.labels, _, h.variant⟩

/-- The arms of a union that was read have names that were read. -/
theorem named_of_unionAs {d : Spec.Definition} (hd : d.body = .union u) (hnames : ∀ n ∈ d.names, Spec.IsName n)
    (hu : spec.UnionAs u u') (ha : a ∈ u'.allArms) : a.Named := by
  have hfield {p : Spec.Payload} (hp : p ∈ u.payloads) (h : spec.PayloadAs p a.field) :
      ∀ f ∈ a.field, Spec.IsName f.name := by
    intro f hf
    have hname : p.name? = some f.name := by rw [← name?_of_payloadAs h, Option.mem_def.mp hf]; rfl
    refine hnames f.name (List.mem_append_left _ (List.mem_append_right _ ?_))
    rw [hd]
    exact List.mem_cons_of_mem _ (List.mem_filterMap.mpr ⟨p, hp, hname⟩)
  rcases List.mem_append.mp ha with ha | ha
  · obtain ⟨b, hb, hlabels, hpayload, -⟩ := exists_arm_of_mem hu ha
    refine ⟨fun l hl n hn => ?_, hfield (List.mem_append_left _ (List.mem_map_of_mem hb)) hpayload⟩
    obtain ⟨x, hx, -, hname⟩ := Scope.exists_left_of_forall₂ hlabels hl
    refine hnames n (List.mem_append_right _ (Spec.mem_mentions_of_value (v := x) ?_ (hname ▸ hn)))
    rw [hd]
    exact List.mem_flatMap.mpr ⟨b, hb, hx⟩
  · obtain ⟨p, hp, hpayload, hnil, -⟩ := exists_payload_of_mem hu (Option.mem_toList.mp ha)
    refine ⟨by simp [hnil], hfield (List.mem_append_right _ (Option.mem_toList.mpr hp)) hpayload⟩

end Schema

namespace Rust

open Schema (Arm Definition Field)

/-! ### Words -/

theorem isWordChar_underscore : ∀ c ∈ "_".toList, Text.isWordChar c = true :=
  List.all_eq_true.mp (by decide)

theorem isWord_append {a b : List Char} (ha : isWord a = true) (hb : ∀ c ∈ b, Text.isWordChar c = true) :
    isWord (a ++ b) = true := by
  cases a with
  | nil => cases ha
  | cons c a =>
    simp only [isWord, Bool.and_eq_true, List.all_eq_true, List.cons_append, List.forall_mem_append] at ha ⊢
    exact ⟨ha.1, ha.2, hb⟩

theorem isWordChar_of_mem_repr {k : Nat} {c : Char} (h : c ∈ k.repr.toList) : Text.isWordChar c = true := by
  simp [Text.isWordChar, Char.isAlphanum, isDigit_of_mem_repr h]

theorem isWordChar_valueText (k : Int) : ∀ c ∈ (Schema.Variant.valueText k).toList, Text.isWordChar c = true := by
  unfold Schema.Variant.valueText
  split
  · change ∀ c ∈ ("Neg" ++ k.natAbs.repr).toList, _
    rw [String.toList_append]
    have hsign : "Neg".toList.all Text.isWordChar = true := by decide
    exact List.forall_mem_append.mpr ⟨List.all_eq_true.mp hsign, fun c hc => isWordChar_of_mem_repr hc⟩
  · next hk =>
    rw [Int.toString_eq_repr, Int.repr_eq_if, if_pos (by omega)]
    exact fun c hc => isWordChar_of_mem_repr hc

theorem isWord_caseName (labels : List Schema.Label) : isWord (Schema.Variant.caseName labels).toList = true := by
  rw [Schema.Variant.caseName, String.toList_append]
  exact isWord_append (by decide) (Text.forall_mem_toList_intercalate isWordChar_underscore
    (List.forall_mem_map.mpr fun l _ => isWordChar_valueText l.value))

theorem isWord_preferred {d : Schema.Variant.Draft} (hlabels : ∀ l ∈ d.labels, ∀ n ∈ l.name, Spec.IsName n)
    (hfield : ∀ n ∈ d.fieldName, Spec.IsName n) : isWord (Schema.Variant.preferred d).toList = true := by
  unfold Schema.Variant.preferred
  split
  · next value name hlabel => exact isWord_of_isName (hlabels ⟨value, some name⟩ (by simp [hlabel]) name rfl)
  · next hname _ => exact isWord_of_isName (hfield _ hname)
  · exact isWord_caseName d.labels

theorem isWord_numbered {base : String} (h : isWord base.toList = true) (k : Nat) :
    isWord (s!"{base}_{k}").toList = true := by
  change isWord (base ++ "_" ++ k.repr).toList = true
  rw [String.toList_append, String.toList_append]
  exact isWord_append (isWord_append h isWordChar_underscore) fun c hc => isWordChar_of_mem_repr hc

theorem isWord_made {d : Schema.Variant.Draft} (hlabels : ∀ l ∈ d.labels, ∀ n ∈ l.name, Spec.IsName n)
    (hfield : ∀ n ∈ d.fieldName, Spec.IsName n) {name : String} (h : Schema.Variant.Made d name) :
    isWord name.toList = true := by
  obtain ⟨base, hbase, hname⟩ := h
  have hword : isWord base.toList = true := by
    rcases hbase with rfl | rfl
    · exact isWord_preferred hlabels hfield
    · exact isWord_caseName d.labels
  rcases hname with rfl | ⟨k, rfl⟩
  · exact hword
  · exact isWord_numbered hword k

/-! ### Definitions -/

theorem isWord_parameter (s : Schema) : isWord (Naming.ofSchema s).parameter.toList = true := by
  change isWord (if (Symbol.find? s.symbols "B").isSome then "XdrBuf" else "B").toList = true
  split <;> decide

section Definition

variable {spec : Spec} {s : Schema} {source : String} (hspec : Spec.parse source = .ok spec)
  (hs : (Schema.analyze spec).result = .ok s) {name : String} {d : Definition} (hd : s.definition? name = some d)

include hspec hs hd

theorem isWord_variant {u : Schema.Union} (hu : d = .union u) {a : Arm} (ha : a ∈ u.allArms) :
    isWord a.variant.toList = true := by
  subst hu
  obtain ⟨⟨dname, body, span, nameSpan⟩, hmem, -, hbody⟩ := (Schema.linked_of_analyze hspec hs).reflects name _ hd
  cases body with
  | union v =>
    have hnamed := Schema.named_of_unionAs rfl (fun n hn => Spec.isName_of_mem_names hspec hmem hn) hbody ha
    rcases List.mem_append.mp ha with ha | ha
    · obtain ⟨b, -, -, -, hmade⟩ := Schema.exists_arm_of_mem hbody ha
      refine isWord_made hnamed.labels (fun n hn => ?_) hmade
      obtain ⟨f, hf, rfl⟩ := Option.mem_map.mp hn
      exact hnamed.field f hf
    · obtain ⟨p, -, -, -, taken, hvariant⟩ := Schema.exists_payload_of_mem hbody (Option.mem_toList.mp ha)
      rw [hvariant]
      rcases Schema.Variant.unique_eq taken Schema.Variant.defaultName with heq | ⟨k, heq⟩
      · rw [heq]
        decide
      · rw [heq]
        exact isWord_numbered (by decide) k
  | _ => exact hbody.elim

theorem isWord_inner {x : String} (hx : x ∈ innerNames d) : isWord x.toList = true := by
  obtain ⟨⟨dname, body, span, nameSpan⟩, hmem, -, hbody⟩ := (Schema.linked_of_analyze hspec hs).reflects name d hd
  have hnames {n : String} := Spec.isName_of_mem_names hspec hmem (n := n)
  cases d with
  | typedef t => cases hx
  | struct fields =>
    cases body with
    | struct fields' =>
      obtain ⟨f, hf, rfl⟩ := List.mem_map.mp hx
      obtain ⟨f', hf', hname, -⟩ := Schema.Scope.exists_left_of_forall₂ hbody hf
      rw [hname]
      exact isWord_of_isName (hnames (List.mem_append_left _ (List.mem_append_right _ (List.mem_map_of_mem hf'))))
    | _ => exact hbody.elim
  | enum labels =>
    cases body with
    | enum members =>
      obtain ⟨l, hl, rfl⟩ := List.mem_map.mp hx
      obtain ⟨m, hm, hname, -⟩ := Schema.Scope.exists_left_of_forall₂ hbody hl
      rw [hname]
      exact isWord_of_isName (hnames (List.mem_append_left _ (List.mem_append_left _
        (List.mem_cons_of_mem _ (List.mem_map_of_mem hm)))))
    | _ => exact hbody.elim
  | union u =>
    obtain ⟨a, ha, rfl⟩ := List.mem_map.mp hx
    exact isWord_variant hspec hs hd rfl ha

theorem isWord_typeName : isWord name.toList = true := by
  obtain ⟨d', hmem, rfl, -⟩ := (Schema.linked_of_analyze hspec hs).reflects name d hd
  exact isWord_of_isName (Spec.isName_of_parse hspec hmem)

/-- The names that the lines of a type may use are words. -/
theorem proper_vocabulary : (vocabulary (Naming.ofSchema s) name d).Proper := by
  refine ⟨fun x hx => ?_, ?_⟩
  · rcases List.mem_append.mp hx with hx | hx
    · rcases List.mem_cons.mp hx with rfl | hx
      · exact isWord_typeName hspec hs hd
      · obtain ⟨t, ht, htarget⟩ := List.mem_filterMap.mp hx
        obtain ⟨r, hr, rfl⟩ := Option.map_eq_some_iff.mp htarget
        have hresolved := (Schema.wellFormed_of_analyze (Spec.proper_of_parse hspec) hs).resolved name d hd t ht
        obtain ⟨d', hd', -⟩ := hresolved.target r hr
        exact isWord_typeName hspec hs hd'
    · exact isWord_inner hspec hs hd hx
  · exact isWord_parameter s

/-- Bounds, labels and the values of cases are in range. -/
theorem inRange_of_analyze : InRange d := by
  have hlinked := Schema.linked_of_analyze hspec hs
  refine ⟨fun t ht => ?_, ?_, ?_⟩
  · exact ((Schema.wellFormed_of_analyze (Spec.proper_of_parse hspec) hs).resolved name d hd t ht).bound
  · rintro labels rfl l hl
    exact Schema.CaseSet.isSigned32_iff.mp ((hlinked.enums name labels hd).fits l hl)
  · rintro u rfl k hk
    have hfits := (hlinked.unions name u hd).fits k hk
    unfold Schema.CaseSet.FitsWord at hfits
    unfold wordOf Schema.Union.isUnsigned
    by_cases hunsigned : u.selector = .unsigned
    · rw [if_pos (by simpa using hunsigned)]
      rwa [if_pos hunsigned] at hfits
    · rw [if_neg (by simpa using hunsigned)]
      rwa [if_neg hunsigned] at hfits

end Definition

/-! ### Constants -/

section Constants

variable {spec : Spec} {s : Schema} {source : String} (hspec : Spec.parse source = .ok spec)
  (hs : (Schema.analyze spec).result = .ok s) {name : String} {k : Int}
  (hk : (name, k) ∈ Symbol.constants s.symbols)

include hspec hs hk

/-- A constant of the module is one of the specification, and its value is in range. -/
theorem constant_of_mem : (∃ x ∈ s.symbols, x.name = name ∧ ∃ v, x.meaning = .constant v) ∧
    Spec.IsName name ∧ Integer.i64.Holds k := by
  have hwell := Schema.specWellFormed_of_analyze hs
  rw [Schema.symbols_of_analyze hs] at hk ⊢
  obtain ⟨x, hx, heq⟩ := List.mem_filterMap.mp hk
  cases hmeaning : x.meaning with
  | constant v =>
    rw [hmeaning] at heq
    dsimp only at heq
    obtain ⟨n, hn, hpair⟩ := Option.map_eq_some_iff.mp heq
    cases hpair
    have hevaluates : spec.Evaluates v k := by
      refine (Constant.evaluate_eq_ok_iff hwell.distinct).mp ?_
      cases hvalue : Constant.evaluate (Symbol.ofSpec spec) v with
      | ok m =>
        rw [hvalue] at hn
        cases hn
        rfl
      | error e =>
        rw [hvalue] at hn
        cases hn
    have hassigns : spec.Assigns x.name v := Symbol.assigns_iff.mpr ⟨x, hx, rfl, by rw [hmeaning]; rfl⟩
    refine ⟨⟨x, hx, rfl, v, hmeaning⟩, ?_, ?_⟩
    · obtain ⟨d, hd, hname⟩ := hassigns
      refine Spec.isName_of_mem_names hspec hd (List.mem_append_left _ (List.mem_append_left _ ?_))
      rcases hname with ⟨hname, -⟩ | ⟨m, hm, hname, -⟩
      · exact hname ▸ List.mem_cons_self
      · exact hname ▸ List.mem_cons_of_mem _ (List.mem_map_of_mem hm)
    · cases v with
      | constant next span => exact Spec.Denotes.fits hevaluates
      | literal n text span =>
        obtain ⟨m, chain, -, hleads⟩ := hwell.constants x.name _ hassigns
        have hfind := (Symbol.find?_ofSpec_eq_some_iff hwell.distinct).mpr ⟨hx, rfl⟩
        obtain ⟨rfl, hrange⟩ := Symbol.leads_of_value? hwell.distinct hfind (by rw [hmeaning]; rfl) hleads
        cases hevaluates
        exact hrange
  | _ =>
    rw [hmeaning] at heq
    cases heq

end Constants

/-! ### Templates -/

/-- The names that the line of a constant may use. -/
def constantVocabulary (naming : Naming) (name : String) : Vocabulary := ⟨[name], naming.parameter⟩

theorem sound_constant (naming : Naming) {c : String × Int} (hc : Integer.i64.Holds c.2) :
    Sound (constantVocabulary naming c.1) (constantTemplate c) := by
  have hname : Sound (constantVocabulary naming c.1) [.name c.1] := sound_name List.mem_cons_self
  exact (hname.append_fixed (by rfl)
    ((sound_number hc (.inl rfl)).append_fixed (by rfl) sound_nil)).fixed_cons (by rfl)

section Templates

variable {source : String} {s : Schema} (h : (Schema.analyzeText source).result = .ok s) {t : Template}

include h

/-- A line that is written for a definition can be read word by word, with the names of a constant or of a type. -/
theorem exists_vocabulary (ht : t ∈ templates s) : ∃ v : Vocabulary, v.Proper ∧ Sound v t ∧
    ((∃ c ∈ Symbol.constants s.symbols, v = constantVocabulary (Naming.ofSchema s) c.1) ∨
      ∃ name d, s.definition? name = some d ∧ v = vocabulary (Naming.ofSchema s) name d) := by
  have hwell := Schema.wellFormed_of_analyzeText h
  obtain ⟨spec, hspec, hs⟩ := Schema.analyzeText_eq_ok_iff.mp h
  rcases List.mem_append.mp ht with ht | ht
  · obtain ⟨c, hc, rfl⟩ := List.mem_map.mp ht
    obtain ⟨-, hname, hfits⟩ := constant_of_mem hspec hs hc
    refine ⟨_, ⟨fun n hn => ?_, isWord_parameter s⟩, sound_constant _ hfits, .inl ⟨c, hc, rfl⟩⟩
    rw [List.mem_singleton.mp hn]
    exact isWord_of_isName hname
  · obtain ⟨⟨name, d⟩, hd, ht⟩ := List.mem_flatMap.mp ht
    have hd := (lookup_eq_some_iff_of_nodup hwell.distinct).mpr hd
    exact ⟨_, proper_vocabulary hspec hs hd, legible_item _ name (inRange_of_analyze hspec hs hd)
      (Wire.SizeTable.proper_ofSchema hwell name) t ht, .inr ⟨name, d, hd, rfl⟩⟩

/-- A line of the module is empty, or one of its frame, or written for a definition. -/
theorem exists_template_of_mem_lines (settings : Settings) (sourceName : String) {l : String}
    (hl : l ∈ (Module.ofSchema s settings sourceName).lines) :
    l = "" ∨ (∃ t ∈ frame (Module.ofSchema s settings sourceName), ∃ k, l = indented k t) ∨
      ∃ t ∈ templates s, ∃ k, l = indented k (render t) := by
  have hwell := Schema.wellFormed_of_analyzeText h
  have hproper : ∀ x ∈ s.types, x.2.Proper := fun x hx =>
    hwell.proper x.1 x.2 ((lookup_eq_some_iff_of_nodup hwell.distinct).mpr hx)
  refine (Module.isLineOf_texts _ hl).imp_right ?_
  rintro ⟨text, htext, k, rfl⟩
  rcases mem_texts_module hproper settings sourceName htext with hframe | ⟨t, ht, rfl⟩
  · exact .inl ⟨text, hframe, k, rfl⟩
  · exact .inr ⟨t, ht, k, rfl⟩

end Templates

end Rust

end XdrSchema
