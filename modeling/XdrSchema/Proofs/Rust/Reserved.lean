import XdrSchema.Proofs.Rust.SupportText
import XdrSchema.Proofs.Rust.Vocabulary

/-! The names that a module declares and those that its code relies on. A checked name is none of the items of the
support code, and where the code looks up such a word it is written for that name; but three traits of the language
are looked up by bare names, and a label or a field can have the name of an associated item. -/
namespace XdrSchema.Rust

open Schema (Arm Definition Union)

/-! ### Identifiers -/

/-- The keywords of the language, also those that are only reserved, and the underscore. -/
def languageKeywords : List String :=
  ["_", "abstract", "as", "async", "await", "become", "box", "break", "const", "continue", "crate", "do", "dyn",
    "else", "enum", "extern", "false", "final", "fn", "for", "gen", "if", "impl", "in", "let", "loop", "macro",
    "match", "mod", "move", "mut", "override", "priv", "pub", "ref", "return", "self", "Self", "static", "struct",
    "super", "trait", "true", "try", "type", "typeof", "unsafe", "unsized", "use", "virtual", "where", "while",
    "yield"]

/-- A word that is no keyword, or a raw one that does not stand for a part of a path. -/
inductive IsIdentifier : String → Prop
  | plain {w : String} (hword : isWord w.toList = true) (hkeyword : w ∉ languageKeywords) : IsIdentifier w
  | raw {w : String} (hword : isWord w.toList = true) (hpath : w ∉ ["_", "crate", "self", "Self", "super"]) :
    IsIdentifier ("r#" ++ w)

theorem isIdentifier_identifier {n : String} (hword : isWord n.toList = true) (hn : n ∉ hardKeywords) :
    IsIdentifier (identifier n) := by
  have hpath : ∀ w ∈ ["_", "crate", "self", "Self", "super"], w ∈ hardKeywords := by decide
  have hlanguage : ∀ w ∈ languageKeywords, w ∈ keywords ∨ w ∈ hardKeywords := by decide
  unfold identifier
  split
  · exact .raw hword fun h => hn (hpath n h)
  · next hkeyword => exact .plain hword fun h => (hlanguage n h).elim hkeyword hn

/-! ### Reserved words -/

theorem head?_of_isName {n : String} (h : Spec.IsName n) : n.toList.head? ≠ some '_' := by
  unfold Spec.IsName at h
  cases h with
  | name h _ =>
    obtain ⟨c, rest, hname, hc, -⟩ := h
    rw [hname]
    intro hhead
    obtain rfl : c = '_' := Option.some.inj hhead
    exact absurd hc (by decide)

/-- A name that can be declared is no keyword, no type of the language, no item of the support code and no local
name of the code. -/
theorem not_mem_reservedWords {n : String} (hname : Spec.IsName n) (hfree : IsFree n) :
    (identifier n).toList ∉ reservedWords.map Word.letters := by
  have hreserved : ∀ w ∈ reservedWords, '#' ∉ w.letters ∧ (w.letters.head? = some '_' ∨
      w.text ∈ keywords ∨ w.text ∈ supportItems ∨ w.text ∈ primitiveTypes ∨ w.text ∈ hardKeywords) := by
    decide +kernel
  intro hmem
  obtain ⟨w, hw, heq⟩ := List.mem_map.mp hmem
  obtain ⟨hsign, hcases⟩ := hreserved w hw
  rw [heq] at hsign hcases
  have htext : w.text = identifier n := by rw [w.spelled, heq, String.ofList_toList]
  rw [htext] at hcases
  unfold identifier at hsign hcases
  split at hsign
  · simp at hsign
  · next hkeyword =>
    rw [if_neg hkeyword] at hcases
    obtain ⟨hsupport, hprimitive, hhard⟩ := hfree
    simp only [head?_of_isName hname, hkeyword, hsupport, hprimitive, hhard, or_self] at hcases

theorem mem_supportTraits {n : String} (h : (identifier n).toList ∈ supportTraits.map Word.letters) :
    n ∈ supportTraits.map Word.text := by
  have hraw : ∀ w ∈ supportTraits, '#' ∉ w.letters := by decide
  obtain ⟨w, hw, heq⟩ := List.mem_map.mp h
  have hsign := hraw w hw
  rw [heq] at hsign
  refine List.mem_map.mpr ⟨w, hw, ?_⟩
  rw [w.spelled, heq, String.ofList_toList]
  unfold identifier at hsign ⊢
  split at hsign
  · simp at hsign
  · next hkeyword => rw [if_neg hkeyword]

/-! ### Checked names -/

/-- The names that a module declares at module level. -/
def declaredNames (s : Schema) : List String := s.typeNames ++ (Symbol.constants s.symbols).map Prod.fst

section Checked

variable {spec : Spec} {s : Schema} {source : String} (hspec : Spec.parse source = .ok spec)
  (hs : (Schema.analyze spec).result = .ok s)

include hspec hs

theorem isName_of_mem_declaredNames {n : String} (hn : n ∈ declaredNames s) : Spec.IsName n := by
  rcases List.mem_append.mp hn with hn | hn
  · obtain ⟨r, hr⟩ := Schema.mem_typeNames_iff.mp hn
    obtain ⟨d, hd, rfl, -⟩ := (Schema.linked_of_analyze hspec hs).reflects n r hr
    exact Spec.isName_of_parse hspec hd
  · obtain ⟨c, hc, rfl⟩ := List.mem_map.mp hn
    exact (constant_of_mem hspec hs hc).2.1

/-- The symbol of a type that a schema defines. -/
theorem exists_type_of_definition {name : String} {r : Definition} (hr : s.definition? name = some r) :
    ∃ x ∈ s.symbols, x.name = name ∧ ∃ k d, d ∈ spec.definitions ∧ x.type? = some (k, d) ∧ spec.BodyAs d.body r := by
  have hlinked := Schema.linked_of_analyze hspec hs
  obtain ⟨d, hd, rfl, hbody⟩ := hlinked.reflects name r hr
  have hkind : ∃ k, Schema.Scope.kindOf? d = some k := by
    obtain ⟨dname, body, span, nameSpan⟩ := d
    cases body with
    | const v => exact hbody.elim
    | _ => exact ⟨_, rfl⟩
  obtain ⟨k, hk⟩ := hkind
  obtain ⟨x, hx, hname, hmeaning⟩ := Symbol.type_iff.mpr ⟨hd, rfl, hk⟩
  rw [hlinked.symbols]
  exact ⟨x, hx, hname, k, d, hd, by rw [Symbol.type?, hmeaning], hbody⟩

theorem exists_symbol_of_mem_declaredNames {n : String} (hn : n ∈ declaredNames s) : ∃ x ∈ s.symbols, x.name = n := by
  rcases List.mem_append.mp hn with hn | hn
  · obtain ⟨r, hr⟩ := Schema.mem_typeNames_iff.mp hn
    obtain ⟨x, hx, hname, -⟩ := exists_type_of_definition hspec hs hr
    exact ⟨x, hx, hname⟩
  · obtain ⟨c, hc, rfl⟩ := List.mem_map.mp hn
    obtain ⟨⟨x, hx, hname, -⟩, -⟩ := constant_of_mem hspec hs hc
    exact ⟨x, hx, hname⟩

variable (hnames : checkNames s = .ok ())

include hnames

theorem isFree_of_mem_declaredNames {n : String} (hn : n ∈ declaredNames s) : IsFree n := by
  obtain ⟨htypes, hvalues⟩ := checkNames_eq_ok_iff.mp hnames
  rcases List.mem_append.mp hn with hn | hn
  · obtain ⟨r, hr⟩ := Schema.mem_typeNames_iff.mp hn
    obtain ⟨x, hx, rfl, k, d, -, htype, -⟩ := exists_type_of_definition hspec hs hr
    exact (htypes x hx k d htype).item
  · obtain ⟨c, hc, rfl⟩ := List.mem_map.mp hn
    obtain ⟨⟨x, hx, hname, v, hmeaning⟩, -⟩ := constant_of_mem hspec hs hc
    have hvalue := hvalues x hx
    rw [ValueFree, hmeaning] at hvalue
    exact hname ▸ hvalue

/-- The fields, labels and variants of a type have names that can be written. -/
theorem not_mem_hardKeywords_of_inner {name : String} {d : Definition} (hd : s.definition? name = some d)
    {n : String} (hn : n ∈ innerNames d) : n ∉ hardKeywords := by
  obtain ⟨htypes, hvalues⟩ := checkNames_eq_ok_iff.mp hnames
  obtain ⟨x, hx, rfl, k, ⟨dname, body, span, nameSpan⟩, hmem, htype, hbody⟩ := exists_type_of_definition hspec hs hd
  have hfree := htypes x hx k _ htype
  cases d with
  | typedef t => cases hn
  | struct fields =>
    obtain ⟨f, hf, rfl⟩ := List.mem_map.mp hn
    cases body with
    | struct fields' =>
      obtain ⟨f', hf', hname, -⟩ := Schema.Scope.exists_left_of_forall₂ hbody hf
      rw [hname]
      exact hfree.fields fields' rfl f' hf'
    | _ => exact hbody.elim
  | enum labels =>
    obtain ⟨l, hl, rfl⟩ := List.mem_map.mp hn
    cases body with
    | enum members =>
      obtain ⟨m, hm, hname, -⟩ := Schema.Scope.exists_left_of_forall₂ hbody hl
      have hlabel : (⟨m.name, some m.span, .label dname m.value⟩ : Symbol) ∈ s.symbols := by
        rw [Schema.symbols_of_analyze hs]
        refine List.mem_append_right _ (List.mem_flatMap.mpr ⟨_, hmem, ?_⟩)
        exact List.mem_cons_of_mem _ (List.mem_map_of_mem hm)
      rw [hname]
      exact hvalues _ hlabel
    | _ => exact hbody.elim
  | union u =>
    obtain ⟨a, ha, rfl⟩ := List.mem_map.mp hn
    exact hfree.variants u hd a ha

/-- The parameter of a module is none of its names. -/
theorem parameter_not_mem_declaredNames : (Naming.ofSchema s).parameter ∉ declaredNames s := by
  intro hmem
  have hsupport := (isFree_of_mem_declaredNames hspec hs hnames hmem).1
  change (if (Symbol.find? s.symbols "B").isSome then "XdrBuf" else "B") ∈ declaredNames s at hmem
  change (if (Symbol.find? s.symbols "B").isSome then "XdrBuf" else "B") ∉ supportItems at hsupport
  split at hmem
  · next hfind =>
    rw [if_pos hfind] at hsupport
    exact hsupport (by decide)
  · next hfind =>
    obtain ⟨x, hx, hname⟩ := exists_symbol_of_mem_declaredNames hspec hs hmem
    exact hfind (List.find?_isSome.mpr ⟨x, hx, by simpa using hname⟩)

end Checked

/-! ### Variants -/

section Variants

open Schema.Variant (Made Draft caseName preferred unique defaultName)

theorem getLast?_variation (base : String) (k : Nat) : ∃ c ∈ (s!"{base}_{k}").toList.getLast?, c.isDigit = true := by
  change ∃ c ∈ (base ++ "_" ++ k.repr).toList.getLast?, c.isDigit = true
  have hne : k.repr.toList ≠ [] := by
    rw [Nat.toList_repr]
    exact Nat.toDigits_ne_nil
  refine ⟨k.repr.toList.getLast hne, ?_, isDigit_of_mem_repr (List.getLast_mem hne)⟩
  rw [String.toList_append, List.getLast?_append_of_ne_nil _ hne]
  exact List.getLast?_eq_some_getLast hne

/-- An associated item has no number at its end. -/
theorem ne_variation {n : String} (hn : n ∈ reachedWords.map Word.text) (base : String) (k : Nat) :
    n ≠ s!"{base}_{k}" := by
  have hlast : ∀ n ∈ reachedWords.map Word.text, n.toList.getLast?.any Char.isDigit = false := by decide
  rintro rfl
  have hany := hlast _ hn
  obtain ⟨c, hc, hdigit⟩ := getLast?_variation base k
  rw [Option.mem_def.mp hc, Option.any_some, hdigit] at hany
  cases hany

theorem ne_caseName {n : String} (hn : n ∈ reachedWords.map Word.text) (labels : List Schema.Label) :
    n ≠ caseName labels := by
  have hhead : ∀ n ∈ reachedWords.map Word.text, n.toList.head? ≠ some 'C' := by decide
  rintro rfl
  refine hhead _ hn ?_
  rw [caseName, String.toList_append]
  rfl

theorem preferred_cases (d : Draft) : (∃ v, d.labels = [⟨v, some (preferred d)⟩]) ∨
    d.fieldName = some (preferred d) ∨ preferred d = caseName d.labels := by
  unfold preferred
  split
  · next v name hlabels => exact .inl ⟨v, hlabels⟩
  · next hfield _ => exact .inr (.inl hfield)
  · exact .inr (.inr rfl)

theorem eq_name_of_made {d : Draft} {n : String} (h : Made d n) (hn : n ∈ reachedWords.map Word.text) :
    (∃ v, d.labels = [⟨v, some n⟩]) ∨ d.fieldName = some n := by
  obtain ⟨base, hbase, hname⟩ := h
  obtain rfl : n = base := hname.resolve_right fun ⟨k, hk⟩ => ne_variation hn base k hk
  obtain rfl := hbase.resolve_right (ne_caseName hn d.labels)
  exact (preferred_cases d).imp_right fun h => h.resolve_right (ne_caseName hn d.labels)

variable {spec : Spec} {s : Schema} {source : String} (hspec : Spec.parse source = .ok spec)
  (hs : (Schema.analyze spec).result = .ok s)

include hspec hs

/-- A variant that is named like an associated item has the name of its single label or of its field. -/
theorem eq_name_of_variant {name : String} {u : Union} (hu : s.definition? name = some (.union u)) {a : Arm}
    (ha : a ∈ u.allArms) (hn : a.variant ∈ reachedWords.map Word.text) :
    (∃ v, a.labels = [⟨v, some a.variant⟩]) ∨ ∃ f ∈ a.field, f.name = a.variant := by
  obtain ⟨⟨dname, body, span, nameSpan⟩, -, -, hbody⟩ := (Schema.linked_of_analyze hspec hs).reflects name _ hu
  cases body with
  | union v =>
    rcases List.mem_append.mp ha with ha | ha
    · obtain ⟨b, -, -, -, hmade⟩ := Schema.exists_arm_of_mem hbody ha
      exact (eq_name_of_made hmade hn).imp_right fun hfield => Option.map_eq_some_iff.mp hfield
    · obtain ⟨p, -, -, -, taken, hvariant⟩ := Schema.exists_payload_of_mem hbody (Option.mem_toList.mp ha)
      exfalso
      rw [hvariant] at hn
      rcases Schema.Variant.unique_eq taken defaultName with heq | ⟨k, heq⟩
      · rw [heq] at hn
        exact absurd hn (by decide)
      · exact ne_variation hn _ k heq
  | _ => exact hbody.elim

end Variants

/-! ### A module -/

/-- A line of the module with its template. A word of it that is looked up as it stands and is the identifier of a
declared name is written for that name, or is where an associated item or an attribute has its name. Its fixed parts
reach two associated items through the type itself, or leave a name to follow. -/
structure KeepsNames (s : Schema) (t : Template) (line : String) : Prop where
  written : ∃ k, line = indented k (render t)
  bare : ∀ n ∈ declaredNames s, (identifier n).toList ∈ bareWords line →
    .name n ∈ t ∨ (identifier n).toList ∈ (memberWords ++ attributeWords).map Word.letters
  reached : ∀ text, .fixed text ∈ t → ∀ w ∈ reached text.toList, w = [] ∨ w ∈ reachedWords.map Word.letters

/-- The names of a module are apart from those that its code relies on, but for the traits that the support code
looks up by bare names and for variants that are named like an associated item. -/
structure Module.KeepsNames (m : Module) (s : Schema) : Prop where
  lines : ∀ l ∈ m.lines, l = "" ∨ (∃ t ∈ frame m, ∃ k, l = indented k t) ∨ ∃ t ∈ templates s, Rust.KeepsNames s t l
  items : ∀ n ∈ declaredNames s, ∀ l ∈ supportLines, declared? l.toList ≠ some (identifier n).toList
  support : ∀ n ∈ declaredNames s, ∀ l ∈ supportLines, (identifier n).toList ∈ supportWords l.toList →
    (identifier n).toList ∈ (supportMembers ++ supportMacros ++ supportParameters).map Word.letters ∨
      n ∈ supportTraits.map Word.text
  parameter : (Naming.ofSchema s).parameter ∉ declaredNames s
  variants : ∀ name u, s.definition? name = some (.union u) → ∀ a ∈ u.allArms,
    a.variant ∈ reachedWords.map Word.text →
      (∃ v, a.labels = [⟨v, some a.variant⟩]) ∨ ∃ f ∈ a.field, f.name = a.variant
  declared : ∀ n ∈ declaredNames s, IsIdentifier (identifier n)
  inner : ∀ name d, s.definition? name = some d → ∀ n ∈ innerNames d, IsIdentifier (identifier n)

theorem identifier_parameter (s : Schema) :
    identifier (Naming.ofSchema s).parameter = (Naming.ofSchema s).parameter := by
  refine if_neg ?_
  change (if (Symbol.find? s.symbols "B").isSome then "XdrBuf" else "B") ∉ keywords
  split <;> decide

/-- The words of a line for the definitions that are identifiers of declared names. -/
theorem keepsNames_of_sound {s : Schema} {v : Vocabulary} (hv : v.Proper)
    (hparameter : v.parameter = (Naming.ofSchema s).parameter) {t : Template} (ht : Sound v t) (k : Nat)
    (hname : ∀ n ∈ declaredNames s, Spec.IsName n) (hfree : ∀ n ∈ declaredNames s, IsFree n)
    (hdeclared : (Naming.ofSchema s).parameter ∉ declaredNames s) :
    KeepsNames s t (indented k (render t)) where
  written := ⟨k, rfl⟩
  bare n hn hmem := by
    have hsign := not_mem_of_isName (hname n hn)
    have hreserved := not_mem_reservedWords (hname n hn) (hfree n hn)
    rw [bareWords_indented] at hmem
    obtain ⟨p, hp, hword⟩ := exists_piece_of_mem_bareWords hv ht hmem
    have hproper := ht.proper p hp
    cases p with
    | fixed text =>
      change (identifier n).toList ∈ fixedWords.map Word.letters at hword
      rw [fixedWords, List.append_assoc, List.map_append, List.mem_append] at hword
      exact .inr (hword.resolve_left hreserved)
    | name n' =>
      have heq := String.toList_inj.mp (List.mem_singleton.mp hword)
      obtain rfl := (identifier_inj hsign (not_mem_of_isWord (hv.1 n' hproper))).mp heq
      exact .inl hp
    | parameter q =>
      obtain rfl : q = v.parameter := hproper
      have heq := String.toList_inj.mp (List.mem_singleton.mp hword)
      rw [hparameter, ← identifier_parameter] at heq
      obtain rfl := (identifier_inj hsign (not_mem_of_isWord (isWord_parameter s))).mp heq
      exact absurd hn hdeclared
    | number type n suffix => cases hword
  reached text htext w hw := by
    have hplain : isPlain text.toList = true := ht.proper _ htext
    simp only [isPlain, Bool.and_eq_true, List.all_eq_true, Bool.or_eq_true, List.isEmpty_iff,
      List.contains_iff_mem] at hplain
    exact hplain.2 w hw

/-- A module whose names were checked keeps them apart from those that its code relies on. -/
theorem names_kept_apart {source : String} {s : Schema} (h : (Schema.analyzeText source).result = .ok s)
    (hnames : checkNames s = .ok ()) (settings : Settings) (sourceName : String) :
    (Module.ofSchema s settings sourceName).KeepsNames s := by
  obtain ⟨spec, hspec, hs⟩ := Schema.analyzeText_eq_ok_iff.mp h
  have hname : ∀ n ∈ declaredNames s, Spec.IsName n := fun n hn => isName_of_mem_declaredNames hspec hs hn
  have hfree : ∀ n ∈ declaredNames s, IsFree n := fun n hn => isFree_of_mem_declaredNames hspec hs hnames hn
  have hparameter := parameter_not_mem_declaredNames hspec hs hnames
  refine ⟨fun l hl => ?_, fun n hn l hl hdeclares => ?_, fun n hn l hl hword => ?_, hparameter,
    fun name u hu a ha => eq_name_of_variant hspec hs hu ha, fun n hn => ?_, fun name d hd n hn => ?_⟩
  · refine (exists_template_of_mem_lines h settings sourceName hl).imp_right (Or.imp_right ?_)
    rintro ⟨t, ht, k, rfl⟩
    obtain ⟨v, hv, hsound, hvocabulary⟩ := exists_vocabulary h ht
    refine ⟨t, ht, keepsNames_of_sound hv ?_ hsound k hname hfree hparameter⟩
    rcases hvocabulary with ⟨c, -, rfl⟩ | ⟨name, d, -, rfl⟩ <;> rfl
  · have hline := isSupportLine_of_mem l hl
    rw [isSupportLine, hdeclares, Bool.and_eq_true, Option.all_some, List.contains_iff_mem] at hline
    obtain ⟨w, hw, hletters⟩ := List.mem_map.mp hline.2
    refine not_mem_reservedWords (hname n hn) (hfree n hn) (List.mem_map.mpr ⟨w, ?_, hletters⟩)
    exact List.mem_append_left _ (List.mem_append_right _ hw)
  · have hline := isSupportLine_of_mem l hl
    simp only [isSupportLine, Bool.and_eq_true, List.all_eq_true, List.contains_iff_mem] at hline
    have hmem := hline.1.2 _ hword
    simp only [supportVocabulary, List.map_append, List.mem_append] at hmem ⊢
    rcases hmem with (((hreserved | hmember) | hmacro) | hfunction) | htrait
    · exact absurd hreserved (not_mem_reservedWords (hname n hn) (hfree n hn))
    · exact .inl (.inl (.inl hmember))
    · exact .inl (.inl (.inr hmacro))
    · exact .inl (.inr hfunction)
    · exact .inr (mem_supportTraits htrait)
  · exact isIdentifier_identifier (isWord_of_isName (hname n hn)) (hfree n hn).2.2
  · exact isIdentifier_identifier (isWord_inner hspec hs hd hn) (not_mem_hardKeywords_of_inner hspec hs hnames hd hn)

theorem checkNames_eq_ok {s : Schema} (h : (checkNames s).isOk = true) : checkNames s = .ok () := by
  cases hresult : checkNames s with
  | ok _ => rfl
  | error e =>
    rw [hresult] at h
    cases h

/-- A constant named like a keyword, and a type named like the parameter of views. -/
def keywordText : String := "const type = 1; typedef opaque B<4>;"

def keywordTypes : List (String × Definition) := [("B", .typedef (.bytes (some 4)))]

def keywordSchema : Schema := Schema.withTypes keywordText keywordTypes

theorem analyzeText_keywordText : (Schema.analyzeText keywordText).result = .ok keywordSchema :=
  Schema.analyzeText_eq_ok (by decide +kernel)

/-- The constant is written as a raw identifier, and the parameter has another name. -/
theorem names_kept_apart_keyword : checkNames keywordSchema = .ok () ∧
    (Module.ofSchema keywordSchema Settings.default "keyword.x").KeepsNames keywordSchema ∧
    IsIdentifier "r#type" ∧ "B" ∈ declaredNames keywordSchema ∧ "XdrBuf" ∉ declaredNames keywordSchema := by
  have hnames : checkNames keywordSchema = .ok () := checkNames_eq_ok (by decide +kernel)
  have hkept := names_kept_apart analyzeText_keywordText hnames Settings.default "keyword.x"
  have hparameter : (Naming.ofSchema keywordSchema).parameter = "XdrBuf" := by decide +kernel
  have htype : "type" ∈ declaredNames keywordSchema := by decide +kernel
  exact ⟨hnames, hkept, hkept.declared "type" htype, List.mem_append_left _ (by decide),
    hparameter ▸ hkept.parameter⟩

/-- A type can be named like a trait that the support code looks up, and a label like an associated item that the
decoder of its enumeration reaches through the type. -/
def capturingText : String := "typedef int Sized; enum E \x7b XDR_MIN_SIZE = 0 \x7d;"

def capturingTypes : List (String × Definition) :=
  [("Sized", .typedef (.plain (.primitive .int))), ("E", .enum [("XDR_MIN_SIZE", 0)])]

def capturingSchema : Schema := Schema.withTypes capturingText capturingTypes

/-- The decoder of a type that takes bytes first looks for as many as it takes at least. -/
theorem ensure_mem_decoderTemplates (naming : Naming) (n : String) (d : Definition) {size : Wire.Size}
    (h : 0 < size.min) : [.fixed "_cur.ensure(Self::XDR_MIN_SIZE)?;"] ∈ decoderTemplates naming n size d := by
  rw [decoderTemplates, if_pos h]
  refine List.mem_append_left _ (List.mem_cons_of_mem _ (List.mem_append_left _ (List.mem_cons_of_mem _ ?_)))
  exact List.mem_cons_self

/-- Both names are accepted. -/
theorem names_captured : (Schema.analyzeText capturingText).result = .ok capturingSchema ∧
    checkNames capturingSchema = .ok () ∧
    ("Sized" ∈ declaredNames capturingSchema ∧
      ∃ l ∈ supportLines, (identifier "Sized").toList ∈ supportWords l.toList) ∧
    ∃ labels, capturingSchema.definition? "E" = some (.enum labels) ∧ "XDR_MIN_SIZE" ∈ labels.map (·.1) ∧
      ∃ t ∈ templates capturingSchema, ∃ text, .fixed text ∈ t ∧ "XDR_MIN_SIZE".toList ∈ reached text.toList := by
  have hline : "pub trait XdrDecode<'a>: Sized \x7b" ∈ supportLines :=
    List.mem_append_left _ (List.mem_append_left _ (List.mem_append_right _ List.mem_cons_self))
  refine ⟨Schema.analyzeText_eq_ok (by decide +kernel), checkNames_eq_ok (by decide +kernel),
    ⟨List.mem_append_left _ (by decide), _, hline, by decide +kernel⟩, [("XDR_MIN_SIZE", 0)], rfl,
    List.mem_cons_self, ?_⟩
  have hsize : 0 < ((Wire.SizeTable.ofSchema capturingSchema).get "E").min := by decide +kernel
  have hensure : [.fixed "_cur.ensure(Self::XDR_MIN_SIZE)?;"] ∈ templates capturingSchema := by
    refine List.mem_append_right _ (List.mem_flatMap.mpr ⟨("E", .enum [("XDR_MIN_SIZE", 0)]), by decide, ?_⟩)
    exact List.mem_append_left _ (List.mem_append_right _ (ensure_mem_decoderTemplates _ _ _ hsize))
  exact ⟨_, hensure, _, List.mem_cons_self, by decide +kernel⟩

end XdrSchema.Rust
