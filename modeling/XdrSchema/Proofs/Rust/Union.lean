import Mathlib.Data.List.Find
import Std.Data.String.ToInt
import XdrSchema.Proofs.Rust.Closed
import XdrSchema.Proofs.Schema.Linked
import XdrSchema.Proofs.Wire.Bounds
import XdrSchema.Proofs.Wire.Spelling

/-! What is generated for a union agrees with which arm a discriminant selects. The decoder takes the line of
the selected arm; the encoder of a variant writes just the discriminants that select its arm; and an arm has
the same shape in the declaration, the decoder and the encoder. The code is read as text, word by word.
Main statement: `union_agrees`. -/
namespace XdrSchema.Rust

open Schema (Arm Field Union)

/-! ### Reading code -/

/-- The words of a text, between single blanks. -/
def words (text : List Char) : List (List Char) := text.splitOn ' '

/-- The pattern of a line of a match, which stands before the arrow. -/
def patternOf (line : String) : List (List Char) := (words line.toList).takeWhile (· ≠ ['=', '>'])

/-- The line of a match that is taken for a number: the first that lists it or is for whatever is left. -/
def takenLine? (lines : List String) (n : Int) : Option String :=
  lines.find? fun line => (toString n).toList ∈ patternOf line ∨ patternOf line = [['_']]

/-- Whether a number meets the condition of a guard. -/
def meets (condition : String) (n : Int) : Bool :=
  match words condition.toList.dropLast with
  | _ :: test :: pattern =>
    if test = "!::core::matches!(*_disc,".toList then (toString n).toList ∉ pattern
    else if test = "::core::matches!(*_disc,".toList then (toString n).toList ∈ pattern
    else false
  | _ => false

/-- The code writes the number, which is the carried discriminant if one is carried. What meets the condition of
a guard is refused. -/
def writes (word : String) (n : Int) : List Code → Bool
  | .block condition _ [.line refusal] :: rest =>
    !(meets condition n && refusal =
      "return ::core::result::Result::Err(XdrError::InvalidUnionDiscriminant(*_disc as i64));") &&
      writes word n rest
  | .line text :: _ => text = "_disc.encode(_out)?;" || text = s!"({n}{word}).encode(_out)?;"
  | _ => false

/-! ### Numbers -/

theorem mem_toString {n : Int} {c : Char} (h : c ∈ (toString n).toList) : c.isDigit = true ∨ c = '-' := by
  rw [Int.toString_eq_repr, Int.repr_eq_if] at h
  split at h
  · exact .inl (isDigit_of_mem_repr h)
  · rw [String.toList_append, List.mem_append] at h
    rcases h with h | h
    · exact .inr (by simpa using h)
    · exact .inl (isDigit_of_mem_repr h)

theorem toString_inj {m n : Int} : (toString m).toList = (toString n).toList ↔ m = n := by
  rw [String.toList_inj, Int.toString_eq_repr, Int.toString_eq_repr, Int.repr_inj]

/-! ### Words -/

theorem words_append (text text' : List Char) : words (text ++ ' ' :: text') = words text ++ words text' :=
  List.splitOn_append_cons_self text text'

theorem words_toString (n : Int) : words (toString n).toList = [(toString n).toList] := by
  refine List.splitOn_eq_singleton fun h => ?_
  rcases mem_toString h with h | h
  · exact absurd h (by decide)
  · exact absurd h (by decide)

theorem toString_ne {n : Int} {w : List Char} {c : Char} (hc : c ∈ w) (hdigit : c.isDigit = false)
    (hsign : c ≠ '-') : (toString n).toList ≠ w := by
  rintro rfl
  rcases mem_toString hc with h | h
  · exact absurd (hdigit.symm.trans h) (by decide)
  · exact hsign h

/-! ### Patterns -/

theorem words_pattern_singleton (n : Int) : words (patternText [n]).toList = [(toString n).toList] := by
  rw [patternText, List.map_singleton, String.intercalate_singleton]
  exact words_toString n

theorem words_pattern_cons (n m : Int) (values : List Int) : words (patternText (n :: m :: values)).toList =
    (toString n).toList :: ['|'] :: words (patternText (m :: values)).toList := by
  have htext : (patternText (n :: m :: values)).toList =
      (toString n).toList ++ ' ' :: (['|'] ++ ' ' :: (patternText (m :: values)).toList) := by
    simp [patternText]
  rw [htext, words_append, words_append, words_toString]
  rfl

/-- A pattern lists the numbers that it is made of. -/
theorem toString_mem_words_pattern {values : List Int} (hvalues : values ≠ []) {n : Int} :
    (toString n).toList ∈ words (patternText values).toList ↔ n ∈ values := by
  induction values with
  | nil => exact absurd rfl hvalues
  | cons m values ih =>
    cases values with
    | nil => rw [words_pattern_singleton, List.mem_singleton, List.mem_singleton, toString_inj]
    | cons k values =>
      have hbar : (toString n).toList ≠ ['|'] := toString_ne List.mem_cons_self rfl (by decide)
      rw [words_pattern_cons, List.mem_cons, List.mem_cons, List.mem_cons, toString_inj, or_iff_right hbar,
        ih (List.cons_ne_nil k values)]

/-- In a pattern there is no arrow, nor a name for whatever is left. -/
theorem forall_mem_words_pattern {values : List Int} (hvalues : values ≠ []) :
    ∀ w ∈ words (patternText values).toList, w ≠ ['=', '>'] ∧ w ≠ ['_'] := by
  have hnumber (n : Int) : (toString n).toList ≠ ['=', '>'] ∧ (toString n).toList ≠ ['_'] :=
    ⟨toString_ne List.mem_cons_self rfl (by decide), toString_ne List.mem_cons_self rfl (by decide)⟩
  induction values with
  | nil => exact absurd rfl hvalues
  | cons m values ih =>
    cases values with
    | nil =>
      rw [words_pattern_singleton, List.forall_mem_singleton]
      exact hnumber m
    | cons k values =>
      rw [words_pattern_cons, List.forall_mem_cons, List.forall_mem_cons]
      exact ⟨hnumber m, by decide, ih (List.cons_ne_nil k values)⟩

theorem patternOf_line {pattern rest : String} (h : ∀ w ∈ words pattern.toList, w ≠ ['=', '>']) :
    patternOf (pattern ++ " => " ++ rest) = words pattern.toList := by
  have htext : (pattern ++ " => " ++ rest).toList =
      pattern.toList ++ ' ' :: (['=', '>'] ++ ' ' :: rest.toList) := by
    simp
  have harrow : words ['=', '>'] = [['=', '>']] := rfl
  rw [patternOf, htext, words_append, words_append, harrow, List.takeWhile_append_of_pos (by simpa using h)]
  simp

/-! ### The decoder -/

/-- What stands after the arrow for a discriminant that selects the arm, if it selects one. -/
def outcome (naming : Naming) : Option Arm → String
  | some a => okText ++ "(" ++ (Construct.ofArm naming a).text ++ "),"
  | none => errText ++ "(XdrError::InvalidUnionDiscriminant(_disc as i64)),"

/-- The line for an arm. -/
def caseLine (naming : Naming) (a : Arm) : String :=
  patternText a.values ++ " => " ++ outcome naming (some a)

variable {u : Union} (hu : u.Proper) (naming : Naming)

theorem code_decode : (DecodeBody.ofDefinition naming (.union u)).code =
    [.line (if u.isUnsigned then "let _disc = _cur.read_u32()?;" else "let _disc = _cur.read_u32()? as i32;"),
      .block "match _disc" ""
        ((u.arms.map (caseLine naming) ++ ["_ => " ++ outcome naming u.default]).map .line)] := by
  cases hdefault : u.default <;>
    simp [DecodeBody.ofDefinition, DecodeBody.code, hdefault, caseLine, outcome, String.append_assoc]

include hu

theorem values_ne_nil {a : Arm} (ha : a ∈ u.arms) : a.values ≠ [] := by
  rw [Arm.values, ne_eq, List.map_eq_nil_iff]
  exact hu.labelled a ha

/-- The line of an arm is for its values. -/
theorem patternOf_caseLine {a : Arm} (ha : a ∈ u.arms) {n : Int} :
    ((toString n).toList ∈ patternOf (caseLine naming a) ∨ patternOf (caseLine naming a) = [['_']]) ↔
      n ∈ a.values := by
  have hvalues := values_ne_nil hu ha
  have hwords := forall_mem_words_pattern hvalues
  rw [caseLine, patternOf_line fun w hw => (hwords w hw).1, toString_mem_words_pattern hvalues]
  refine or_iff_left fun hlast => ?_
  exact (hwords ['_'] (by rw [hlast]; exact List.mem_cons_self)).2 rfl

/-- The line of the arm that a discriminant selects is taken. -/
theorem takenLine?_decode (n : Int) : ∃ pattern,
    takenLine? (u.arms.map (caseLine naming) ++ ["_ => " ++ outcome naming u.default]) n =
      some (pattern ++ " => " ++ outcome naming (u.armFor? n)) := by
  have hcases : (u.arms.map (caseLine naming)).find? (fun line =>
      (toString n).toList ∈ patternOf line ∨ patternOf line = [['_']]) =
      (u.arms.find? fun a => n ∈ a.values).map (caseLine naming) := by
    rw [List.find?_map]
    refine congrArg _ (List.find?_congr fun a ha => ?_)
    exact decide_eq_decide.mpr (patternOf_caseLine hu naming ha)
  have hlast : patternOf ("_ => " ++ outcome naming u.default) = [['_']] :=
    @patternOf_line "_" _ (by decide)
  -- the lines of the cases stand for the search among the arms, the last line for what it leaves
  rw [takenLine?, List.find?_append, hcases, Union.armFor?]
  cases u.arms.find? fun a => n ∈ a.values with
  | some a => exact ⟨_, rfl⟩
  | none => exact ⟨"_", by simp [hlast]⟩

omit hu

/-! ### The encoder -/

/-- The words of a guard are its test and those of its pattern. -/
theorem words_guard {condition : String} (h : ' ' ∉ (condition ++ "::core::matches!(*_disc,").toList)
    (values : List Int) :
    words ("if " ++ condition ++ "::core::matches!(*_disc, " ++ patternText values ++ ")").toList.dropLast =
      ['i', 'f'] :: (condition ++ "::core::matches!(*_disc,").toList :: words (patternText values).toList := by
  have htext : ("if " ++ condition ++ "::core::matches!(*_disc, " ++ patternText values ++ ")").toList =
      ['i', 'f'] ++ ' ' :: ((condition ++ "::core::matches!(*_disc,").toList ++ ' ' ::
        (patternText values).toList) ++ [')'] := by
    simp
  have htest : words (condition ++ "::core::matches!(*_disc,").toList =
      [(condition ++ "::core::matches!(*_disc,").toList] := List.splitOn_eq_singleton h
  rw [htext, List.dropLast_concat, words_append, words_append, htest]
  rfl

/-- A number is refused if its pattern does not list it. -/
theorem meets_not {values : List Int} (hvalues : values ≠ []) (n : Int) :
    meets ("if " ++ "!" ++ "::core::matches!(*_disc, " ++ patternText values ++ ")") n =
      decide (n ∉ values) := by
  rw [meets, words_guard (by decide)]
  dsimp only
  rw [if_pos (by decide)]
  exact decide_eq_decide.mpr (not_congr (toString_mem_words_pattern hvalues))

theorem meets_plain {values : List Int} (hvalues : values ≠ []) (n : Int) :
    meets ("if " ++ "" ++ "::core::matches!(*_disc, " ++ patternText values ++ ")") n =
      decide (n ∈ values) := by
  rw [meets, words_guard (by decide)]
  dsimp only
  rw [if_neg (by decide), if_pos (by decide)]
  exact decide_eq_decide.mpr (toString_mem_words_pattern hvalues)

theorem writes_carried (word : String) (n : Int) (rest : List Code) :
    writes word n (.line "_disc.encode(_out)?;" :: rest) = true := by
  simp [writes]

theorem writes_guard (condition word : String) (values : List Int) (n : Int) (rest : List Code) :
    writes word n (Tag.guardCode condition values :: .line "_disc.encode(_out)?;" :: rest) =
      !meets ("if " ++ condition ++ "::core::matches!(*_disc, " ++ patternText values ++ ")") n := by
  rw [Tag.guardCode, writes, writes_carried]
  simp [errText]

theorem writes_oneOf {values : List Int} (hvalues : values ≠ []) (word : String) (n : Int) (rest : List Code) :
    writes word n ((Tag.oneOf values).code ++ rest) = decide (n ∈ values) := by
  refine (writes_guard "!" word values n rest).trans ?_
  rw [meets_not hvalues, decide_not, Bool.not_not]

theorem writes_noneOf (values : List Int) (word : String) (n : Int) (rest : List Code) :
    writes word n ((Tag.noneOf values).code ++ rest) = decide (n ∉ values) := by
  cases values with
  | nil => exact (writes_carried word n rest).trans (by simp)
  | cons k values =>
    refine (writes_guard "" word (k :: values) n rest).trans ?_
    rw [meets_plain (List.cons_ne_nil k values), decide_not]

theorem toList_literal (n : Int) (word : String) : (s!"({n}{word}).encode(_out)?;").toList =
    '(' :: ((toString n).toList ++ (word ++ ").encode(_out)?;").toList) := by
  change ("(" ++ toString n ++ word ++ ").encode(_out)?;").toList = _
  simp

theorem literal_inj {k n : Int} {word : String} :
    s!"({k}{word}).encode(_out)?;" = s!"({n}{word}).encode(_out)?;" ↔ n = k := by
  rw [← String.toList_inj, toList_literal, toList_literal, List.cons_inj_right, List.append_cancel_right_eq,
    toString_inj, eq_comm]

theorem writes_literal (k : Int) (word : String) (n : Int) (rest : List Code) :
    writes word n ((Tag.literal k word).code ++ rest) = decide (n = k) := by
  have hcarried : s!"({k}{word}).encode(_out)?;" ≠ "_disc.encode(_out)?;" := by
    rw [ne_eq, ← String.toList_inj, toList_literal]
    simp
  change (decide (s!"({k}{word}).encode(_out)?;" = "_disc.encode(_out)?;") ||
    decide (s!"({k}{word}).encode(_out)?;" = s!"({n}{word}).encode(_out)?;")) = decide (n = k)
  rw [decide_eq_false hcarried, Bool.false_or]
  exact decide_eq_decide.mpr literal_inj

/-- The code for a case writes the values of its arm, and that for the default arm all that no case has. -/
theorem writes_ofCase {a : Arm} (hvalues : a.values ≠ []) (word : String) (n : Int) (rest : List Code) :
    writes word n ((EncodeArm.ofCase word a).tag.code ++ rest) = decide (n ∈ a.values) := by
  rw [EncodeArm.ofCase]
  dsimp only
  split
  · next k hk =>
    rw [writes_literal, hk]
    exact decide_eq_decide.mpr List.mem_singleton.symm
  · exact writes_oneOf hvalues word n rest

/-! ### Shape -/

/-- What a variant is written with: what stands for the discriminant, unless its arm has just one label, and what
stands for its field, if it has one. -/
def arguments (a : Arm) (discriminant : String) (field : Field → String) : List String :=
  (if a.labels.length = 1 then [] else [discriminant]) ++ (a.field.map field).toList

/-- The pattern of an arm where its variant is encoded. -/
def encodePattern (a : Arm) : String :=
  applied ("Self::" ++ identifier a.variant) (arguments a "_disc" fun _ => "_v")

theorem isCarried_ofCase (word : String) (a : Arm) :
    (EncodeArm.ofCase word a).tag.isCarried = true ↔ a.labels.length ≠ 1 := by
  rw [EncodeArm.ofCase]
  dsimp only
  split
  · next k hk =>
    have hlength : a.labels.length = 1 := by simpa [Arm.values] using congrArg List.length hk
    simp [Tag.isCarried, hlength]
  · next hmany =>
    refine iff_of_true rfl fun hlength => ?_
    obtain ⟨l, hl⟩ := List.length_eq_one_iff.mp hlength
    exact hmany l.value (by rw [Arm.values, hl]; rfl)

theorem code_variant (naming : Naming) (word : String) (a : Arm) : (Variant.ofArm naming word a).code =
    .line (applied (identifier a.variant) (arguments a word fun f => (naming.type f.type).text) ++ ",") := by
  have hcarries : a.carriesDiscriminant = true ↔ a.labels.length ≠ 1 := decide_eq_true_iff
  by_cases hlength : a.labels.length = 1 <;>
    simp [Variant.code, Variant.ofArm, arguments, hcarries, hlength, Function.comp_def]

theorem text_construct (naming : Naming) (a : Arm) : (Construct.ofArm naming a).text =
    applied ("Self::" ++ identifier a.variant)
      (arguments a "_disc" fun f => (Read.ofType naming f.type).text ++ "?") := by
  have hcarries : a.carriesDiscriminant = true ↔ a.labels.length ≠ 1 := decide_eq_true_iff
  by_cases hlength : a.labels.length = 1 <;>
    simp [Construct.text, Construct.ofArm, arguments, hcarries, hlength, Function.comp_def]

theorem code_encodeArm {e : EncodeArm} {a : Arm} (hvariant : e.variant = a.variant)
    (htag : e.tag.isCarried = true ↔ a.labels.length ≠ 1) (hpayload : e.payload.isSome = a.field.isSome) :
    ∃ last, e.code = .block (encodePattern a ++ " =>") "" (e.tag.code ++ [.line last]) := by
  have hbinds : (if e.tag.isCarried then ["_disc"] else []) ++ (if e.payload.isSome then ["_v"] else []) =
      arguments a "_disc" fun _ => "_v" := by
    rw [arguments, hpayload]
    cases a.field <;> by_cases hlength : a.labels.length = 1 <;> simp [htag, hlength]
  unfold EncodeArm.code
  dsimp only
  rw [hbinds, hvariant, encodePattern]
  exact ⟨_, rfl⟩

/-! ### Selection -/

section Selection

variable (hu : u.Proper) (n : Int)

include hu

/-- Two arms of one variant are the same. -/
theorem eq_of_variant_eq {a b : Arm} (ha : a ∈ u.allArms) (hb : b ∈ u.allArms)
    (h : b.variant = a.variant) : b = a :=
  List.inj_on_of_nodup_map hu.variants hb ha h

/-- The selected arm is the one of a variant if and only if it is that arm. -/
theorem selects_variant_iff {a : Arm} (ha : a ∈ u.allArms) :
    (∃ b, u.armFor? n = some b ∧ b.variant = a.variant) ↔ u.armFor? n = some a := by
  constructor
  · rintro ⟨b, hb, hvariant⟩
    rwa [eq_of_variant_eq hu ha (Wire.mem_allArms_of_armFor? hb) hvariant] at hb
  · exact fun h => ⟨a, h, rfl⟩

/-- The arm of a case is selected by its values. -/
theorem armFor?_eq_case_iff {a : Arm} (ha : a ∈ u.arms) : u.armFor? n = some a ↔ n ∈ a.values := by
  refine ⟨fun h => ?_, Wire.armFor?_of_mem hu ha⟩
  by_cases hn : n ∈ u.caseValues
  · obtain ⟨b, hb, hnb⟩ := List.mem_flatMap.mp hn
    obtain rfl := Option.some_inj.mp ((Wire.armFor?_of_mem hu hb hnb).symm.trans h)
    exact hnb
  · have hdefault : a ∈ u.default := (Wire.armFor?_of_not_mem hn).symm.trans h
    exact absurd (hu.unlabelled a hdefault) (hu.labelled a ha)

/-- The default arm is selected by whatever no case has. -/
theorem armFor?_eq_default_iff {a : Arm} (ha : a ∈ u.default) : u.armFor? n = some a ↔ n ∉ u.caseValues := by
  refine ⟨fun h hn => ?_, fun hn => (Wire.armFor?_of_not_mem hn).trans ha⟩
  obtain ⟨b, hb, hnb⟩ := List.mem_flatMap.mp hn
  obtain rfl := Option.some_inj.mp ((Wire.armFor?_of_mem hu hb hnb).symm.trans h)
  exact absurd (hu.unlabelled b ha) (hu.labelled b hb)

end Selection

/-! ### Agreement -/

/-- A block of the encoder is for an arm: its pattern has the shape of the arm, and a discriminant is written if
and only if it selects the variant. -/
def EncodesArm (u : Union) (a : Arm) (block : Code) : Prop :=
  ∃ body, block = .block (encodePattern a ++ " =>") "" body ∧
    ∀ n, writes (discriminantType u) n body = true ↔ ∃ b, u.armFor? n = some b ∧ b.variant = a.variant

/-- What is generated for a union agrees with which arm a discriminant selects. -/
structure Item.Agrees (naming : Naming) (u : Union) (i : Item) : Prop where
  decode : ∃ lines, i.decoder.body.code =
      [.line (if u.isUnsigned then "let _disc = _cur.read_u32()?;" else "let _disc = _cur.read_u32()? as i32;"),
        .block "match _disc" "" (lines.map .line)] ∧
    ∀ n, ∃ pattern, takenLine? lines n = some (pattern ++ " => " ++ outcome naming (u.armFor? n))
  encode : ∃ blocks, i.encoder.body.code = [.block "match self" "" blocks] ∧
    List.Forall₂ (EncodesArm u) u.allArms blocks
  declared : i.declaration.body.code i.declaration.target =
    [.block ("pub enum " ++ i.declaration.target.text) "" (u.allArms.map fun a =>
      .line (applied (identifier a.variant)
        (arguments a (discriminantType u) fun f => (naming.type f.type).text) ++ ","))]
  constructed : ∀ a ∈ u.allArms, (Construct.ofArm naming a).text = applied ("Self::" ++ identifier a.variant)
    (arguments a "_disc" fun f => (Read.ofType naming f.type).text ++ "?")

theorem encodesArm_case (hu : u.Proper) {a : Arm} (ha : a ∈ u.arms) :
    EncodesArm u a (EncodeArm.ofCase (discriminantType u) a).code := by
  obtain ⟨last, hcode⟩ := code_encodeArm (e := EncodeArm.ofCase (discriminantType u) a) rfl
    (isCarried_ofCase (discriminantType u) a) Option.isSome_map
  refine ⟨_, hcode, fun n => ?_⟩
  rw [writes_ofCase (values_ne_nil hu ha), selects_variant_iff hu n (List.mem_append_left _ ha),
    armFor?_eq_case_iff hu n ha, decide_eq_true_iff]

theorem encodesArm_default (hu : u.Proper) {a : Arm} (ha : a ∈ u.default) :
    EncodesArm u a (EncodeArm.ofDefault u.caseValues a).code := by
  have hlabels : a.labels.length ≠ 1 := by simp [hu.unlabelled a ha]
  obtain ⟨last, hcode⟩ := code_encodeArm (e := EncodeArm.ofDefault u.caseValues a) rfl
    (iff_of_true rfl hlabels) Option.isSome_map
  refine ⟨_, hcode, fun n => ?_⟩
  rw [EncodeArm.ofDefault, writes_noneOf,
    selects_variant_iff hu n (List.mem_append_right _ (Option.mem_toList.mpr ha)),
    armFor?_eq_default_iff hu n ha, decide_eq_true_iff]

theorem agrees_ofDefinition (hu : u.Proper) (naming : Naming) (settings : Settings) (sizes : Wire.SizeTable)
    (name : String) : (Item.ofDefinition naming settings sizes name (.union u)).Agrees naming u where
  decode := ⟨_, code_decode naming, takenLine?_decode hu naming⟩
  encode := by
    refine ⟨_, rfl, ?_⟩
    rw [List.map_append, List.map_map, Union.allArms]
    refine List.rel_append ?_ ?_
    · exact List.forall₂_map_right_iff.mpr (List.forall₂_same.mpr fun a ha => encodesArm_case hu ha)
    · cases hdefault : u.default with
      | none => exact .nil
      | some a => exact .cons (encodesArm_default hu hdefault) .nil
  declared := by
    change [Code.block _ "" (List.map _ (List.map _ _))] = _
    rw [List.map_map]
    exact congrArg (fun lines => [Code.block _ "" lines]) (List.map_congr_left fun a _ => code_variant naming _ a)
  constructed a _ := text_construct naming a

/-- Every union of an accepted specification is generated so that declaration, decoder and encoder agree. -/
theorem union_agrees {source : String} {s : Schema} (h : (Schema.analyzeText source).result = .ok s)
    {name : String} {u : Union} (hu : s.definition? name = some (.union u)) (settings : Settings)
    (sourceName : String) : ∃ i ∈ (Module.ofSchema s settings sourceName).items, i.declaration.name = name ∧
      i.Agrees (Naming.ofSchema s) u := by
  have hs := Schema.wellFormed_of_analyzeText h
  exact ⟨_, (mem_items_iff hs settings sourceName).mpr ⟨name, _, hu, rfl⟩, rfl,
    agrees_ofDefinition (hs.proper name _ hu) _ settings _ name⟩

theorem union_agrees_sample : ∃ i ∈ (Module.ofSchema Schema.sampleSchema Settings.default "sample.x").items,
    i.declaration.name = "U" ∧ i.Agrees (Naming.ofSchema Schema.sampleSchema) Schema.sampleUnion :=
  union_agrees Schema.analyzeText_sampleText (by decide +kernel) Settings.default "sample.x"

end XdrSchema.Rust
