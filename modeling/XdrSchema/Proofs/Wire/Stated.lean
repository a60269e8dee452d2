import XdrSchema.Proofs.Wire.Refusal
import XdrSchema.Proofs.Wire.RoundTrip

/-! The numbers that a value states. A value has the same places as its normal form, which is what its bytes are read
as, and at each place the writer has written the number that stands there, by which a union selects its arm. The
number beside a label is not among these: it is the label that is written. Main statement: `writes_stated_numbers`. -/
namespace XdrSchema.Wire

open Schema (Ref Ty Definition Arm Union)

/-! ### Numbers -/

/-- The bytes are the word of a number, signed or not. -/
def IsWord (isUnsigned : Bool) (width : Nat) (n : Int) (bytes : List UInt8) : Prop :=
  ∃ w < wordCount width, n = (if isUnsigned then (w : Int) else signed width w) ∧ bytes = wordBytes width w

/-- Whether the words of an integer type are unsigned. -/
def unsignedInteger? : Primitive → Option Bool
  | .int | .hyper => some false
  | .unsignedInt | .unsignedHyper => some true
  | .float | .double | .bool => none

/-- A value of the type states an exact number itself, and not just by what is in it. -/
def HoldsNumber (s : Schema) : Ty → Prop
  | .plain (.primitive p) => p ≠ .float ∧ p ≠ .double
  | .plain (.named r) => ∃ d, s.definition? r.name = some d ∧ (d.kind = .enum ∨ d.kind = .union)
  | _ => False

/-- The number that a value of the type states is the one in another value and the one in the bytes. An enumeration
states the number of its label, a union its discriminant, by which the named arm is selected. -/
inductive Stated (s : Schema) : Ty → Value → Value → List UInt8 → Prop
  | integer {p : Primitive} {isUnsigned : Bool} {v : Value} {n : Int} {bytes : List UInt8}
      (hp : unsignedInteger? p = some isUnsigned) (hn : v.int? = some n) (hword : IsWord isUnsigned p.size n bytes) :
    Stated s (.plain (.primitive p)) v (.int n) bytes
  | bool {v : Value} (b : Bool) (hv : v.equalsInt (if b then 1 else 0)) :
    Stated s (.plain (.primitive .bool)) v (.bool b) (wordBytes 4 (if b then 1 else 0))
  | label {r : Ref} {labels : List (String × Int)} {v : Value} {label : String} {n : Int} {bytes : List UInt8}
      (hd : s.definition? r.name = some (.enum labels)) (hv : v = .text label ∨ ∃ m, v = .enum r.name label m)
      (hn : Schema.labelValue? labels label = some n) (hword : IsWord false 4 n bytes) :
    Stated s (.plain (.named r)) v (.enum r.name label (.int n)) bytes
  | arm {r : Ref} {u : Union} {a : Arm} {d v v' : Value} {n : Int} {word content : List UInt8}
      (hd : s.definition? r.name = some (.union u)) (hn : d.int? = some n ∨ d = .absent ∧ a.values = [n])
      (harm : u.armFor? n = some a) (hword : IsWord u.isUnsigned 4 n word) :
    Stated s (.plain (.named r)) (.union r.name a.variant d v) (.union r.name a.variant (.int n) v') (word ++ content)
  | other {t : Ty} {v v' : Value} {bytes : List UInt8} (ht : ¬ HoldsNumber s t) : Stated s t v v' bytes

namespace Encode

variable {s : Schema}

theorem stated_primitive {p : Primitive} {v : Value} {bytes : List UInt8} (h : primitive p v = .ok bytes) :
    Stated s (.plain (.primitive p)) v (Normal.primitive p v) bytes := by
  unfold primitive at h
  cases p with
  | bool =>
    dsimp only at h
    split at h
    · next hone =>
      cases h
      rw [Normal.primitive, hone]
      exact .bool true hone
    · next hone =>
      split at h
      · next hzero =>
        cases h
        rw [Normal.primitive, Bool.eq_false_iff.mpr hone]
        exact .bool false hzero
      · cases h
  | float | double => exact .other (by simp [HoldsNumber])
  | int | hyper =>
    obtain ⟨-, h⟩ := guard_eq_ok.mp h
    obtain ⟨n, w, hn, hw, hsigned, rfl⟩ := signedWord_eq_ok (by decide) h
    rw [Normal.primitive, hn]
    exact .integer rfl hn ⟨w, hw, hsigned, rfl⟩
  | unsignedInt | unsignedHyper =>
    obtain ⟨-, h⟩ := guard_eq_ok.mp h
    obtain ⟨w, hn, hw, rfl⟩ := unsignedWord_eq_ok h
    rw [Normal.primitive, hn]
    exact .integer rfl hn ⟨w, hw, rfl, rfl⟩

theorem labelOf_eq_ok {enum label : String} {v : Value} (h : labelOf enum v = .ok label) :
    v = .text label ∨ ∃ m, v = .enum enum label m := by
  unfold labelOf at h
  split at h
  · next m =>
    split at h
    · next he =>
      cases h
      exact .inr ⟨m, by rw [he]⟩
    · cases h
  · cases h
    exact .inl rfl
  · cases h

theorem exists_union_of_named {name : String} {u : Union} (hd : s.definition? name = some (.union u)) {v : Value}
    {bytes : List UInt8} (h : named s name v = .ok bytes) : ∃ variant d x, v = .union name variant d x := by
  rw [named, hd] at h
  dsimp only at h
  split at h
  · next n variant d x =>
    split at h
    · next hn => exact ⟨variant, d, x, by rw [hn]⟩
    · cases h
  · cases h

theorem stated_type (hs : s.WellFormed) {t : Ty} {v : Value} {bytes : List UInt8} (h : type s t v = .ok bytes) :
    Stated s t v (Normal.type s t v) bytes := by
  cases t with
  | array | vector | optional | fixedBytes | bytes | string => exact .other nofun
  | plain b =>
    cases b with
    | primitive p =>
      rw [type, base] at h
      rw [Normal.type, Normal.base]
      exact stated_primitive h
    | named r =>
      cases hd : s.definition? r.name with
      | none =>
        rw [type, base, named, hd] at h
        cases h
      | some d =>
        cases d with
        | typedef t => exact .other (by simp [HoldsNumber, hd, Definition.kind])
        | struct fs => exact .other (by simp [HoldsNumber, hd, Definition.kind])
        | enum labels =>
          rw [type, base, named, hd] at h
          rw [Normal.type, Normal.base, Normal.named, hd]
          obtain ⟨label, hlabel, hword⟩ := bind_eq_ok_iff.mp h
          split at hword
          · next n hn =>
            obtain ⟨_, w, ⟨⟩, hw, hsigned, rfl⟩ := signedWord_eq_ok (by decide) hword
            dsimp only
            rw [Normal.enum, hlabel]
            dsimp only
            rw [hn]
            exact .label hd (labelOf_eq_ok hlabel) hn ⟨w, hw, hsigned, rfl⟩
          · cases hword
        | union u =>
          have hnamed := h
          rw [type, base] at hnamed
          obtain ⟨variant, d, x, rfl⟩ := exists_union_of_named hd hnamed
          obtain ⟨a, d', w, content, v', hselect, hw, hint, harm, rfl, rfl, hnormal, -⟩ :=
            exists_of_union hd (hs.proper _ _ hd) h
          rw [hnormal]
          refine .arm hd ?_ harm ⟨w, hw, rfl, rfl⟩
          rcases discriminant_of_select hselect with rfl | ⟨rfl, n, hn, rfl⟩
          · exact .inl hint
          · cases hint
            exact .inr ⟨rfl, hn⟩

end Encode

/-! ### Contradictions -/

/-- The discriminant that is given does not select the arm that is named. -/
inductive Contradictory (s : Schema) : Ty → Value → Prop
  | union {r : Ref} {u : Union} {variant : String} {d v : Value} (hd : s.definition? r.name = some (.union u))
      (hgiven : d ≠ .absent) (h : ∀ n a, d.int? = some n → u.armFor? n = some a → a.variant ≠ variant) :
    Contradictory s (.plain (.named r)) (.union r.name variant d v)

/-- A named type with a contradictory value somewhere in its own is defined. -/
theorem Contradictory.isSome_of_at {s : Schema} {r : Ref} {v w : Value} {path : List Step} {t : Ty}
    (h : Contradictory s t w) (hat : At s (.plain (.named r)) v path t w) : (s.definition? r.name).isSome := by
  cases hat with
  | here =>
    cases h with
    | union hd _ _ => exact Option.isSome_of_eq_some hd
  | target hd _ | field hd _ _ _ | payload hd _ _ _ => exact Option.isSome_of_eq_some hd

theorem Contradictory.not_stated {s : Schema} {t : Ty} {v w : Value} {bytes : List UInt8} (h : Contradictory s t v) :
    ¬ Stated s t v w bytes := by
  intro hstated
  obtain ⟨hd, hgiven, hselects⟩ := h
  cases hstated with
  | label hd' _ _ _ => cases hd.symm.trans hd'
  | arm hd' hn harm _ =>
    cases hd.symm.trans hd'
    rcases hn with hn | ⟨rfl, -⟩
    · exact hselects _ _ hn harm rfl
    · exact hgiven rfl
  | other ht => exact ht ⟨_, hd, .inr rfl⟩

namespace Codec

variable {s : Schema}

/-- The numbers of a value that is written are those of its bytes, at every place, and those of the value that the bytes
are read as; a value that contradicts itself anywhere is refused. -/
theorem writes_stated_numbers {source : String} (h : (Schema.analyzeText source).result = .ok s) (maxDepth : Int)
    (r : Ref) (v : Value) :
    (∀ bytes, (ofSchema s maxDepth).encode r.name v = .ok bytes → ∃ v',
        (v'.nesting ≤ maxDepth → (ofSchema s maxDepth).decode r.name bytes = .ok v') ∧
        (maxDepth < v'.nesting → (ofSchema s maxDepth).decode r.name bytes = .error (.depth maxDepth)) ∧
        ∀ path t w, At s (.plain (.named r)) v path t w → ∃ w' stretch, At s (.plain (.named r)) v' path t w' ∧
          Encode.type s t w = .ok stretch ∧ stretch <:+: bytes ∧ Stated s t w w' stretch) ∧
      ∀ path t w, At s (.plain (.named r)) v path t w → Contradictory s t w →
        ∃ e, (ofSchema s maxDepth).encode r.name v = .error e ∧ Refused s (.plain (.named r)) v e := by
  have hs := Schema.wellFormed_of_analyzeText h
  have htype : Encode.type s (.plain (.named r)) v = (ofSchema s maxDepth).encode r.name v := by
    rw [Encode.type, Encode.base]
    rfl
  have hplaces {bytes : List UInt8} (hv : (ofSchema s maxDepth).encode r.name v = .ok bytes) (path : List Step) (t : Ty)
      (w : Value) (hat : At s (.plain (.named r)) v path t w) : ∃ w' stretch,
        At s (.plain (.named r)) (Normal.named s r.name v) path t w' ∧ Encode.type s t w = .ok stretch ∧
        stretch <:+: bytes ∧ Stated s t w w' stretch := by
    obtain ⟨stretch, hat', hstretch, hinfix⟩ := Encode.exists_stretch hs hat (htype.trans hv)
    rw [Normal.type, Normal.base] at hat'
    exact ⟨_, stretch, hat', hstretch, hinfix, Encode.stated_type hs hstretch⟩
  refine ⟨fun bytes hv => ?_, fun path t w hat hcontradictory => ?_⟩
  · obtain ⟨hread, hlimit⟩ := decode_of_spells maxDepth hs (Encode.spells_named hs (Nat.le_refl _) hv)
    exact ⟨_, hread, hlimit, hplaces hv⟩
  · cases hv : (ofSchema s maxDepth).encode r.name v with
    | ok bytes =>
      obtain ⟨_, _, -, -, -, hstated⟩ := hplaces hv path t w hat
      exact absurd hstated hcontradictory.not_stated
    | error e =>
      have hname := hcontradictory.isSome_of_at hat
      exact ⟨e, rfl, Encode.refused_named hs v hname e hv⟩

/-- The loose value states a truth value for the number of its payload, and the discriminant of the other value is
that of another arm. -/
theorem writes_stated_numbers_sample :
    (∃ v', (v'.nesting ≤ (1 : Int) → (ofSchema Schema.sampleSchema 1).decode "U" looseBytes = .ok v') ∧
        ∃ w' stretch,
          At Schema.sampleSchema (.plain (.named ⟨"U", .union⟩)) v' [.payload] (.plain (.primitive .int)) w' ∧
          stretch <:+: looseBytes ∧ Stated Schema.sampleSchema (.plain (.primitive .int)) (.bool true) w' stretch) ∧
      ∃ e, (ofSchema Schema.sampleSchema 1).encode "U" (.union "U" "Default" (.int 0) .absent) = .error e ∧
        Refused Schema.sampleSchema (.plain (.named ⟨"U", .union⟩)) (.union "U" "Default" (.int 0) .absent) e := by
  have hU : Schema.sampleSchema.definition? "U" = some (.union Schema.sampleUnion) := rfl
  have h := writes_stated_numbers Schema.analyzeText_sampleText 1 ⟨"U", .union⟩
  constructor
  · have hpayload : At Schema.sampleSchema (.plain (.named ⟨"U", .union⟩)) looseValue [.payload]
        (.plain (.primitive .int)) (.bool true) :=
      .payload (r := ⟨"U", .union⟩) (a := Schema.sampleArm) hU (by decide +kernel) rfl .here
    obtain ⟨v', hread, -, hplaces⟩ := (h looseValue).1 looseBytes (encode_looseValue 1)
    obtain ⟨w', stretch, hat, -, hinfix, hstated⟩ := hplaces [.payload] _ _ hpayload
    exact ⟨v', hread, w', stretch, hat, hinfix, hstated⟩
  · refine (h (.union "U" "Default" (.int 0) .absent)).2 [] _ _ .here (.union hU nofun ?_)
    rintro n a ⟨⟩ ha
    have hfirst : Schema.sampleUnion.armFor? 0 = some Schema.sampleArm := by decide +kernel
    cases hfirst.symm.trans ha
    decide

/-! ### A number beside a label -/

def kindText : String := "enum Kind \x7b CIRCLE = 0, SQUARE = 1 \x7d;"

def kindSchema : Schema := Schema.withTypes kindText [("Kind", .enum [("CIRCLE", 0), ("SQUARE", 1)])]

/-- A value that states 99 beside a label is accepted, and the number of the label is written. -/
theorem writes_number_of_label : (Schema.analyzeText kindText).result = .ok kindSchema ∧
    (ofSchema kindSchema 4).encode "Kind" (.enum "Kind" "CIRCLE" (.int 99)) = .ok [0, 0, 0, 0] ∧
      (ofSchema kindSchema 4).decode "Kind" [0, 0, 0, 0] = .ok (.enum "Kind" "CIRCLE" (.int 0)) := by
  have hschema : (Schema.analyzeText kindText).result = .ok kindSchema :=
    Schema.analyzeText_eq_ok (by decide +kernel)
  have hs := Schema.wellFormed_of_analyzeText hschema
  have hKind : kindSchema.definition? "Kind" = some (.enum [("CIRCLE", 0), ("SQUARE", 1)]) := rfl
  have hwritten : Encode.named kindSchema "Kind" (.enum "Kind" "CIRCLE" (.int 99)) = .ok [0, 0, 0, 0] := by
    rw [Encode.named, hKind]
    rfl
  have hnormal : Normal.named kindSchema "Kind" (.enum "Kind" "CIRCLE" (.int 99)) = .enum "Kind" "CIRCLE" (.int 0) := by
    rw [Normal.named, hKind]
    rfl
  have hread := (decode_of_spells 4 hs (Encode.spells_named hs (Nat.le_refl _) hwritten)).1
  rw [hnormal] at hread
  exact ⟨hschema, hwritten, hread (by decide)⟩

end Codec

end XdrSchema.Wire
