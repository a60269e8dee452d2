import XdrSchema.Proofs.Schema.Resolve
import XdrSchema.Proofs.Wire.Complete
import XdrSchema.Proofs.Wire.Encode
import XdrSchema.Proofs.Wire.Sound

/-! There and back. Decoded data is encoded as the same bytes, and encoded data is decoded as the normal
form of the value. -/
namespace XdrSchema.Wire.Codec

variable {source : String} {s : Schema} {maxDepth : Int} {name : String} {v : Value}
  {bytes : List UInt8}

/-- Decoding and encoding again gives back the bytes, if no number that was read is a NaN. -/
theorem encode_of_decode (h : (Schema.analyzeText source).result = .ok s)
    (hdecode : (ofSchema s maxDepth).decode name bytes = .ok v) (hnan : v.hasNaN = false) :
    (ofSchema s maxDepth).encode name v = .ok bytes :=
  (Encode.named_of_spells (Schema.wellFormed_of_analyzeText h) (spells_of_decode hdecode hnan)).2

def sampleBytes : List UInt8 :=
  [0, 0, 0, 0, 255, 255, 255, 249, 63, 128, 0, 0, 0, 0, 0, 1, 128, 0, 0, 0, 0, 0, 0, 1] ++
    [128, 0, 0, 5, 0, 0, 0, 2, 1, 2, 0, 0, 255, 128, 0, 0, 64, 0, 0, 0, 64, 64, 0, 0, 0, 0, 0, 0]

/-- What the sample bytes hold: two list items, the second in the default arm. -/
def sampleValue : Value :=
  ((ofSchema Schema.sampleSchema 4).decode "L" sampleBytes).toOption.getD .absent

theorem decode_sampleBytes :
    (ofSchema Schema.sampleSchema 4).decode "L" sampleBytes = .ok sampleValue := by
  have hsome : ((ofSchema Schema.sampleSchema 4).decode "L" sampleBytes).toOption.isSome = true := by
    decide +kernel
  unfold sampleValue
  cases h : (ofSchema Schema.sampleSchema 4).decode "L" sampleBytes with
  | ok v => rfl
  | error e =>
    rw [h] at hsome
    cases hsome

theorem encode_sampleValue :
    (ofSchema Schema.sampleSchema 4).encode "L" sampleValue = .ok sampleBytes :=
  encode_of_decode Schema.analyzeText_sampleText decode_sampleBytes (by decide +kernel)

/-- Encoded data is decoded as the normal form of the value, as long as the definitions nested in it
(a label counts as one) do not exceed the budget; the normal form has the same bytes. -/
theorem decode_of_encode (h : (Schema.analyzeText source).result = .ok s)
    (hencode : (ofSchema s maxDepth).encode name v = .ok bytes) :
    ((Normal.named s name v).nesting ≤ maxDepth →
        (ofSchema s maxDepth).decode name bytes = .ok (Normal.named s name v)) ∧
      (ofSchema s maxDepth).encode name (Normal.named s name v) = .ok bytes ∧
      (maxDepth < (Normal.named s name v).nesting →
        (ofSchema s maxDepth).decode name bytes = .error (.depth maxDepth)) := by
  have hs := Schema.wellFormed_of_analyzeText h
  have hspells := Encode.spells_named hs (Nat.le_refl _) hencode
  obtain ⟨hread, hlimit⟩ := decode_of_spells maxDepth hs hspells
  exact ⟨hread, (Encode.named_of_spells hs hspells).2, hlimit⟩

/-- A value in a loose shape: without its discriminant, and with a truth value for an integer. -/
def looseValue : Value := .union "U" "A" .absent (.bool true)

def looseBytes : List UInt8 := [0, 0, 0, 0, 0, 0, 0, 1]

theorem encode_looseValue (maxDepth : Int) :
    (ofSchema Schema.sampleSchema maxDepth).encode "U" looseValue = .ok looseBytes := by
  have hU : Schema.sampleSchema.definition? "U" = some (.union Schema.sampleUnion) := rfl
  rw [encode, ofSchema, looseValue, Encode.named, hU]
  refine (if_pos rfl).trans (bind_eq_ok_iff.mpr ⟨(_, .int 0), rfl, ?_⟩)
  dsimp only
  rw [Encode.ite_bind]
  refine bind_eq_ok_iff.mpr ⟨[0, 0, 0, 0], rfl, bind_eq_ok_iff.mpr ⟨[0, 0, 0, 1], ?_, rfl⟩⟩
  rw [Encode.type, Encode.base]
  rfl

theorem normal_looseValue :
    Normal.named Schema.sampleSchema "U" looseValue = .union "U" "A" (.int 0) (.int 1) := by
  have hU : Schema.sampleSchema.definition? "U" = some (.union Schema.sampleUnion) := rfl
  have hselect : Encode.select "U" Schema.sampleUnion "A" .absent = .ok (Schema.sampleArm, .int 0) := rfl
  rw [looseValue, Normal.named, hU]
  dsimp only
  rw [hselect]
  dsimp only [Schema.sampleArm]
  rw [Normal.type, Normal.base]
  rfl

/-- One level is enough for it, and none is not. -/
theorem decode_looseBytes :
    (ofSchema Schema.sampleSchema 1).decode "U" looseBytes = .ok (.union "U" "A" (.int 0) (.int 1)) ∧
      (ofSchema Schema.sampleSchema 0).decode "U" looseBytes = .error (.depth 0) := by
  have h := decode_of_encode Schema.analyzeText_sampleText (encode_looseValue 1)
  have h' := decode_of_encode Schema.analyzeText_sampleText (encode_looseValue 0)
  rw [normal_looseValue] at h h'
  exact ⟨h.1 (by decide), h'.2.2 (by decide)⟩

end XdrSchema.Wire.Codec
