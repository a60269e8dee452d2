import XdrSchema.Proofs.Wire.SizeTable
import XdrSchema.Proofs.Wire.Word
import XdrSchema.Wire.Encode

/-! The wire format as a relation: which bytes spell which value of a type. The relation follows the
reader, level by level; the lengths it allows are those of the size table. -/
namespace XdrSchema.Wire

namespace Value

mutual

/-- The number of definitions nested along the deepest path of a value. -/
def nesting : Value → Nat
  | list items | tuple items => nestingAll items
  | enum .. => 1
  | struct _ fields => nestingFields fields + 1
  | union _ _ _ v | typedef _ v => nesting v + 1
  | absent | bool _ | int _ | float _ | bytes _ | text _ => 0

def nestingAll : List Value → Nat
  | [] => 0
  | v :: rest => max (nesting v) (nestingAll rest)

def nestingFields : List (String × Value) → Nat
  | [] => 0
  | (_, v) :: rest => max (nesting v) (nestingFields rest)

end

mutual

/-- Some number in the value is a NaN. -/
def hasNaN : Value → Bool
  | float d => d.isNaN
  | list items | tuple items => hasNaNAll items
  | enum _ _ v | typedef _ v => hasNaN v
  | struct _ fields => hasNaNFields fields
  | union _ _ d v => hasNaN d || hasNaN v
  | absent | bool _ | int _ | bytes _ | text _ => false

def hasNaNAll : List Value → Bool
  | [] => false
  | v :: rest => hasNaN v || hasNaNAll rest

def hasNaNFields : List (String × Value) → Bool
  | [] => false
  | (_, v) :: rest => hasNaN v || hasNaNFields rest

end

end Value

open Schema (Ref Ty Definition Union)

/-! ### The format -/

/-- A word of a float is one that survives as a double; this leaves out NaNs that are not quiet. -/
inductive SpellsPrimitive : Primitive → Value → List UInt8 → Prop
  | int {w : Nat} (h : w < wordCount 4) : SpellsPrimitive .int (.int (signed 4 w)) (wordBytes 4 w)
  | unsignedInt {w : Nat} (h : w < wordCount 4) : SpellsPrimitive .unsignedInt (.int w) (wordBytes 4 w)
  | hyper {w : Nat} (h : w < wordCount 8) : SpellsPrimitive .hyper (.int (signed 8 w)) (wordBytes 8 w)
  | unsignedHyper {w : Nat} (h : w < wordCount 8) :
    SpellsPrimitive .unsignedHyper (.int w) (wordBytes 8 w)
  | float {w : Nat} (h : (Number.Double.ofSingle w).toSingle? = some w) :
    SpellsPrimitive .float (.float (.ofSingle w)) (wordBytes 4 w)
  | double {w : Nat} (h : w < wordCount 8) : SpellsPrimitive .double (.float ⟨w⟩) (wordBytes 8 w)
  | bool (b : Bool) : SpellsPrimitive .bool (.bool b) (wordBytes 4 b.toNat)

/-- Items one after another. -/
inductive SpellsItems (item : Value → List UInt8 → Prop) : List Value → List UInt8 → Prop
  | nil : SpellsItems item [] []
  | cons {v : Value} {items : List Value} {bytes rest : List UInt8} (first : item v bytes)
    (others : SpellsItems item items rest) : SpellsItems item (v :: items) (bytes ++ rest)

/-- A length that the bound and the length word allow. -/
def Fits (bound : Option Nat) (n : Nat) : Prop := n ≤ bound.getD maxLength ∧ n ≤ maxLength

/-- What a discriminant word stands for. -/
def discriminantOf (u : Union) (w : Nat) : Int := if u.isUnsigned then w else signed 4 w

variable (visit : String → Value → List UInt8 → Prop)

def SpellsBase : Base Ref → Value → List UInt8 → Prop
  | .primitive p => SpellsPrimitive p
  | .named r => visit r.name

inductive SpellsType : Ty → Value → List UInt8 → Prop
  | plain {b : Base Ref} {v : Value} {bytes : List UInt8} (h : SpellsBase visit b v bytes) :
    SpellsType (.plain b) v bytes
  | array {b : Base Ref} {n : Nat} {items : List Value} {bytes : List UInt8} (hlen : items.length = n)
    (h : SpellsItems (SpellsBase visit b) items bytes) : SpellsType (.array b n) (.list items) bytes
  | vector {b : Base Ref} {n : Option Nat} {items : List Value} {bytes : List UInt8}
    (hlen : Fits n items.length) (h : SpellsItems (SpellsBase visit b) items bytes) :
    SpellsType (.vector b n) (.list items) (wordBytes 4 items.length ++ bytes)
  | absent {b : Base Ref} : SpellsType (.optional b) .absent (wordBytes 4 0)
  | present {b : Base Ref} {v : Value} {bytes : List UInt8} (h : SpellsBase visit b v bytes) :
    SpellsType (.optional b) v (wordBytes 4 1 ++ bytes)
  | fixedBytes {n : Nat} {data : List UInt8} (hlen : data.length = n) :
    SpellsType (.fixedBytes n) (.bytes data) (Encode.padded data)
  | bytes {n : Option Nat} {data : List UInt8} (hlen : Fits n data.length) :
    SpellsType (.bytes n) (.bytes data) (wordBytes 4 data.length ++ Encode.padded data)
  | string {n : Option Nat} {data : List UInt8} (hlen : Fits n data.length) :
    SpellsType (.string n) (.bytes data) (wordBytes 4 data.length ++ Encode.padded data)

inductive SpellsFields : List Schema.Field → List (String × Value) → List UInt8 → Prop
  | nil : SpellsFields [] [] []
  | cons {f : Schema.Field} {fs : List Schema.Field} {v : Value} {fields : List (String × Value)}
    {bytes rest : List UInt8} (first : SpellsType visit f.type v bytes)
    (others : SpellsFields fs fields rest) :
    SpellsFields (f :: fs) ((f.name, v) :: fields) (bytes ++ rest)

inductive SpellsDefinition (name : String) : Definition → Value → List UInt8 → Prop
  | typedef {t : Ty} {v : Value} {bytes : List UInt8} (h : SpellsType visit t v bytes) :
    SpellsDefinition name (.typedef t) (.typedef name v) bytes
  | struct {fs : List Schema.Field} {fields : List (String × Value)} {bytes : List UInt8}
    (h : SpellsFields visit fs fields bytes) :
    SpellsDefinition name (.struct fs) (.struct name fields) bytes
  | enum {labels : List (String × Int)} {label : String} {w : Nat} (hw : w < wordCount 4)
    (h : Schema.labelOf? labels (signed 4 w) = some label) :
    SpellsDefinition name (.enum labels) (.enum name label (.int (signed 4 w))) (wordBytes 4 w)
  | void {u : Union} {a : Schema.Arm} {w : Nat} (hw : w < wordCount 4)
    (harm : u.armFor? (discriminantOf u w) = some a) (hvoid : a.field = none) :
    SpellsDefinition name (.union u) (.union name a.variant (.int (discriminantOf u w)) .absent)
      (wordBytes 4 w)
  | arm {u : Union} {a : Schema.Arm} {f : Schema.Field} {w : Nat} {v : Value} {bytes : List UInt8}
    (hw : w < wordCount 4) (harm : u.armFor? (discriminantOf u w) = some a) (hfield : a.field = some f)
    (h : SpellsType visit f.type v bytes) :
    SpellsDefinition name (.union u) (.union name a.variant (.int (discriminantOf u w)) v)
      (wordBytes 4 w ++ bytes)

/-- The bytes of a value of a named type that nests definitions up to some number of levels. -/
def Spells (s : Schema) : Nat → String → Value → List UInt8 → Prop
  | 0, _, _, _ => False
  | levels + 1, name, v, bytes =>
    ∃ d, s.definition? name = some d ∧ SpellsDefinition (Spells s levels) name d v bytes

theorem mem_allArms_of_armFor? {u : Union} {n : Int} {a : Schema.Arm} (h : u.armFor? n = some a) :
    a ∈ u.allArms := by
  unfold Union.armFor? at h
  split at h
  · next hfind =>
    cases h
    exact List.mem_append_left _ (List.mem_of_find?_eq_some hfind)
  · exact List.mem_append_right _ (Option.mem_toList.mpr h)

/-! ### Lengths -/

section Lengths

open SizeTable (ofBase ofType ofDefinition ofSchema)

variable {visit} {g : String → Size}

@[simp] theorem length_padded (data : List UInt8) : (Encode.padded data).length = paddedSize data.length := by
  simp [Encode.padded, paddedSize]

/-- A word, then something else. -/
theorem length_word_append (w : Nat) (bytes : List UInt8) :
    ((wordBytes 4 w ++ bytes).length : Int) = 4 + bytes.length := by
  simp

/-- Where no bound is given, lengths are bounded by the length word. -/
theorem getD_maxLength_le {bound : Option Nat} (h : ∀ n ∈ bound, n ≤ maxLength) : bound.getD maxLength ≤ maxLength := by
  cases bound with
  | none => exact Nat.le_refl _
  | some n => exact h n rfl

theorem Fits.le {bound : Option Nat} {n k : Nat} (h : Fits bound n) (hk : bound = some k) : n ≤ k := by
  subst hk
  exact h.1

theorem length_primitive {p : Primitive} {v : Value} {bytes : List UInt8} (h : SpellsPrimitive p v bytes) :
    bytes.length = p.size := by
  cases h <;> rw [length_wordBytes] <;> rfl

theorem admits_primitive (p : Primitive) : (Size.exact p.size).Admits p.size :=
  Size.admits_exact (by cases p <;> decide)

theorem admits_base (h : ∀ name v bytes, visit name v bytes → (g name).Admits bytes.length)
    {b : Base Ref} {v : Value} {bytes : List UInt8} (hb : SpellsBase visit b v bytes) :
    (ofBase g b).Admits bytes.length := by
  cases b with
  | primitive p =>
    rw [length_primitive hb]
    exact admits_primitive p
  | named r => exact h r.name v bytes hb

theorem lengths_items {z : Size} {item : Value → List UInt8 → Prop}
    (h : ∀ v bytes, item v bytes → z.Admits bytes.length) {items : List Value} {bytes : List UInt8}
    (hitems : SpellsItems item items bytes) :
    ∃ ns : List Int, ns.length = items.length ∧ (∀ n ∈ ns, z.Admits n) ∧ bytes.length = ns.sum := by
  induction hitems with
  | nil => exact ⟨[], rfl, nofun, rfl⟩
  | @cons v items bytes rest first _ ih =>
    obtain ⟨ns, hlen, hadmits, hsum⟩ := ih
    refine ⟨bytes.length :: ns, ?_, List.forall_mem_cons.mpr ⟨h v bytes first, hadmits⟩, ?_⟩
    · rw [List.length_cons, List.length_cons, hlen]
    · rw [List.length_append, Int.natCast_add, List.sum_cons, hsum]

theorem admits_type (hg : ∀ name, (g name).Proper)
    (h : ∀ name v bytes, visit name v bytes → (g name).Admits bytes.length) {t : Ty} {v : Value}
    {bytes : List UInt8} (ht : SpellsType visit t v bytes) : (ofType g t).Admits bytes.length := by
  have hbase (b : Base Ref) : (ofBase g b).Proper := SizeTable.proper_ofType hg (.plain b)
  cases ht with
  | plain hb => exact admits_base h hb
  | array hlen hitems =>
    obtain ⟨ns, hns, hadmits, hsum⟩ := lengths_items (fun _ _ => admits_base h) hitems
    rw [hsum]
    exact Size.admits_times (hbase _) (hns.trans hlen) hadmits
  | vector hlen hitems =>
    obtain ⟨ns, hns, hadmits, hsum⟩ := lengths_items (fun _ _ => admits_base h) hitems
    rw [length_word_append, hsum]
    refine Size.admits_upTo (hbase _) (fun k hk => ?_) hadmits
    rw [hns]
    exact hlen.le hk
  | absent =>
    rw [length_wordBytes]
    exact Size.admits_absent (hbase _)
  | present hb =>
    rw [length_word_append]
    exact Size.admits_present (hbase _) (admits_base h hb)
  | fixedBytes hlen =>
    rw [length_padded, hlen]
    exact Size.admits_exact (Size.dvd_paddedSize _)
  | bytes hlen =>
    rw [length_word_append, length_padded]
    exact Size.admits_data fun k hk => hlen.le hk
  | string hlen =>
    rw [length_word_append, length_padded]
    exact Size.admits_data fun k hk => hlen.le hk

theorem lengths_fields (hg : ∀ name, (g name).Proper)
    (h : ∀ name v bytes, visit name v bytes → (g name).Admits bytes.length) {fs : List Schema.Field}
    {fields : List (String × Value)} {bytes : List UInt8} (hfields : SpellsFields visit fs fields bytes) :
    ∃ ns : List Int, List.Forall₂ Size.Admits (fs.map fun f => ofType g f.type) ns ∧
      bytes.length = ns.sum := by
  induction hfields with
  | nil => exact ⟨[], .nil, rfl⟩
  | @cons f fs v fields bytes rest first _ ih =>
    obtain ⟨ns, hadmits, hsum⟩ := ih
    refine ⟨bytes.length :: ns, .cons (admits_type hg h first) hadmits, ?_⟩
    rw [List.length_append, Int.natCast_add, List.sum_cons, hsum]

theorem admits_definition (hg : ∀ name, (g name).Proper)
    (h : ∀ name v bytes, visit name v bytes → (g name).Admits bytes.length) {name : String}
    {d : Definition} {v : Value} {bytes : List UInt8} (hd : SpellsDefinition visit name d v bytes) :
    (ofDefinition g d).Admits bytes.length := by
  cases hd with
  | typedef ht => exact admits_type hg h ht
  | struct hfields =>
    obtain ⟨ns, hadmits, hsum⟩ := lengths_fields hg h hfields
    rw [hsum]
    exact SizeTable.admits_struct hg hadmits
  | enum =>
    rw [length_wordBytes]
    exact Size.admits_exact (by decide)
  | void hw harm hvoid =>
    rw [length_wordBytes]
    refine SizeTable.admits_union (n := 0) hg (mem_allArms_of_armFor? harm) ?_
    rw [hvoid]
    exact Size.admits_exact (Int.dvd_zero 4)
  | arm hw harm hfield ht =>
    rw [length_word_append]
    refine SizeTable.admits_union hg (mem_allArms_of_armFor? harm) ?_
    rw [hfield]
    exact admits_type hg h ht

/-- Every spelling of a value has a length that the table allows. -/
theorem admits_of_spells {s : Schema} (hs : s.WellFormed) {levels : Nat} {name : String} {v : Value}
    {bytes : List UInt8} (h : Spells s levels name v bytes) :
    ((ofSchema s).get name).Admits bytes.length := by
  induction levels generalizing name v bytes with
  | zero => cases h
  | succ levels ih =>
    obtain ⟨d, hd, hspells⟩ := h
    rw [SizeTable.get_ofSchema hs hd]
    exact admits_definition (SizeTable.proper_ofSchema hs) (fun _ _ _ => ih) hspells

end Lengths

end XdrSchema.Wire
