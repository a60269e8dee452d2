import XdrSchema.Proofs.Schema.CaseSet
import XdrSchema.Proofs.Wire.Place

/-! How writing may fail: a value is refused for the shape or a length of something in it. No field of a struct is
missed after its names are compared. The integers that a message shows are in the value, unless a word can hold
them. Main statement: `Encode.refusedValue_named`. -/
namespace XdrSchema.Wire

open Schema (Ref Ty Definition Arm Union)

/-! ### Refusals -/

/-- The named type that a value says it belongs to. -/
def Value.owner? : Value → Option (TypeKind × String)
  | .typedef n _ => some (.typedef, n)
  | .struct n _ => some (.struct, n)
  | .enum n _ _ => some (.enum, n)
  | .union n _ _ _ => some (.union, n)
  | _ => none

/-- What is true of a value that is refused. -/
def EncodeError.Documented (s : Schema) : EncodeError → Prop
  | bool v => ¬ v.equalsInt 0 ∧ ¬ v.equalsInt 1
  | int _ v => v.int? = none
  | float _ v => Encode.isNumber v = false
  | bytes _ v => ∀ data, v ≠ .bytes data
  | list _ v => ∀ items, v ≠ .list items ∧ v ≠ .tuple items
  | named kind name v =>
    (∃ d, s.definition? name = some d ∧ d.kind = kind) ∧ v.owner? ≠ some (kind, name)
  | fields struct expected got =>
    ∃ fs, s.definition? struct = some (.struct fs) ∧ expected = fs.map (·.name) ∧ ¬ got.Perm expected
  | unknownLabel label enum =>
    ∃ labels, s.definition? enum = some (.enum labels) ∧ label ∉ labels.map (·.1)
  | noArm union variant =>
    ∃ u, s.definition? union = some (.union u) ∧ variant ∉ u.allArms.map (·.variant)
  | needsDiscriminant variant union =>
    ∃ u, s.definition? union = some (.union u) ∧
      ∃ a ∈ u.allArms, a.variant = variant ∧ a.carriesDiscriminant
  | voidArm variant union =>
    ∃ u, s.definition? union = some (.union u) ∧
      ∃ a ∈ u.allArms, a.variant = variant ∧ a.field = none
  | discriminant v =>
    ∃ union u, s.definition? union = some (.union u) ∧
      ∃ a ∈ u.allArms, (Encode.armFor? u v).map (·.variant) ≠ some a.variant
  | tooLong bound actual => actual ≠ bound
  | doesNotFit _ => True
  | notType _ => False

/-- The error is about the shape of a value: neither about a length nor about a name that no type has. -/
def EncodeError.OfShape : EncodeError → Prop
  | tooLong .. | notType _ => False
  | _ => True

/-- The value does not have the shape that is asked for. -/
def EncodeError.Misshaped (s : Schema) (e : EncodeError) : Prop := e.OfShape ∧ e.Documented s

/-- A value of the type is refused for the shape of something in it, or for the length of something in it. -/
def Refused (s : Schema) (t : Ty) (v : Value) (e : EncodeError) : Prop :=
  e.Misshaped s ∨ ∃ path t' w bound n, At s t v path t' w ∧ WrongLength t' w bound n ∧ e = .tooLong bound n

theorem Refused.documented {s : Schema} {t : Ty} {v : Value} {e : EncodeError} (h : Refused s t v e) :
    e.Documented s := by
  rcases h with ⟨-, h⟩ | ⟨path, t', w, bound, n, -, hlength, rfl⟩
  · exact h
  · exact hlength.ne

theorem refused_of_wrongLength {s : Schema} {t : Ty} {v : Value} {bound n : Nat} (h : WrongLength t v bound n) :
    Refused s t v (.tooLong bound n) := .inr ⟨[], t, v, bound, n, .here, h, rfl⟩

/-- What is in a value is refused for what is in it. -/
theorem Refused.step {s : Schema} {t t' : Ty} {v v' : Value} {step : Step} {e : EncodeError} (h : Refused s t' v' e)
    (hat : ∀ {path t'' w}, At s t' v' path t'' w → At s t v (step :: path) t'' w) : Refused s t v e := by
  rcases h with hshape | ⟨path, t'', w, bound, n, hw, hlength⟩
  · exact .inl hshape
  · exact .inr ⟨step :: path, t'', w, bound, n, hat hw, hlength⟩

/-! ### Numbers in a value -/

namespace Value

mutual

/-- The integers in a value, and the lengths of its lists and of its data. -/
def measures : Value → List Int
  | int n => [n]
  | bytes data => [(data.length : Int)]
  | text s => [((s.toList.flatMap String.utf8EncodeChar).length : Int)]
  | list items | tuple items => (items.length : Int) :: measuresAll items
  | struct _ fields => measuresFields fields
  | enum _ _ v | typedef _ v => measures v
  | union _ _ d v => measures d ++ measures v
  | _ => []

def measuresAll : List Value → List Int
  | [] => []
  | v :: rest => measures v ++ measuresAll rest

def measuresFields : List (String × Value) → List Int
  | [] => []
  | (_, v) :: rest => measures v ++ measuresFields rest

end

mutual

/-- What is shown of a value is in it. -/
theorem numbers_sublist : ∀ v : Value, v.numbers.Sublist v.measures
  | absent | bool _ | float _ | bytes _ | text _ => List.nil_sublist _
  | int _ => List.Sublist.refl _
  | list items | tuple items => (numbersAll_sublist items).cons _
  | struct _ fields => numbersFields_sublist fields
  | enum _ _ v | typedef _ v => numbers_sublist v
  | union _ _ d v => (numbers_sublist d).append (numbers_sublist v)

theorem numbersAll_sublist : ∀ items, (numbersAll items).Sublist (measuresAll items)
  | [] => List.nil_sublist _
  | v :: rest => (numbers_sublist v).append (numbersAll_sublist rest)

theorem numbersFields_sublist : ∀ fields, (numbersFields fields).Sublist (measuresFields fields)
  | [] => List.nil_sublist _
  | (_, v) :: rest => (numbers_sublist v).append (numbersFields_sublist rest)

end

theorem measures_sublist_of_mem {items : List Value} {x : Value} (h : x ∈ items) :
    x.measures.Sublist (measuresAll items) := by
  induction h with
  | head rest => exact List.sublist_append_left _ _
  | tail v _ ih => exact ih.trans (List.sublist_append_right _ _)

theorem measures_sublist_of_lookup {fields : List (String × Value)} {name : String} {x : Value}
    (h : fields.lookup name = some x) : x.measures.Sublist (measuresFields fields) := by
  induction fields with
  | nil => cases h
  | cons f rest ih =>
    rw [List.lookup_cons] at h
    split at h
    · cases h
      exact List.sublist_append_left _ _
    · exact (ih h).trans (List.sublist_append_right _ _)

theorem measures_of_items? {v : Value} {items : List Value} (h : v.items? = some items) :
    v.measures = (items.length : Int) :: measuresAll items := by
  cases v <;> cases h <;> rfl

end Value

/-- The numbers that the message shows are in the value, unless a word can hold them. -/
def EncodeError.Shows (v : Value) (e : EncodeError) : Prop := ∀ n ∈ e.numbers, n ∈ v.measures ∨ n.natAbs < 2 ^ 32

namespace EncodeError.Shows

variable {v w : Value} {e : EncodeError}

theorem of_nil (h : e.numbers = []) : e.Shows v := by
  simp [Shows, h]

theorem of_value (h : e.numbers = v.numbers) : e.Shows v := by
  intro n hn
  rw [h] at hn
  exact .inl (v.numbers_sublist.mem hn)

theorem trans (h : e.Shows w) (hw : w.measures.Sublist v.measures) : e.Shows v :=
  fun n hn => (h n hn).imp_left fun hmem => hw.mem hmem

theorem of_int {n : Int} (h : e.Shows (.int n)) (hn : n.natAbs < 2 ^ 32) : e.Shows v := by
  intro m hm
  rcases h m hm with hmem | hsmall
  · rw [List.mem_singleton.mp hmem]
    exact .inr hn
  · exact .inr hsmall

theorem overlong?_eq_none (h : e.Shows v) (hv : Number.unwritable? v.measures = none) : e.overlong? = none := by
  rw [Number.unwritable?_eq_none_iff] at hv
  refine Number.unwritable?_eq_none_iff.mpr fun n hn => ?_
  rcases h n hn with hmem | hsmall
  · exact hv n hmem
  · exact Number.isWritable_of_natAbs_lt (hsmall.trans (by decide))

end EncodeError.Shows

/-- A value is refused for its shape, and the numbers in the message are its own. -/
structure RefusedShape (s : Schema) (v : Value) (e : EncodeError) : Prop where
  misshaped : e.Misshaped s
  shows : e.Shows v

/-- A value of the type is refused for something in it, and the numbers in the message are its own. -/
structure RefusedValue (s : Schema) (t : Ty) (v : Value) (e : EncodeError) : Prop where
  refused : Refused s t v e
  shows : e.Shows v

theorem RefusedShape.value {s : Schema} {t : Ty} {v : Value} {e : EncodeError} (h : RefusedShape s v e) :
    RefusedValue s t v e := ⟨.inl h.misshaped, h.shows⟩

theorem RefusedValue.step {s : Schema} {t t' : Ty} {v v' : Value} {step : Step} {e : EncodeError}
    (h : RefusedValue s t' v' e) (hat : ∀ {path t'' w}, At s t' v' path t'' w → At s t v (step :: path) t'' w)
    (hv : v'.measures.Sublist v.measures) : RefusedValue s t v e := ⟨h.refused.step hat, h.shows.trans hv⟩

/-- The bound is that of the type, and the length that of the value. -/
theorem refusedValue_of_wrongLength {s : Schema} {t : Ty} {v : Value} {bound n : Nat}
    (ht : ∀ m ∈ t.bound?, m ≤ maxLength) (h : WrongLength t v bound n) : RefusedValue s t v (.tooLong bound n) := by
  have hitems {v : Value} {items : List Value} (hv : v.items? = some items) : (items.length : Int) ∈ v.measures := by
    rw [Value.measures_of_items? hv]
    exact List.mem_cons_self
  have hdata {v : Value} {data : List UInt8} (hv : Normal.data v = .bytes data) : (data.length : Int) ∈ v.measures := by
    cases v <;> cases hv <;> exact List.mem_singleton_self _
  have hshort : bound ≤ maxLength ∧ (n : Int) ∈ v.measures := by
    cases h with
    | array hv _ => exact ⟨ht _ rfl, hitems hv⟩
    | vector hv _ => exact ⟨getD_maxLength_le ht, hitems hv⟩
    | fixedBytes hv _ => exact ⟨ht _ rfl, hdata hv⟩
    | bytes hv _ | string hv _ => exact ⟨getD_maxLength_le ht, hdata hv⟩
  refine ⟨refused_of_wrongLength h, ?_⟩
  rw [EncodeError.Shows, EncodeError.numbers, List.forall_mem_cons, List.forall_mem_singleton]
  exact ⟨.inr (Nat.lt_succ_of_le hshort.1), .inl hshort.2⟩

namespace Encode

variable {s : Schema}

theorem failsWith_integer (width : Nat) (low high : Int) (v : Value) :
    FailsWith (RefusedShape s v) (integer width low high v) := by
  unfold integer
  split
  · split
    · exact failsWith_ok _
    · exact failsWith_error ⟨⟨trivial, trivial⟩, .of_value rfl⟩
  · exact failsWith_error ⟨⟨trivial, trivial⟩, .of_value rfl⟩

theorem failsWith_double (v : Value) : FailsWith (RefusedShape s v) (double v) := by
  unfold double
  split
  · exact failsWith_ok _
  · split
    · exact failsWith_ok _
    · exact failsWith_error ⟨⟨trivial, trivial⟩, .of_value rfl⟩

theorem failsWith_primitive (p : Primitive) (v : Value) :
    FailsWith (RefusedShape s v) (primitive p v) := by
  have hnumber (h : (!isNumber v) = true) : isNumber v = false := by
    rwa [Bool.not_eq_true'] at h
  unfold primitive
  cases p with
  | bool =>
    dsimp only
    split
    · exact failsWith_ok _
    · next hone =>
      split
      · exact failsWith_ok _
      · next hzero => exact failsWith_error ⟨⟨trivial, hzero, hone⟩, .of_value rfl⟩
  | double =>
    exact failsWith_guard (fun h => ⟨⟨trivial, hnumber h⟩, .of_nil rfl⟩) fun _ =>
      (failsWith_double v).bind fun _ _ => failsWith_ok _
  | float =>
    refine failsWith_guard (fun h => ⟨⟨trivial, hnumber h⟩, .of_nil rfl⟩) fun _ =>
      (failsWith_double v).bind fun d _ => ?_
    rw [if_neg (by decide)]
    split
    · exact failsWith_ok _
    · exact failsWith_error ⟨⟨trivial, trivial⟩, .of_value rfl⟩
  | int | unsignedInt | hyper | unsignedHyper =>
    exact failsWith_guard (fun h => ⟨⟨trivial, Option.isNone_iff_eq_none.mp h⟩, .of_nil rfl⟩) fun _ =>
      failsWith_integer _ _ _ v

theorem failsWith_dataOf (t : Ty) (v : Value) : FailsWith (RefusedShape s v) (dataOf t v) := by
  unfold dataOf
  split
  · exact failsWith_ok _
  · exact failsWith_ok _
  · next hbytes _ => exact failsWith_error ⟨⟨trivial, fun data hdata => hbytes data hdata⟩, .of_nil rfl⟩

theorem failsWith_itemsOf (t : Ty) (v : Value) : FailsWith (RefusedShape s v) (itemsOf t v) := by
  unfold itemsOf
  split
  · exact failsWith_ok _
  · exact failsWith_ok _
  · next hlist htuple => exact failsWith_error ⟨⟨trivial, fun items => ⟨hlist items, htuple items⟩⟩, .of_nil rfl⟩

theorem failsWith_checkBound {t : Ty} {v : Value} {bound : Option Nat} {n : Nat}
    (ht : ∀ m ∈ t.bound?, m ≤ maxLength) (h : bound.getD maxLength < n → WrongLength t v (bound.getD maxLength) n) :
    FailsWith (RefusedValue s t v) (checkBound bound n) := by
  unfold checkBound
  dsimp only
  split
  · next hlong => exact failsWith_error (refusedValue_of_wrongLength ht (h hlong))
  · exact failsWith_ok _

/-! ### Types -/

section Writer

variable {size : Nat}
  (h : ∀ (r : Ref) v, sizeOf v ≤ size → (s.definition? r.name).isSome →
    FailsWith (RefusedValue s (.plain (.named r)) v) (named s r.name v))

include h

theorem failsWith_base {b : Base Ref} (hb : ∀ r, b = .named r → (s.definition? r.name).isSome)
    {v : Value} (hv : sizeOf v ≤ size) : FailsWith (RefusedValue s (.plain b) v) (base s b v) := by
  cases b with
  | primitive p =>
    rw [base]
    exact (failsWith_primitive p v).imp fun _ => RefusedShape.value
  | named r =>
    rw [base]
    exact h r v hv (hb r rfl)

theorem failsWith_all {b : Base Ref} (hb : ∀ r, b = .named r → (s.definition? r.name).isSome)
    {items : List Value} (hitems : sizeOf items ≤ size) :
    FailsWith (fun e => ∃ (k : Nat) (x : Value), items[k]? = some x ∧ RefusedValue s (.plain b) x e)
      (all s b items) := by
  induction items with
  | nil =>
    rw [all]
    exact failsWith_ok _
  | cons v rest ih =>
    rw [List.cons.sizeOf_spec] at hitems
    rw [all]
    refine ((failsWith_base h hb (by omega)).imp fun e he => ⟨0, v, rfl, he⟩).bind fun _ _ => ?_
    refine ((ih (by omega)).imp ?_).bind fun _ _ => failsWith_ok _
    rintro e ⟨k, x, hx, he⟩
    exact ⟨k + 1, x, hx, he⟩

theorem failsWith_type {t : Ty} (ht : t.Resolved s) {v : Value} (hv : sizeOf v ≤ size) :
    FailsWith (RefusedValue s t v) (type s t v) := by
  have hitem {items : List Value} {k : Nat} {x : Value} (hitems : v.items? = some items) (hx : items[k]? = some x) :
      x.measures.Sublist v.measures := by
    rw [Value.measures_of_items? hitems]
    exact (Value.measures_sublist_of_mem (List.mem_of_getElem? hx)).cons _
  cases t with
  | plain b =>
    rw [type]
    exact failsWith_base h (fun r hr => ht.isSome_target (by rw [hr]; rfl)) hv
  | array b n =>
    rw [type]
    split
    · next e he => exact failsWith_error (failsWith_itemsOf _ v e he).value
    · next items hitems =>
      have hsize := sizeOf_itemsOf hitems
      have hitems := items?_of_itemsOf hitems
      split
      · refine (failsWith_all h (fun r hr => ht.isSome_target (by rw [hr]; rfl)) (by omega)).imp ?_
        rintro e ⟨k, x, hx, he⟩
        exact he.step (.arrayItem hitems hx) (hitem hitems hx)
      · next hlen => exact failsWith_error (refusedValue_of_wrongLength ht.bound (.array hitems hlen))
  | vector b n =>
    rw [type]
    split
    · next e he => exact failsWith_error (failsWith_itemsOf _ v e he).value
    · next items hitems =>
      have hsize := sizeOf_itemsOf hitems
      have hitems := items?_of_itemsOf hitems
      refine (failsWith_checkBound ht.bound (.vector hitems)).bind fun _ _ => ?_
      refine ((failsWith_all h (fun r hr => ht.isSome_target (by rw [hr]; rfl)) (by omega)).imp ?_).bind
        fun _ _ => failsWith_ok _
      rintro e ⟨k, x, hx, he⟩
      exact he.step (.vectorItem hitems hx) (hitem hitems hx)
  | optional b =>
    by_cases habsent : v = .absent
    · subst habsent
      rw [type]
      exact failsWith_ok _
    · rw [type]
      · refine ((failsWith_base h (fun r hr => ht.isSome_target (by rw [hr]; rfl)) hv).imp fun e he => ?_).bind
          fun _ _ => failsWith_ok _
        exact he.step (.present habsent) (.refl _)
      · exact habsent
  | fixedBytes n =>
    rw [type]
    refine ((failsWith_dataOf _ v).imp fun _ => RefusedShape.value).bind fun data hdata => ?_
    split
    · exact failsWith_ok _
    · next hlen => exact failsWith_error (refusedValue_of_wrongLength ht.bound (.fixedBytes (dataOf_eq_ok hdata) hlen))
  | bytes n =>
    rw [type]
    exact ((failsWith_dataOf _ v).imp fun _ => RefusedShape.value).bind fun _ hdata =>
      (failsWith_checkBound ht.bound (.bytes (dataOf_eq_ok hdata))).bind fun _ _ => failsWith_ok _
  | string n =>
    rw [type]
    exact ((failsWith_dataOf _ v).imp fun _ => RefusedShape.value).bind fun _ hdata =>
      (failsWith_checkBound ht.bound (.string (dataOf_eq_ok hdata))).bind fun _ _ => failsWith_ok _

/-- Where the names of the fields are those of the struct, none of them is missed. -/
theorem failsWith_structFields {fs : List Schema.Field}
    (hfs : ∀ f ∈ fs, f.type.Resolved s) {fields : List (String × Value)} (hfields : sizeOf fields ≤ size)
    (hnames : ∀ f ∈ fs, f.name ∈ fields.map (·.1)) :
    FailsWith (fun e => ∃ f ∈ fs, ∃ x, fields.lookup f.name = some x ∧ RefusedValue s f.type x e)
      (structFields s fs fields) := by
  induction fs with
  | nil =>
    rw [structFields]
    exact failsWith_ok _
  | cons f fs ih =>
    rw [List.forall_mem_cons] at hfs hnames
    rw [structFields]
    split
    · next v hv =>
      have hsize := sizeOf_lookup hv
      refine ((failsWith_type h hfs.1 (by omega)).imp fun e he => ?_).bind fun _ _ => ?_
      · exact ⟨f, List.mem_cons_self, v, hv, he⟩
      · refine ((ih hfs.2 hnames.2).imp ?_).bind fun _ _ => failsWith_ok _
        rintro e ⟨g, hg, hrest⟩
        exact ⟨g, List.mem_cons_of_mem _ hg, hrest⟩
    · next hnone => exact absurd hnone (lookup_ne_none hnames.1)

/-! ### Definitions -/

variable {r : Ref} {v : Value} (hv : sizeOf v ≤ size + 1)

include hv

omit h hv in
/-- The value belongs to another type, or to none. -/
theorem refused_other {d : Definition} (hd : s.definition? r.name = some d)
    (howner : v.owner? ≠ some (d.kind, r.name)) :
    FailsWith (RefusedValue s (.plain (.named r)) v) (throw (.named d.kind r.name v) : Encoded) :=
  failsWith_error ⟨.inl ⟨trivial, ⟨d, hd, rfl⟩, howner⟩, .of_value rfl⟩

theorem refused_typedef {t : Ty} (hd : s.definition? r.name = some (.typedef t)) (ht : t.Resolved s) :
    FailsWith (RefusedValue s (.plain (.named r)) v) (named s r.name v) := by
  rw [named, hd]
  dsimp only
  split
  · next n inner =>
    split
    · next hn =>
      subst hn
      rw [Value.typedef.sizeOf_spec] at hv
      exact (failsWith_type h ht (by omega)).imp fun e he => he.step (.target hd) (.refl _)
    · next hn => exact refused_other hd (by simpa [Value.owner?, Definition.kind] using hn)
  · next hshape =>
    refine refused_other hd fun howner => ?_
    cases v <;> cases howner
    exact hshape _ _ rfl

theorem refused_struct {fs : List Schema.Field} (hd : s.definition? r.name = some (.struct fs))
    (hfs : ∀ f ∈ fs, f.type.Resolved s) :
    FailsWith (RefusedValue s (.plain (.named r)) v) (named s r.name v) := by
  rw [named, hd]
  dsimp only
  split
  · next n fields =>
    split
    · next hn =>
      subst hn
      split
      · next hperm =>
        rw [Value.struct.sizeOf_spec] at hv
        refine (failsWith_structFields h hfs (by omega) fun f hf => ?_).imp ?_
        · exact (List.isPerm_iff.mp hperm).mem_iff.mpr (List.mem_map_of_mem hf)
        · rintro e ⟨f, hf, x, hx, he⟩
          exact he.step (.field hd hf hx) (Value.measures_sublist_of_lookup hx)
      · next hperm =>
        rw [List.isPerm_iff] at hperm
        exact failsWith_error ⟨.inl ⟨trivial, fs, hd, rfl, hperm⟩, .of_nil rfl⟩
    · next hn => exact refused_other hd (by simpa [Value.owner?, Definition.kind] using hn)
  · next hshape =>
    refine refused_other hd fun howner => ?_
    cases v <;> cases howner
    exact hshape _ _ rfl

omit h hv in
theorem failsWith_enum {name : String} {labels : List (String × Int)} (hd : s.definition? name = some (.enum labels))
    (hlabels : Schema.LabelsProper labels) : FailsWith (RefusedShape s v) (named s name v) := by
  have hlabel : FailsWith (RefusedShape s v) (labelOf name v) := by
    unfold labelOf
    split
    · next e label w =>
      split
      · exact failsWith_ok _
      · next he =>
        exact failsWith_error ⟨⟨trivial, ⟨_, hd, rfl⟩, by simpa [Value.owner?] using he⟩, .of_value rfl⟩
    · exact failsWith_ok _
    · next henum htext =>
      refine failsWith_error ⟨⟨trivial, ⟨_, hd, rfl⟩, fun howner => ?_⟩, .of_value rfl⟩
      cases v <;> cases howner
      exact henum _ _ _ rfl
  rw [named, hd]
  refine hlabel.bind fun label _ => ?_
  split
  · next n hn =>
    have hfits := Schema.CaseSet.isSigned32_iff.mp (hlabels.fits _ (hlabels.labelValue?_eq_some_iff.mp hn))
    exact (failsWith_integer _ _ _ _).imp fun e he => ⟨he.misshaped, he.shows.of_int (by omega)⟩
  · next hnone =>
    exact failsWith_error ⟨⟨trivial, labels, hd, fun hmem => lookup_ne_none hmem hnone⟩, .of_nil rfl⟩

omit h hv in
/-- A word can hold the label of an arm. -/
theorem natAbs_lt_of_mem_values {u : Union} (hu : u.Proper) {a : Arm} (ha : a ∈ u.allArms) {n : Int}
    (hn : n ∈ a.values) : n.natAbs < 2 ^ 32 := by
  have hfits : Schema.CaseSet.FitsWord u.selector n := by
    rw [Schema.Union.allArms, List.mem_append, Option.mem_toList] at ha
    rcases ha with ha | ha
    · exact hu.fits n (List.mem_flatMap.mpr ⟨a, ha, hn⟩)
    · rw [Arm.values, hu.unlabelled a ha] at hn
      cases hn
  unfold Schema.CaseSet.FitsWord at hfits
  split at hfits <;> omega

omit h hv in
/-- A discriminant has to select the arm. -/
theorem failsWith_selected {name : String} {u : Union} (hd : s.definition? name = some (.union u)) {a : Arm}
    (ha : a ∈ u.allArms) (d : Value) : FailsWith (RefusedShape s d)
      (match armFor? u d with
        | some b => if b.variant = a.variant then pure (a, d) else throw (.discriminant d)
        | none => throw (.discriminant d) : Except EncodeError (Arm × Value)) := by
  have hrefused (hb : (armFor? u d).map (·.variant) ≠ some a.variant) :
      FailsWith (RefusedShape s d) (throw (.discriminant d) : Except EncodeError (Arm × Value)) :=
    failsWith_error ⟨⟨trivial, name, u, hd, a, ha, hb⟩, .of_value rfl⟩
  split
  · next b hb =>
    split
    · exact failsWith_ok _
    · next hvariant => exact hrefused (by simpa [hb] using hvariant)
  · next hnone => exact hrefused (by simp [hnone])

omit h hv in
/-- The arm is refused, or its discriminant, or the lack of one. -/
theorem failsWith_select {name : String} {u : Union} (hd : s.definition? name = some (.union u)) (hu : u.Proper)
    (variant : String) (d : Value) : FailsWith (RefusedShape s d) (select name u variant d) := by
  unfold select
  split
  · next a hfind =>
    have ha := List.mem_of_find?_eq_some hfind
    dsimp only
    split
    · next n hn =>
      have hsmall := natAbs_lt_of_mem_values hu ha (n := n) (by rw [hn]; exact List.mem_singleton_self n)
      exact (failsWith_selected hd ha _).imp fun e he => ⟨he.misshaped, he.shows.of_int hsmall⟩
    · next hmany =>
      refine failsWith_error ⟨⟨trivial, u, hd, a, ha, rfl, decide_eq_true fun hone => ?_⟩, .of_nil rfl⟩
      obtain ⟨l, hl⟩ := List.length_eq_one_iff.mp hone
      exact hmany l.value (by rw [Arm.values, hl]; rfl)
    · exact failsWith_selected hd ha _
  · next hnone =>
    refine failsWith_error ⟨⟨trivial, u, hd, fun hmem => ?_⟩, .of_nil rfl⟩
    obtain ⟨a, ha, hvariant⟩ := List.mem_map.mp hmem
    have hfind := (List.find?_isSome (p := fun a : Arm => decide (a.variant = variant))).mpr
      ⟨a, ha, by simpa using hvariant⟩
    obtain ⟨b, hb⟩ := Option.isSome_iff_exists.mp hfind
    exact hnone b hb

theorem refused_union {u : Union} (hd : s.definition? r.name = some (.union u)) (hu : u.Proper)
    (hmembers : ∀ t ∈ (Definition.union u).members, t.Resolved s) :
    FailsWith (RefusedValue s (.plain (.named r)) v) (named s r.name v) := by
  rw [named, hd]
  dsimp only
  split
  · next n variant d inner =>
    have hd_measures : d.measures.Sublist (Value.union n variant d inner).measures := List.sublist_append_left _ _
    split
    · next hn =>
      subst hn
      refine ((failsWith_select hd hu variant d).imp fun e he => ?_).bind fun ⟨a, d'⟩ hselect => ?_
      · exact RefusedShape.value ⟨he.misshaped, he.shows.trans hd_measures⟩
      obtain ⟨ha, rfl, -⟩ := select_eq_ok hselect
      dsimp only
      rw [ite_bind]
      have hword : FailsWith (RefusedShape s d') (if u.isUnsigned then unsignedWord 4 d' else signedWord 4 d') := by
        split <;> exact failsWith_integer _ _ _ _
      refine (hword.imp fun e he => RefusedShape.value ⟨he.misshaped, ?_⟩).bind fun word _ => ?_
      · rcases discriminant_of_select hselect with rfl | ⟨-, n, hn, rfl⟩
        · exact he.shows.trans hd_measures
        · exact he.shows.of_int (natAbs_lt_of_mem_values hu ha (by rw [hn]; exact List.mem_singleton_self n))
      rw [Value.union.sizeOf_spec] at hv
      cases hfield : a.field with
      | some f =>
        have hmember := Schema.Union.type_mem_members ha hfield
        refine ((failsWith_type h (hmembers f.type hmember) (by omega)).imp fun e he => ?_).bind
          fun _ _ => failsWith_ok _
        exact he.step (.payload hd ha hfield) (List.sublist_append_right _ _)
      | none =>
        dsimp only
        split
        · exact failsWith_ok _
        · exact failsWith_error ⟨.inl ⟨trivial, u, hd, a, ha, rfl, hfield⟩, .of_nil rfl⟩
    · next hn => exact refused_other hd (by simpa [Value.owner?, Definition.kind] using hn)
  · next hshape =>
    refine refused_other hd fun howner => ?_
    cases v <;> cases howner
    exact hshape _ _ _ _ rfl

end Writer

/-- By induction on what the value holds, since a type may hold itself. -/
theorem refusedValue_named (hs : s.WellFormed) (size : Nat) {r : Ref} {v : Value} (hv : sizeOf v ≤ size)
    (hname : (s.definition? r.name).isSome) : FailsWith (RefusedValue s (.plain (.named r)) v) (named s r.name v) := by
  induction size generalizing r v with
  | zero => cases v <;> simp at hv
  | succ size ih =>
    obtain ⟨d, hd⟩ := Option.isSome_iff_exists.mp hname
    have hproper := hs.proper r.name d hd
    have hmembers := hs.resolved r.name d hd
    have hinner : ∀ (r : Ref) v, sizeOf v ≤ size → (s.definition? r.name).isSome →
        FailsWith (RefusedValue s (.plain (.named r)) v) (named s r.name v) := fun _ _ hv hname => ih hv hname
    cases d with
    | typedef t => exact refused_typedef hinner hv hd (hmembers t (List.mem_singleton_self t))
    | struct fs =>
      exact refused_struct hinner hv hd fun f hf => hmembers f.type (List.mem_map_of_mem hf)
    | enum labels => exact (failsWith_enum hd hproper.2).imp fun _ => RefusedShape.value
    | union u => exact refused_union hinner hv hd hproper hmembers

theorem refused_named (hs : s.WellFormed) {r : Ref} (v : Value) (hname : (s.definition? r.name).isSome) :
    FailsWith (Refused s (.plain (.named r)) v) (named s r.name v) :=
  (refusedValue_named hs (sizeOf v) (Nat.le_refl _) hname).imp fun _ he => he.refused

end Encode

end XdrSchema.Wire
