import XdrSchema.Proofs.Chain
import XdrSchema.Proofs.Number.Binary
import XdrSchema.Proofs.Wire.Normal
import XdrSchema.Proofs.Wire.Spelling

/-! The writer and the wire format. What the writer writes spells the normal form of the value, and it
writes every spelling of a value that it is given. -/
namespace XdrSchema.Wire.Encode

open Schema (Ref Ty Definition Arm Union)

/-! ### Words -/

theorem integer_eq_ok {width : Nat} {low high : Int} {v : Value} {bytes : List UInt8}
    (h : integer width low high v = .ok bytes) :
    ∃ n, v.int? = some n ∧ low ≤ n ∧ n ≤ high ∧ bytes = wordBytes width (unsigned width n) := by
  unfold integer at h
  split at h
  · next n hn =>
    split at h
    · next hrange =>
      rw [Bool.and_eq_true, decide_eq_true_eq, decide_eq_true_eq] at hrange
      cases h
      exact ⟨n, hn, hrange.1, hrange.2, rfl⟩
    · cases h
  · cases h

theorem signedWord_eq_ok {width : Nat} {v : Value} {bytes : List UInt8} (hw : 0 < width)
    (h : signedWord width v = .ok bytes) :
    ∃ n w, v.int? = some n ∧ w < wordCount width ∧ n = signed width w ∧ bytes = wordBytes width w := by
  obtain ⟨n, hn, hlow, hhigh, rfl⟩ := integer_eq_ok h
  exact ⟨n, unsigned width n, hn, unsigned_lt width n, (signed_unsigned hw hlow hhigh).symm, rfl⟩

theorem unsignedWord_eq_ok {width : Nat} {v : Value} {bytes : List UInt8}
    (h : unsignedWord width v = .ok bytes) :
    ∃ w : Nat, v.int? = some (w : Int) ∧ w < wordCount width ∧ bytes = wordBytes width w := by
  obtain ⟨n, hn, hlow, hhigh, rfl⟩ := integer_eq_ok h
  refine ⟨unsigned width n, ?_, unsigned_lt width n, rfl⟩
  rw [unsigned_of_nonneg hlow (by omega), hn]

theorem signedWord_signed {width w : Nat} (hwidth : 0 < width) (hw : w < wordCount width) :
    signedWord width (.int (signed width w)) = .ok (wordBytes width w) := by
  obtain ⟨hlow, hhigh⟩ := signed_range hwidth hw
  have hrange : (decide (-((wordCount width / 2 : Nat) : Int) ≤ signed width w) &&
      decide (signed width w ≤ ((wordCount width / 2 : Nat) : Int) - 1)) = true := by
    rw [Bool.and_eq_true, decide_eq_true_eq, decide_eq_true_eq]
    exact ⟨hlow, hhigh⟩
  unfold signedWord integer
  dsimp only [Value.int?]
  rw [if_pos hrange, unsigned_signed hw]
  rfl

theorem unsignedWord_natCast {width w : Nat} (hw : w < wordCount width) :
    unsignedWord width (.int w) = .ok (wordBytes width w) := by
  have hrange : (decide (0 ≤ (w : Int)) && decide ((w : Int) ≤ (wordCount width : Int) - 1)) = true := by
    rw [Bool.and_eq_true, decide_eq_true_eq, decide_eq_true_eq]
    omega
  have hword : unsigned width w = w := by
    have h : (unsigned width w : Int) = w :=
      unsigned_of_nonneg (Int.natCast_nonneg w) (Int.ofNat_lt.mpr hw)
    exact Int.ofNat_inj.mp h
  unfold unsignedWord integer
  dsimp only [Value.int?]
  rw [if_pos hrange, hword]
  rfl

/-! ### Primitive values -/

theorem spells_primitive {p : Primitive} {v : Value} {bytes : List UInt8}
    (h : primitive p v = .ok bytes) : SpellsPrimitive p (Normal.primitive p v) bytes := by
  unfold primitive at h
  cases p with
  | bool =>
    dsimp only at h
    split at h
    · next hone =>
      cases h
      rw [Normal.primitive, hone]
      exact .bool true
    · next hone =>
      split at h
      · cases h
        rw [Normal.primitive, Bool.eq_false_iff.mpr hone]
        exact .bool false
      · cases h
  | float =>
    obtain ⟨-, h⟩ := guard_eq_ok.mp h
    obtain ⟨d, hd, h⟩ := bind_eq_ok_iff.mp h
    rw [if_neg (by decide)] at h
    split at h
    · next w hw =>
      cases h
      have hnormal : Normal.primitive .float v = .float (.ofSingle w) := by
        rw [Normal.primitive, hd, Except.toOption, Option.bind_some, hw]
      rw [hnormal]
      exact .float (Number.Double.toSingle?_idem hw)
    · cases h
  | double =>
    obtain ⟨-, h⟩ := guard_eq_ok.mp h
    obtain ⟨d, hd, h⟩ := bind_eq_ok_iff.mp h
    cases h
    have hnormal : Normal.primitive .double v = .float ⟨d.bits % wordCount 8⟩ := by
      rw [Normal.primitive, hd, Except.toOption]
    rw [hnormal, ← wordBytes_mod]
    exact .double (Nat.mod_lt _ (wordCount_pos 8))
  | int =>
    obtain ⟨-, h⟩ := guard_eq_ok.mp h
    obtain ⟨n, w, hn, hw, rfl, rfl⟩ := signedWord_eq_ok (by decide) h
    rw [Normal.primitive, hn]
    exact .int hw
  | hyper =>
    obtain ⟨-, h⟩ := guard_eq_ok.mp h
    obtain ⟨n, w, hn, hw, rfl, rfl⟩ := signedWord_eq_ok (by decide) h
    rw [Normal.primitive, hn]
    exact .hyper hw
  | unsignedInt =>
    obtain ⟨-, h⟩ := guard_eq_ok.mp h
    obtain ⟨w, hn, hw, rfl⟩ := unsignedWord_eq_ok h
    rw [Normal.primitive, hn]
    exact .unsignedInt hw
  | unsignedHyper =>
    obtain ⟨-, h⟩ := guard_eq_ok.mp h
    obtain ⟨w, hn, hw, rfl⟩ := unsignedWord_eq_ok h
    rw [Normal.primitive, hn]
    exact .unsignedHyper hw

theorem primitive_of_spells {p : Primitive} {v : Value} {bytes : List UInt8}
    (h : SpellsPrimitive p v bytes) : primitive p v = .ok bytes := by
  unfold primitive
  cases h with
  | bool b => cases b <;> rfl
  | int hw => exact guard_eq_ok.mpr ⟨nofun, signedWord_signed (by decide) hw⟩
  | hyper hw => exact guard_eq_ok.mpr ⟨nofun, signedWord_signed (by decide) hw⟩
  | unsignedInt hw => exact guard_eq_ok.mpr ⟨nofun, unsignedWord_natCast hw⟩
  | unsignedHyper hw => exact guard_eq_ok.mpr ⟨nofun, unsignedWord_natCast hw⟩
  | double hw => exact guard_eq_ok.mpr ⟨nofun, rfl⟩
  | float hw =>
    refine guard_eq_ok.mpr ⟨nofun, bind_eq_ok_iff.mpr ⟨_, rfl, ?_⟩⟩
    rw [if_neg (by decide), hw]
    rfl

/-! ### Unions -/

/-- Numbers select the arm that they select by value. -/
theorem armFor?_of_int {u : Union} {d : Value} {n : Int} (hd : d.int? = some n) :
    armFor? u d = u.armFor? n := by
  have hequals (k : Int) : d.equalsInt k = decide (k = n) := by
    cases d with
    | bool b =>
      cases hd
      rfl
    | int m =>
      cases hd
      simp only [Value.equalsInt, eq_comm]
    | _ => cases hd
  have hany : (fun a : Arm => a.values.any d.equalsInt) = fun a => decide (n ∈ a.values) := by
    funext a
    rw [Bool.eq_iff_iff]
    simp [hequals]
  unfold armFor?
  exact hany ▸ rfl

theorem select_eq_ok {name variant : String} {u : Union} {d d' : Value} {a : Arm}
    (h : select name u variant d = .ok (a, d')) :
    a ∈ u.allArms ∧ a.variant = variant ∧ ∃ b, armFor? u d' = some b ∧ b.variant = a.variant := by
  unfold select at h
  split at h
  · next c hfind =>
    dsimp only at h
    -- Whichever discriminant is written, it is checked in the same way.
    split at h
    all_goals
      obtain ⟨x, -, hx⟩ := bind_eq_ok_iff.mp h
      split at hx
      · next b hb =>
        split at hx
        · next hvariant =>
          cases hx
          refine ⟨List.mem_of_find?_eq_some hfind, ?_, b, hb, hvariant⟩
          simpa using List.find?_some hfind
        · cases hx
      · cases hx
  · cases h

/-- A discriminant that is given is kept, and one that is missing is the only one of its arm. -/
theorem discriminant_of_select {name variant : String} {u : Union} {d d' : Value} {a : Arm}
    (h : select name u variant d = .ok (a, d')) :
    d' = d ∨ d = .absent ∧ ∃ n, a.values = [n] ∧ d' = .int n := by
  unfold select at h
  split at h
  · next b hfind =>
    dsimp only at h
    split at h
    · next n hvalues =>
      obtain ⟨_, ⟨⟩, h⟩ := bind_eq_ok_iff.mp h
      split at h
      · split at h
        · cases h
          exact .inr ⟨rfl, n, hvalues, rfl⟩
        · cases h
      · cases h
    · cases h
    · obtain ⟨_, ⟨⟩, h⟩ := bind_eq_ok_iff.mp h
      split at h
      · split at h
        · cases h
          exact .inl rfl
        · cases h
      · cases h
  · cases h

/-- The discriminant that is written selects the arm that was named. -/
theorem armFor?_of_select {u : Union} (hu : u.Proper) {name variant : String} {d d' : Value} {a : Arm}
    (h : select name u variant d = .ok (a, d')) {n : Int} (hn : d'.int? = some n) :
    u.armFor? n = some a := by
  obtain ⟨ha, -, b, hb, hvariant⟩ := select_eq_ok h
  rw [armFor?_of_int hn] at hb
  rw [hb, List.inj_on_of_nodup_map hu.variants (mem_allArms_of_armFor? hb) ha hvariant]

theorem ite_bind {ε α β : Type} {c : Prop} [Decidable c] (x y : Except ε α) (f : α → Except ε β) :
    (if c then x >>= f else y >>= f) = (if c then x else y) >>= f := by split <;> rfl

/-- The word of a discriminant. -/
theorem discriminantWord_eq_ok {u : Union} {d : Value} {word : List UInt8}
    (h : (if u.isUnsigned then unsignedWord 4 d else signedWord 4 d) = .ok word) :
    ∃ w, w < wordCount 4 ∧ d.int? = some (discriminantOf u w) ∧ word = wordBytes 4 w := by
  unfold discriminantOf
  split at h
  · next hunsigned =>
    obtain ⟨w, hn, hw, rfl⟩ := unsignedWord_eq_ok h
    exact ⟨w, hw, by rw [hn, if_pos hunsigned], rfl⟩
  · next hsigned =>
    obtain ⟨n, w, hn, hw, rfl, rfl⟩ := signedWord_eq_ok (by decide) h
    exact ⟨w, hw, by rw [hn, if_neg hsigned], rfl⟩

theorem discriminantWord_of_lt (u : Union) {w : Nat} (hw : w < wordCount 4) :
    (if u.isUnsigned then unsignedWord 4 (.int (discriminantOf u w))
      else signedWord 4 (.int (discriminantOf u w))) = .ok (wordBytes 4 w) := by
  unfold discriminantOf
  split
  · exact unsignedWord_natCast hw
  · exact signedWord_signed (by decide) hw

/-! ### Types -/

theorem dataOf_eq_ok {t : Ty} {v : Value} {content : List UInt8} (h : dataOf t v = .ok content) :
    Normal.data v = .bytes content := by
  unfold dataOf at h
  split at h
  · cases h
    rfl
  · cases h
    rfl
  · cases h

theorem itemsOf_eq_ok {t : Ty} {v : Value} {items : List Value} (h : itemsOf t v = .ok items) :
    v = .list items ∨ v = .tuple items := by
  unfold itemsOf at h
  split at h
  · cases h
    exact .inl rfl
  · cases h
    exact .inr rfl
  · cases h

theorem fits_of_checkBound {bound : Option Nat} {n : Nat} (hbound : ∀ k ∈ bound, k ≤ maxLength)
    (h : checkBound bound n = .ok ()) : Fits bound n := by
  unfold checkBound at h
  dsimp only at h
  split at h
  · cases h
  · next hle =>
    have hle := Nat.not_lt.mp hle
    exact ⟨hle, hle.trans (getD_maxLength_le hbound)⟩

theorem checkBound_of_fits {bound : Option Nat} {n : Nat} (h : Fits bound n) :
    checkBound bound n = .ok () := if_neg (Nat.not_lt.mpr h.1)

section Writer

variable {s : Schema} {visit : String → Value → List UInt8 → Prop} {size : Nat}
  (h : ∀ name v bytes, sizeOf v ≤ size → named s name v = .ok bytes →
    visit name (Normal.named s name v) bytes)

include h

theorem spells_base {b : Base Ref} {v : Value} {bytes : List UInt8} (hv : sizeOf v ≤ size)
    (hb : base s b v = .ok bytes) : SpellsBase visit b (Normal.base s b v) bytes := by
  cases b with
  | primitive p =>
    rw [base] at hb
    rw [Normal.base]
    exact spells_primitive hb
  | named r =>
    rw [base] at hb
    rw [Normal.base]
    exact h r.name v bytes hv hb

theorem spells_all {b : Base Ref} {items : List Value} {bytes : List UInt8} (hitems : sizeOf items ≤ size)
    (hb : all s b items = .ok bytes) :
    (Normal.all s b items).length = items.length ∧
      SpellsItems (SpellsBase visit b) (Normal.all s b items) bytes := by
  induction items generalizing bytes with
  | nil =>
    rw [all] at hb
    cases hb
    rw [Normal.all]
    exact ⟨rfl, .nil⟩
  | cons v rest ih =>
    rw [List.cons.sizeOf_spec] at hitems
    rw [all] at hb
    obtain ⟨first, hfirst, hb⟩ := bind_eq_ok_iff.mp hb
    obtain ⟨more, hmore, hb⟩ := bind_eq_ok_iff.mp hb
    cases hb
    obtain ⟨hlen, hspells⟩ := ih (by omega) hmore
    rw [Normal.all]
    exact ⟨by rw [List.length_cons, List.length_cons, hlen], .cons (spells_base h (by omega) hfirst) hspells⟩

theorem spells_type {t : Ty} {v : Value} {bytes : List UInt8} (hbound : ∀ k ∈ t.bound?, k ≤ maxLength)
    (hv : sizeOf v ≤ size) (ht : type s t v = .ok bytes) :
    SpellsType visit t (Normal.type s t v) bytes := by
  cases t with
  | plain b =>
    rw [type] at ht
    rw [Normal.type]
    exact .plain (spells_base h hv ht)
  | array b n =>
    rw [type] at ht
    split at ht
    · cases ht
    · next items hitems =>
      split at ht
      · next hlen =>
        have hsize := sizeOf_itemsOf hitems
        obtain ⟨hlen', hspells⟩ := spells_all h (by omega) ht
        have hnormal : Normal.type s (.array b n) v = .list (Normal.all s b items) := by
          rcases itemsOf_eq_ok hitems with rfl | rfl <;> rw [Normal.type]
        rw [hnormal]
        exact .array (hlen'.trans hlen) hspells
      · cases ht
  | vector b n =>
    rw [type] at ht
    split at ht
    · cases ht
    · next items hitems =>
      obtain ⟨⟨⟩, hcheck, ht⟩ := bind_eq_ok_iff.mp ht
      obtain ⟨content, hcontent, ht⟩ := bind_eq_ok_iff.mp ht
      cases ht
      have hsize := sizeOf_itemsOf hitems
      obtain ⟨hlen, hspells⟩ := spells_all h (by omega) hcontent
      have hnormal : Normal.type s (.vector b n) v = .list (Normal.all s b items) := by
        rcases itemsOf_eq_ok hitems with rfl | rfl <;> rw [Normal.type]
      have hfits := fits_of_checkBound hbound hcheck
      rw [← hlen] at hfits
      rw [hnormal, lengthWord, ← hlen]
      exact .vector hfits hspells
  | optional b =>
    by_cases habsent : v = .absent
    · subst habsent
      rw [type] at ht
      cases ht
      rw [Normal.type]
      exact .absent
    · rw [type] at ht
      · obtain ⟨content, hcontent, ht⟩ := bind_eq_ok_iff.mp ht
        cases ht
        rw [Normal.type]
        · exact .present (spells_base h hv hcontent)
        · exact habsent
      · exact habsent
  | fixedBytes n =>
    rw [type] at ht
    obtain ⟨content, hcontent, ht⟩ := bind_eq_ok_iff.mp ht
    split at ht
    · next hlen =>
      cases ht
      rw [Normal.type, dataOf_eq_ok hcontent]
      exact .fixedBytes hlen
    · cases ht
  | bytes n =>
    rw [type] at ht
    obtain ⟨content, hcontent, ht⟩ := bind_eq_ok_iff.mp ht
    obtain ⟨⟨⟩, hcheck, ht⟩ := bind_eq_ok_iff.mp ht
    cases ht
    rw [Normal.type, dataOf_eq_ok hcontent]
    exact .bytes (fits_of_checkBound hbound hcheck)
  | string n =>
    rw [type] at ht
    obtain ⟨content, hcontent, ht⟩ := bind_eq_ok_iff.mp ht
    obtain ⟨⟨⟩, hcheck, ht⟩ := bind_eq_ok_iff.mp ht
    cases ht
    rw [Normal.type, dataOf_eq_ok hcontent]
    exact .string (fits_of_checkBound hbound hcheck)

theorem spells_structFields {fs : List Schema.Field} {fields : List (String × Value)}
    {bytes : List UInt8} (hbound : ∀ f ∈ fs, ∀ k ∈ f.type.bound?, k ≤ maxLength)
    (hfields : sizeOf fields ≤ size) (hfs : structFields s fs fields = .ok bytes) :
    SpellsFields visit fs (Normal.structFields s fs fields) bytes := by
  induction fs generalizing bytes with
  | nil =>
    rw [structFields] at hfs
    cases hfs
    rw [Normal.structFields]
    exact .nil
  | cons f fs ih =>
    rw [List.forall_mem_cons] at hbound
    rw [structFields] at hfs
    split at hfs
    · next v hv =>
      obtain ⟨first, hfirst, hfs⟩ := bind_eq_ok_iff.mp hfs
      obtain ⟨more, hmore, hfs⟩ := bind_eq_ok_iff.mp hfs
      cases hfs
      have hsize := sizeOf_lookup hv
      rw [Normal.structFields_cons hv]
      exact .cons (spells_type h hbound.1 (by omega) hfirst) (ih hbound.2 hmore)
    · cases hfs

/-! ### Definitions -/

variable {name : String} {v : Value} {bytes : List UInt8} (hv : sizeOf v ≤ size + 1)
  (hwritten : named s name v = .ok bytes)

include hv hwritten

theorem spells_typedef {t : Ty} (hd : s.definition? name = some (.typedef t))
    (hbound : ∀ k ∈ t.bound?, k ≤ maxLength) :
    SpellsDefinition visit name (.typedef t) (Normal.named s name v) bytes := by
  rw [named, hd] at hwritten
  dsimp only at hwritten
  split at hwritten
  · next n inner =>
    split at hwritten
    · next hn =>
      subst hn
      rw [Normal.named, hd]
      rw [Value.typedef.sizeOf_spec] at hv
      exact .typedef (spells_type h hbound (by omega) hwritten)
    · cases hwritten
  · cases hwritten

theorem spells_struct {fs : List Schema.Field} (hd : s.definition? name = some (.struct fs))
    (hbound : ∀ f ∈ fs, ∀ k ∈ f.type.bound?, k ≤ maxLength) :
    SpellsDefinition visit name (.struct fs) (Normal.named s name v) bytes := by
  rw [named, hd] at hwritten
  dsimp only at hwritten
  split at hwritten
  · next n fields =>
    split at hwritten
    · next hn =>
      subst hn
      split at hwritten
      · rw [Normal.named, hd]
        rw [Value.struct.sizeOf_spec] at hv
        exact .struct (spells_structFields h hbound (by omega) hwritten)
      · cases hwritten
    · cases hwritten
  · cases hwritten

omit h hv in
theorem spells_enum {labels : List (String × Int)} (hd : s.definition? name = some (.enum labels))
    (hlabels : Schema.LabelsProper labels) :
    SpellsDefinition visit name (.enum labels) (Normal.named s name v) bytes := by
  rw [named, hd] at hwritten
  obtain ⟨label, hlabel, hword⟩ := bind_eq_ok_iff.mp hwritten
  split at hword
  · next n hvalue =>
    obtain ⟨k, w, hk, hw, rfl, rfl⟩ := signedWord_eq_ok (by decide) hword
    cases hk
    rw [Normal.named, hd]
    dsimp only
    rw [Normal.enum, hlabel]
    dsimp only
    rw [hvalue]
    exact .enum hw (hlabels.labelOf?_eq_some_iff.mpr (hlabels.labelValue?_eq_some_iff.mp hvalue))
  · cases hword

theorem spells_union {u : Union} (hd : s.definition? name = some (.union u)) (hu : u.Proper)
    (hbound : ∀ t ∈ (Definition.union u).members, ∀ k ∈ t.bound?, k ≤ maxLength) :
    SpellsDefinition visit name (.union u) (Normal.named s name v) bytes := by
  rw [named, hd] at hwritten
  dsimp only at hwritten
  split at hwritten
  · next n variant d inner =>
    split at hwritten
    · next hn =>
      subst hn
      obtain ⟨⟨a, d'⟩, hselect, hafter⟩ := bind_eq_ok_iff.mp hwritten
      dsimp only at hafter
      rw [ite_bind] at hafter
      obtain ⟨word, hword, hpayload⟩ := bind_eq_ok_iff.mp hafter
      clear hwritten hafter
      obtain ⟨w, hw, hint, rfl⟩ := discriminantWord_eq_ok hword
      have harm := armFor?_of_select hu hselect hint
      obtain ⟨ha, rfl, -⟩ := select_eq_ok hselect
      have hdiscriminant : Normal.discriminant d' = .int (discriminantOf u w) := by
        rw [Normal.discriminant, hint]
      rw [Normal.named, hd]
      dsimp only
      rw [hselect]
      dsimp only
      rw [hdiscriminant]
      rw [Value.union.sizeOf_spec] at hv
      cases hfield : a.field with
      | some f =>
        rw [hfield] at hpayload
        obtain ⟨content, hcontent, hbytes⟩ := bind_eq_ok_iff.mp hpayload
        cases hbytes
        have hmember := Schema.Union.type_mem_members ha hfield
        exact .arm hw harm hfield (spells_type h (hbound f.type hmember) (by omega) hcontent)
      | none =>
        rw [hfield] at hpayload
        dsimp only at hpayload
        split at hpayload
        · cases hpayload
          exact .void hw harm hfield
        · cases hpayload
    · cases hwritten
  · cases hwritten

end Writer

theorem spells_named {s : Schema} (hs : s.WellFormed) {levels : Nat} {name : String} {v : Value}
    {bytes : List UInt8} (hv : sizeOf v ≤ levels) (h : named s name v = .ok bytes) :
    Spells s levels name (Normal.named s name v) bytes := by
  induction levels generalizing name v bytes with
  | zero =>
    cases v <;> simp at hv
  | succ levels ih =>
    cases hd : s.definition? name with
    | none =>
      rw [named, hd] at h
      cases h
    | some d =>
      refine ⟨d, hd, ?_⟩
      have hproper := hs.proper name d hd
      have hbound : ∀ t ∈ d.members, ∀ k ∈ t.bound?, k ≤ maxLength :=
        fun t ht => (hs.resolved name d hd t ht).bound
      have hvisit : ∀ name v bytes, sizeOf v ≤ levels → named s name v = .ok bytes →
          Spells s levels name (Normal.named s name v) bytes := fun _ _ _ hv h => ih hv h
      cases d with
      | typedef t => exact spells_typedef hvisit hv h hd (hbound t (List.mem_singleton_self t))
      | struct fs =>
        exact spells_struct hvisit hv h hd fun f hf => hbound f.type (List.mem_map_of_mem hf)
      | enum labels => exact spells_enum h hd hproper.2
      | union u => exact spells_union hvisit hv h hd hproper hbound

/-! ### Every spelling is written -/

section Speller

variable {s : Schema} {visit : String → Value → List UInt8 → Prop}
  (h : ∀ name v bytes, visit name v bytes → v ≠ .absent ∧ named s name v = .ok bytes)

include h

theorem base_of_spells {b : Base Ref} {v : Value} {bytes : List UInt8} (hb : SpellsBase visit b v bytes) :
    v ≠ .absent ∧ base s b v = .ok bytes := by
  cases b with
  | primitive p =>
    rw [base]
    refine ⟨?_, primitive_of_spells hb⟩
    rintro rfl
    cases hb
  | named r =>
    rw [base]
    exact h r.name v bytes hb

theorem all_of_spells {b : Base Ref} {items : List Value} {bytes : List UInt8}
    (hitems : SpellsItems (SpellsBase visit b) items bytes) : all s b items = .ok bytes := by
  induction hitems with
  | nil => rw [all]; rfl
  | cons first _ ih =>
    rw [all, (base_of_spells h first).2, ih]
    rfl

theorem type_of_spells {t : Ty} {v : Value} {bytes : List UInt8} (ht : SpellsType visit t v bytes) :
    type s t v = .ok bytes := by
  cases ht with
  | plain hb =>
    rw [type]
    exact (base_of_spells h hb).2
  | @array b n items bytes hlen hitems =>
    rw [type]
    have hitemsOf : itemsOf (.array b n) (.list items) = .ok items := rfl
    split
    · next e he => cases hitemsOf.symm.trans he
    · next items' hok =>
      cases hitemsOf.symm.trans hok
      rw [if_pos hlen]
      exact all_of_spells h hitems
  | @vector b n items bytes hfits hitems =>
    rw [type]
    have hitemsOf : itemsOf (.vector b n) (.list items) = .ok items := rfl
    split
    · next e he => cases hitemsOf.symm.trans he
    · next items' hok =>
      cases hitemsOf.symm.trans hok
      rw [checkBound_of_fits hfits, all_of_spells h hitems]
      rfl
  | absent =>
    rw [type]
    rfl
  | present hb =>
    obtain ⟨hne, hbase⟩ := base_of_spells h hb
    rw [type]
    · rw [hbase]
      rfl
    · exact hne
  | @fixedBytes n content hlen =>
    rw [type]
    exact if_pos hlen
  | @bytes n content hfits =>
    rw [type]
    exact bind_eq_ok_iff.mpr ⟨content, rfl, bind_eq_ok_iff.mpr ⟨(), checkBound_of_fits hfits, rfl⟩⟩
  | @string n content hfits =>
    rw [type]
    exact bind_eq_ok_iff.mpr ⟨content, rfl, bind_eq_ok_iff.mpr ⟨(), checkBound_of_fits hfits, rfl⟩⟩

theorem structFields_of_spells {fs : List Schema.Field} {vs fields : List (String × Value)}
    {bytes : List UInt8} (hfs : SpellsFields visit fs vs bytes)
    (hfields : ∀ x ∈ vs, fields.lookup x.1 = some x.2) : structFields s fs fields = .ok bytes := by
  induction hfs with
  | nil => rw [structFields]; rfl
  | @cons f fs v vs first rest hv _ ih =>
    rw [List.forall_mem_cons] at hfields
    rw [structFields]
    split
    · next w hw =>
      cases hfields.1.symm.trans hw
      rw [type_of_spells h hv, ih hfields.2]
      rfl
    · next hnone => cases hfields.1.symm.trans hnone

end Speller

theorem names_of_spells {visit : String → Value → List UInt8 → Prop} {fs : List Schema.Field}
    {vs : List (String × Value)} {bytes : List UInt8} (h : SpellsFields visit fs vs bytes) :
    vs.map (·.1) = fs.map (·.name) := by
  induction h with
  | nil => rfl
  | cons _ _ ih => rw [List.map_cons, List.map_cons, ih]

/-- The arm that a discriminant selects is the one that its variant names. -/
theorem select_of_armFor? {u : Union} (hu : u.Proper) (name : String) {n : Int} {a : Arm}
    (h : u.armFor? n = some a) : select name u a.variant (.int n) = .ok (a, .int n) := by
  have hfind : u.allArms.find? (·.variant = a.variant) = some a :=
    (find?_eq_some_iff_of_nodup hu.variants).mpr ⟨mem_allArms_of_armFor? h, rfl⟩
  have harm : armFor? u (.int n) = some a := (armFor?_of_int rfl).trans h
  unfold select
  rw [hfind]
  dsimp only
  refine bind_eq_ok_iff.mpr ⟨.int n, rfl, ?_⟩
  rw [harm]
  exact if_pos rfl

theorem named_of_spells {s : Schema} (hs : s.WellFormed) {levels : Nat} {name : String} {v : Value}
    {bytes : List UInt8} (h : Spells s levels name v bytes) : v ≠ .absent ∧ named s name v = .ok bytes := by
  induction levels generalizing name v bytes with
  | zero => cases h
  | succ levels ih =>
    obtain ⟨d, hd, hspells⟩ := h
    have hvisit : ∀ name v bytes, Spells s levels name v bytes →
        v ≠ .absent ∧ named s name v = .ok bytes := fun _ _ _ h => ih h
    have hproper := hs.proper name d hd
    have hne : v ≠ .absent := by
      rintro rfl
      cases hspells
    refine ⟨hne, ?_⟩
    rw [named, hd]
    cases hspells with
    | typedef ht => exact (if_pos rfl).trans (type_of_spells hvisit ht)
    | @struct fs vs bytes hfs =>
      have hnames := names_of_spells hfs
      have hnodup : (vs.map (·.1)).Nodup := by
        rw [hnames]
        exact hproper
      have hperm : (vs.map (·.1)).isPerm (fs.map (·.name)) = true := by
        rw [hnames, List.isPerm_iff]
      refine (if_pos rfl).trans ((if_pos hperm).trans ?_)
      exact structFields_of_spells hvisit hfs fun x hx => (lookup_eq_some_iff_of_nodup hnodup).mpr hx
    | @enum labels label w hw hlabel =>
      have hvalue := hproper.2.labelValue?_eq_some_iff.mpr (hproper.2.labelOf?_eq_some_iff.mp hlabel)
      have hlabelOf : labelOf name (.enum name label (.int (signed 4 w))) = .ok label := if_pos rfl
      refine bind_eq_ok_iff.mpr ⟨label, hlabelOf, ?_⟩
      rw [hvalue]
      exact signedWord_signed (by decide) hw
    | @void u a w hw harm hvoid =>
      refine (if_pos rfl).trans (bind_eq_ok_iff.mpr ⟨_, select_of_armFor? hproper name harm, ?_⟩)
      dsimp only
      rw [ite_bind]
      refine bind_eq_ok_iff.mpr ⟨_, discriminantWord_of_lt u hw, ?_⟩
      rw [hvoid]
      rfl
    | @arm u a f w v content hw harm hfield ht =>
      refine (if_pos rfl).trans (bind_eq_ok_iff.mpr ⟨_, select_of_armFor? hproper name harm, ?_⟩)
      dsimp only
      rw [ite_bind]
      refine bind_eq_ok_iff.mpr ⟨_, discriminantWord_of_lt u hw, ?_⟩
      rw [hfield]
      exact bind_eq_ok_iff.mpr ⟨content, type_of_spells hvisit ht, rfl⟩

end XdrSchema.Wire.Encode
