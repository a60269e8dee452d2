import XdrSchema.Proofs.Wire.Encode

/-! Places in a value. Main statement: `Encode.exists_stretch`, what a value holds at a place is written as a stretch of
its bytes, and the normal form of the value has the same places. -/
namespace XdrSchema.Wire

open Schema (Ref Ty Definition Arm Union)

/-! ### Places -/

/-- A step from a value to one inside it. -/
inductive Step
  | item (k : Nat)
  | present
  | target
  | field (name : String)
  | payload

/-- The items of an array, in either of their shapes. -/
def Value.items? : Value → Option (List Value)
  | list items | tuple items => some items
  | _ => none

/-- A value of the first type, given to be written or read, has a value of the second type at a place. -/
inductive At (s : Schema) : Ty → Value → List Step → Ty → Value → Prop
  | here {t : Ty} {v : Value} : At s t v [] t v
  | arrayItem {b : Base Ref} {n k : Nat} {v x w : Value} {items : List Value} {path : List Step} {t : Ty}
      (hv : v.items? = some items) (hx : items[k]? = some x) (h : At s (.plain b) x path t w) :
    At s (.array b n) v (.item k :: path) t w
  | vectorItem {b : Base Ref} {n : Option Nat} {k : Nat} {v x w : Value} {items : List Value} {path : List Step}
      {t : Ty} (hv : v.items? = some items) (hx : items[k]? = some x) (h : At s (.plain b) x path t w) :
    At s (.vector b n) v (.item k :: path) t w
  | present {b : Base Ref} {v w : Value} {path : List Step} {t : Ty} (hv : v ≠ .absent)
      (h : At s (.plain b) v path t w) : At s (.optional b) v (.present :: path) t w
  | target {r : Ref} {t' t : Ty} {v w : Value} {path : List Step} (hd : s.definition? r.name = some (.typedef t'))
      (h : At s t' v path t w) : At s (.plain (.named r)) (.typedef r.name v) (.target :: path) t w
  | field {r : Ref} {fs : List Schema.Field} {f : Schema.Field} {fields : List (String × Value)} {v w : Value}
      {path : List Step} {t : Ty} (hd : s.definition? r.name = some (.struct fs)) (hf : f ∈ fs)
      (hv : fields.lookup f.name = some v) (h : At s f.type v path t w) :
    At s (.plain (.named r)) (.struct r.name fields) (.field f.name :: path) t w
  | payload {r : Ref} {u : Union} {a : Arm} {f : Schema.Field} {d v w : Value} {path : List Step} {t : Ty}
      (hd : s.definition? r.name = some (.union u)) (ha : a ∈ u.allArms) (hfield : a.field = some f)
      (h : At s f.type v path t w) :
    At s (.plain (.named r)) (.union r.name a.variant d v) (.payload :: path) t w

/-! ### What is written at a place -/

namespace Encode

variable {s : Schema}

theorem type_plain (b : Base Ref) (v : Value) : type s (.plain b) v = base s b v := by
  rw [type]

theorem items?_of_itemsOf {t : Ty} {v : Value} {items : List Value} (h : itemsOf t v = .ok items) :
    v.items? = some items := by
  rcases itemsOf_eq_ok h with rfl | rfl <;> rfl

theorem exists_items_of_array {b : Base Ref} {n : Nat} {v : Value} {bytes : List UInt8}
    (h : type s (.array b n) v = .ok bytes) : ∃ items, v.items? = some items ∧ all s b items = .ok bytes ∧
      (Normal.type s (.array b n) v).items? = some (Normal.all s b items) := by
  rw [type] at h
  split at h
  · cases h
  · next items hitems =>
    split at h
    · refine ⟨items, items?_of_itemsOf hitems, h, ?_⟩
      rcases itemsOf_eq_ok hitems with rfl | rfl <;> (rw [Normal.type]; rfl)
    · cases h

theorem exists_items_of_vector {b : Base Ref} {n : Option Nat} {v : Value} {bytes : List UInt8}
    (h : type s (.vector b n) v = .ok bytes) : ∃ items content, v.items? = some items ∧
      all s b items = .ok content ∧ bytes = lengthWord items.length ++ content ∧
      (Normal.type s (.vector b n) v).items? = some (Normal.all s b items) := by
  rw [type] at h
  split at h
  · cases h
  · next items hitems =>
    obtain ⟨_, -, h⟩ := bind_eq_ok_iff.mp h
    obtain ⟨content, hcontent, ⟨⟩⟩ := bind_eq_ok_iff.mp h
    refine ⟨items, content, items?_of_itemsOf hitems, hcontent, rfl, ?_⟩
    rcases itemsOf_eq_ok hitems with rfl | rfl <;> (rw [Normal.type]; rfl)

theorem exists_content_of_present {b : Base Ref} {v : Value} {bytes : List UInt8} (hv : v ≠ .absent)
    (h : type s (.optional b) v = .ok bytes) : ∃ content, type s (.plain b) v = .ok content ∧
      bytes = wordBytes 4 1 ++ content ∧ Normal.type s (.optional b) v = Normal.type s (.plain b) v := by
  rw [type] at h
  · obtain ⟨content, hcontent, ⟨⟩⟩ := bind_eq_ok_iff.mp h
    refine ⟨content, (type_plain b v).trans hcontent, rfl, ?_⟩
    rw [Normal.type, Normal.type]
    exact hv
  · exact hv

theorem exists_of_all {b : Base Ref} {items : List Value} {bytes : List UInt8} (h : all s b items = .ok bytes)
    {k : Nat} {x : Value} (hx : items[k]? = some x) : ∃ content, type s (.plain b) x = .ok content ∧
      content <:+: bytes ∧ (Normal.all s b items)[k]? = some (Normal.type s (.plain b) x) := by
  rw [type_plain, Normal.type]
  induction items generalizing bytes k with
  | nil => cases hx
  | cons v rest ih =>
    rw [all] at h
    obtain ⟨first, hfirst, h⟩ := bind_eq_ok_iff.mp h
    obtain ⟨more, hmore, ⟨⟩⟩ := bind_eq_ok_iff.mp h
    rw [Normal.all]
    cases k with
    | zero =>
      cases hx
      exact ⟨first, hfirst, (List.prefix_append _ _).isInfix, rfl⟩
    | succ k =>
      obtain ⟨content, hcontent, hinfix, hnormal⟩ := ih hmore hx
      exact ⟨content, hcontent, hinfix.trans (List.suffix_append _ _).isInfix, hnormal⟩

theorem exists_of_structFields {fs : List Schema.Field} {fields : List (String × Value)} {bytes : List UInt8}
    (h : structFields s fs fields = .ok bytes) (hnames : (fs.map (·.name)).Nodup) {f : Schema.Field} (hf : f ∈ fs)
    {v : Value} (hv : fields.lookup f.name = some v) : ∃ content, type s f.type v = .ok content ∧
      content <:+: bytes ∧ (Normal.structFields s fs fields).lookup f.name = some (Normal.type s f.type v) := by
  induction fs generalizing bytes with
  | nil => cases hf
  | cons g fs ih =>
    rw [List.map_cons, List.nodup_cons] at hnames
    rw [structFields] at h
    split at h
    · next x hx =>
      obtain ⟨first, hfirst, h⟩ := bind_eq_ok_iff.mp h
      obtain ⟨more, hmore, ⟨⟩⟩ := bind_eq_ok_iff.mp h
      rw [Normal.structFields_cons hx]
      rcases List.mem_cons.mp hf with rfl | hmem
      · cases hx.symm.trans hv
        exact ⟨first, hfirst, (List.prefix_append _ _).isInfix, List.lookup_cons_self⟩
      · have hother : (f.name == g.name) = false :=
          beq_eq_false_iff_ne.mpr fun heq => hnames.1 (heq ▸ List.mem_map_of_mem hmem)
        rw [List.lookup_cons, hother]
        obtain ⟨content, hcontent, hinfix, hlookup⟩ := ih hmore hnames.2 hmem
        exact ⟨content, hcontent, hinfix.trans (List.suffix_append _ _).isInfix, hlookup⟩
    · cases h

theorem type_of_typedef {r : Ref} {t : Ty} (hd : s.definition? r.name = some (.typedef t)) (v : Value) :
    type s (.plain (.named r)) (.typedef r.name v) = type s t v ∧
      Normal.type s (.plain (.named r)) (.typedef r.name v) = .typedef r.name (Normal.type s t v) := by
  rw [type, base, named, hd, Normal.type, Normal.base, Normal.named, hd]
  exact ⟨if_pos rfl, rfl⟩

theorem type_of_struct {r : Ref} {fs : List Schema.Field} (hd : s.definition? r.name = some (.struct fs))
    {fields : List (String × Value)} {bytes : List UInt8}
    (h : type s (.plain (.named r)) (.struct r.name fields) = .ok bytes) : structFields s fs fields = .ok bytes ∧
      Normal.type s (.plain (.named r)) (.struct r.name fields) = .struct r.name (Normal.structFields s fs fields) := by
  rw [type, base, named, hd] at h
  dsimp only at h
  rw [if_pos rfl] at h
  split at h
  · rw [Normal.type, Normal.base, Normal.named, hd]
    exact ⟨h, rfl⟩
  · cases h

/-- The word of a discriminant, signed or not, and the payload of the arm that it selects. -/
theorem exists_of_union {r : Ref} {u : Union} (hd : s.definition? r.name = some (.union u)) (hu : u.Proper)
    {variant : String} {d v : Value} {bytes : List UInt8}
    (h : type s (.plain (.named r)) (.union r.name variant d v) = .ok bytes) :
    ∃ a d' w content v', select r.name u variant d = .ok (a, d') ∧ w < wordCount 4 ∧
      d'.int? = some (discriminantOf u w) ∧ u.armFor? (discriminantOf u w) = some a ∧ a.variant = variant ∧
      bytes = wordBytes 4 w ++ content ∧
      Normal.type s (.plain (.named r)) (.union r.name variant d v) =
        .union r.name variant (.int (discriminantOf u w)) v' ∧
      ∀ f ∈ a.field, type s f.type v = .ok content ∧ v' = Normal.type s f.type v := by
  rw [type, base, named, hd] at h
  dsimp only at h
  rw [if_pos rfl] at h
  obtain ⟨⟨a, d'⟩, hselect, hafter⟩ := bind_eq_ok_iff.mp h
  dsimp only at hafter
  rw [ite_bind] at hafter
  obtain ⟨word, hword, hpayload⟩ := bind_eq_ok_iff.mp hafter
  clear h hafter
  obtain ⟨w, hw, hint, rfl⟩ := discriminantWord_eq_ok hword
  have hdiscriminant : Normal.discriminant d' = .int (discriminantOf u w) := by
    rw [Normal.discriminant, hint]
  have harm := armFor?_of_select hu hselect hint
  obtain ⟨-, hvariant, -⟩ := select_eq_ok hselect
  rw [Normal.type, Normal.base, Normal.named, hd]
  dsimp only
  rw [hselect]
  dsimp only
  rw [hdiscriminant]
  cases hfield : a.field with
  | some f =>
    rw [hfield] at hpayload
    obtain ⟨content, hcontent, ⟨⟩⟩ := bind_eq_ok_iff.mp hpayload
    refine ⟨a, d', w, content, _, rfl, hw, hint, harm, hvariant, rfl, rfl, fun g hg => ?_⟩
    cases hfield.symm.trans hg
    exact ⟨hcontent, rfl⟩
  | none =>
    rw [hfield] at hpayload
    dsimp only at hpayload
    split at hpayload
    · cases hpayload
      refine ⟨a, d', w, [], _, rfl, hw, hint, harm, hvariant, (List.append_nil _).symm, rfl, fun g hg => ?_⟩
      cases hfield.symm.trans hg
    · cases hpayload

theorem ne_absent_of_plain (hs : s.WellFormed) {b : Base Ref} {v : Value} {bytes : List UInt8}
    (h : type s (.plain b) v = .ok bytes) : Normal.type s (.plain b) v ≠ .absent := by
  rw [type_plain] at h
  rw [Normal.type]
  have hspells : SpellsBase (Spells s (sizeOf v)) b (Normal.base s b v) bytes :=
    spells_base (fun _ _ _ hv h => spells_named hs hv h) (Nat.le_refl _) h
  exact (base_of_spells (fun _ _ _ h => named_of_spells hs h) hspells).1

/-- What a value holds at a place is written as a stretch of its bytes, and the normal form of the value has its normal
form at this place. -/
theorem exists_stretch (hs : s.WellFormed) {t t' : Ty} {v w : Value} {path : List Step} (hat : At s t v path t' w)
    {bytes : List UInt8} (h : type s t v = .ok bytes) :
    ∃ stretch, At s t (Normal.type s t v) path t' (Normal.type s t' w) ∧ type s t' w = .ok stretch ∧
      stretch <:+: bytes := by
  induction hat generalizing bytes with
  | here => exact ⟨bytes, .here, h, List.infix_refl _⟩
  | arrayItem hv hx _ ih =>
    obtain ⟨items, hitems, hall, hnormal⟩ := exists_items_of_array h
    cases hv.symm.trans hitems
    obtain ⟨content, hcontent, hinfix, hx'⟩ := exists_of_all hall hx
    obtain ⟨stretch, hat', hstretch, hinner⟩ := ih hcontent
    exact ⟨stretch, .arrayItem hnormal hx' hat', hstretch, hinner.trans hinfix⟩
  | vectorItem hv hx _ ih =>
    obtain ⟨items, body, hitems, hall, rfl, hnormal⟩ := exists_items_of_vector h
    cases hv.symm.trans hitems
    obtain ⟨content, hcontent, hinfix, hx'⟩ := exists_of_all hall hx
    obtain ⟨stretch, hat', hstretch, hinner⟩ := ih hcontent
    exact ⟨stretch, .vectorItem hnormal hx' hat', hstretch,
      (hinner.trans hinfix).trans (List.suffix_append _ _).isInfix⟩
  | present hv _ ih =>
    obtain ⟨content, hcontent, rfl, hnormal⟩ := exists_content_of_present hv h
    obtain ⟨stretch, hat', hstretch, hinner⟩ := ih hcontent
    rw [hnormal]
    exact ⟨stretch, .present (ne_absent_of_plain hs hcontent) hat', hstretch,
      hinner.trans (List.suffix_append _ _).isInfix⟩
  | target hd _ ih =>
    obtain ⟨htype, hnormal⟩ := type_of_typedef hd _
    rw [htype] at h
    obtain ⟨stretch, hat', hstretch, hinner⟩ := ih h
    rw [hnormal]
    exact ⟨stretch, .target hd hat', hstretch, hinner⟩
  | field hd hf hv _ ih =>
    obtain ⟨hfields, hnormal⟩ := type_of_struct hd h
    obtain ⟨content, hcontent, hinfix, hv'⟩ := exists_of_structFields hfields (hs.proper _ _ hd) hf hv
    obtain ⟨stretch, hat', hstretch, hinner⟩ := ih hcontent
    rw [hnormal]
    exact ⟨stretch, .field hd hf hv' hat', hstretch, hinner.trans hinfix⟩
  | @payload r u a f d v _ _ _ hd ha hfield _ ih =>
    have hu : u.Proper := hs.proper _ _ hd
    obtain ⟨a', d', w, content, v', hselect, -, -, -, hvariant, rfl, hnormal, hpayload⟩ := exists_of_union hd hu h
    obtain rfl : a' = a := List.inj_on_of_nodup_map hu.variants (select_eq_ok hselect).1 ha hvariant
    obtain ⟨hcontent, rfl⟩ := hpayload f hfield
    obtain ⟨stretch, hat', hstretch, hinner⟩ := ih hcontent
    rw [hnormal]
    exact ⟨stretch, .payload hd ha hfield hat', hstretch, hinner.trans (List.suffix_append _ _).isInfix⟩

end Encode

/-! ### Lengths -/

/-- A list, or data, does not have the length that its type allows. -/
inductive WrongLength : Ty → Value → Nat → Nat → Prop
  | array {b : Base Ref} {n : Nat} {v : Value} {items : List Value} (hv : v.items? = some items)
      (h : items.length ≠ n) : WrongLength (.array b n) v n items.length
  | vector {b : Base Ref} {n : Option Nat} {v : Value} {items : List Value} (hv : v.items? = some items)
      (h : n.getD maxLength < items.length) : WrongLength (.vector b n) v (n.getD maxLength) items.length
  | fixedBytes {n : Nat} {v : Value} {data : List UInt8} (hv : Normal.data v = .bytes data) (h : data.length ≠ n) :
    WrongLength (.fixedBytes n) v n data.length
  | bytes {n : Option Nat} {v : Value} {data : List UInt8} (hv : Normal.data v = .bytes data)
      (h : n.getD maxLength < data.length) : WrongLength (.bytes n) v (n.getD maxLength) data.length
  | string {n : Option Nat} {v : Value} {data : List UInt8} (hv : Normal.data v = .bytes data)
      (h : n.getD maxLength < data.length) : WrongLength (.string n) v (n.getD maxLength) data.length

theorem WrongLength.ne {t : Ty} {v : Value} {bound actual : Nat} (h : WrongLength t v bound actual) :
    actual ≠ bound := by
  cases h with
  | array _ h | fixedBytes _ h => exact h
  | vector _ h | bytes _ h | string _ h => exact Nat.ne_of_gt h

end XdrSchema.Wire
