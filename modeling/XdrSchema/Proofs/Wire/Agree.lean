import XdrSchema.Proofs.Wire.Encode
import XdrSchema.Proofs.Wire.Simulation
import XdrSchema.Proofs.Wire.Sizing

/-! Schemas that agree on some names. When these mention only each other, their sizes and what is read
and written of them are the same in both. -/
namespace XdrSchema

/-- The names in `N` have the same definitions in both schemas, and mention only names in `N`. -/
structure Schema.AgreesOn (s s' : Schema) (N : String → Prop) : Prop where
  same : ∀ name, N name → s'.definition? name = s.definition? name
  closed : ∀ outer inner, N outer → s.Mentions outer inner → N inner

theorem Schema.AgreesOn.target {s s' : Schema} {N : String → Prop} (h : s.AgreesOn s' N) {name : String}
    (hname : N name) {d : Schema.Definition} (hd : s.definition? name = some d) {t : Schema.Ty}
    (ht : t ∈ d.members) {r : Schema.Ref} (hr : t.target? = some r) : N r.name :=
  h.closed name r.name hname ⟨d, hd, t, ht, r, hr, rfl⟩

namespace Wire

open Schema (Ref Ty Definition Arm Union)

/-! ### Sizes -/

namespace SizeTable

variable {s s' : Schema} {N : String → Prop}

/-- More rounds than there are types change nothing. -/
theorem get_rounds_of_le (hs : s.WellFormed) {j : Nat} (hj : s.types.length ≤ j) :
    (rounds s.types j).get = (ofSchema s).get := by
  induction j, hj using Nat.le_induction with
  | base => rfl
  | succ j _ ih =>
    funext name
    cases hd : s.definition? name with
    | none =>
      have hnone : name ∉ s.typeNames := fun hmem => by
        obtain ⟨d, hsome⟩ := Schema.mem_typeNames_iff.mp hmem
        cases hd.symm.trans hsome
      rw [ofSchema, get_rounds_of_not_mem _ hnone, get_rounds_of_not_mem _ hnone]
    | some d => rw [get_rounds_of_definition j hd, ih, get_ofSchema hs hd]

variable (h : s.AgreesOn s' N)

include h

theorem get_rounds_of_agreesOn (j : Nat) {name : String} (hname : N name) :
    (rounds s'.types j).get name = (rounds s.types j).get name := by
  induction j generalizing name with
  | zero => rfl
  | succ j ih =>
    cases hd : s.definition? name with
    | none => rw [get_rounds_succ, get_rounds_succ, h.same name hname, hd]; rfl
    | some d =>
      rw [get_rounds_of_definition j hd, get_rounds_of_definition j ((h.same name hname).trans hd)]
      exact ofDefinition_congr fun t ht r hr => ih (h.target hname hd ht hr)

theorem get_of_agreesOn (hs : s.WellFormed) (hs' : s'.WellFormed) {name : String} (hname : N name) :
    (ofSchema s').get name = (ofSchema s).get name := by
  rw [← get_rounds_of_le hs (Nat.le_max_left _ s'.types.length),
    ← get_rounds_of_le hs' (Nat.le_max_right s.types.length _), get_rounds_of_agreesOn h _ hname]

end SizeTable

variable {s s' : Schema} {N : String → Prop}

theorem Sizing.size?_of_agreesOn (h : s.AgreesOn s' N) (hs : s.WellFormed) (hs' : s'.WellFormed)
    {name : String} (hname : N name) (hdefined : (s.definition? name).isSome) :
    size? s' name = size? s name := by
  obtain ⟨d, hd⟩ := Option.isSome_iff_exists.mp hdefined
  have hd' : s'.definition? name = some d := (h.same name hname).trans hd
  rw [size?_eq hs, size?_eq hs', declared, declared, definition_eq_ok hs hd, definition_eq_ok hs' hd',
    SizeTable.get_of_agreesOn h hs hs' hname]

/-! ### Reading -/

namespace Simulation

open Decoder

/-- A reading and itself: the same input from the same place. -/
def identical : Simulation where
  At input p input' p' := input' = input ∧ p' = p
  Answers e o := o = some e
  of_none _ _ h := nomatch h

theorem identical_refl {α : Type} (x : Decoder α) : identical.Follows x x := by
  rintro input p _ _ ⟨rfl, rfl⟩
  exact ⟨fun a q ha => ⟨q, ha, rfl, rfl⟩, fun e he => fault?_eq_some_iff.mpr he⟩

theorem identical_lawful : identical.Lawful :=
  .of_peeks (fun _ => identical_refl _) (fun _ => rfl) (fun _ => rfl) fun _ _ => rfl

theorem run_eq_of_identical {α : Type} {x y : Decoder α} (h : identical.Follows x y) (input : List UInt8)
    (p : Int) : (y.run input).run p = (x.run input).run p := by
  obtain ⟨hreads, hfault⟩ := h input p input p ⟨rfl, rfl⟩
  cases hx : (x.run input).run p with
  | ok r =>
    obtain ⟨q, hq, -, rfl⟩ := hreads r.1 r.2 hx
    exact hq
  | error e => exact fault?_eq_some_iff.mp (hfault e hx)

end Simulation

namespace Codec

theorem read_of_agreesOn (h : s.AgreesOn s' N) (hs : s.WellFormed) (hs' : s'.WellFormed)
    (maxDepth : Int) (levels : Nat) {name : String} (hname : N name) :
    Simulation.identical.Follows ((ofSchema s maxDepth).read levels name)
      ((ofSchema s' maxDepth).read levels name) := by
  have hsize : (ofSchema s' maxDepth).sizes.get name = (ofSchema s maxDepth).sizes.get name :=
    SizeTable.get_of_agreesOn h hs hs' hname
  induction levels generalizing name with
  | zero =>
    rw [read, read, hsize]
    exact Simulation.identical_refl _
  | succ levels ih =>
    rw [read, read, hsize]
    refine (Simulation.identical_refl _).bind fun _ => ?_
    rw [show (ofSchema s' maxDepth).schema.definition? name = _ from h.same name hname]
    cases hd : s.definition? name with
    | none =>
      rw [show (ofSchema s maxDepth).schema.definition? name = none from hd]
      exact Simulation.identical_refl _
    | some d =>
      rw [show (ofSchema s maxDepth).schema.definition? name = some d from hd]
      refine Simulation.identical_lawful.definition (fun t ht r hr => ?_) name
      have hinner := h.target hname hd ht hr
      exact ih hinner (SizeTable.get_of_agreesOn h hs hs' hinner)

theorem decodeFrom_of_agreesOn (h : s.AgreesOn s' N) (hs : s.WellFormed) (hs' : s'.WellFormed)
    (maxDepth : Int) {name : String} (hname : N name) (buffer : List UInt8) (offset : Int) :
    (ofSchema s' maxDepth).decodeFrom name buffer offset =
      (ofSchema s maxDepth).decodeFrom name buffer offset := by
  have hread := Simulation.run_eq_of_identical
    (read_of_agreesOn h hs hs' maxDepth maxDepth.toNat hname) buffer offset
  unfold decodeFrom
  rw [show (ofSchema s' maxDepth).schema.definition? name = _ from h.same name hname]
  split
  · rw [if_pos (by assumption)]
    exact hread
  · rw [if_neg (by assumption)]

theorem decode_of_agreesOn (h : s.AgreesOn s' N) (hs : s.WellFormed) (hs' : s'.WellFormed)
    (maxDepth : Int) {name : String} (hname : N name) (buffer : List UInt8) :
    (ofSchema s' maxDepth).decode name buffer = (ofSchema s maxDepth).decode name buffer := by
  rw [decode, decode, decodeFrom_of_agreesOn h hs hs' maxDepth hname]

end Codec

/-! ### Writing -/

namespace Encode

theorem type_array (s : Schema) (b : Base Ref) (n : Nat) (v : Value) :
    type s (.array b n) v = (do
      let items ← itemsOf (.array b n) v
      if items.length = n then all s b items else throw (.tooLong n items.length)) := by
  rw [type]
  split
  · next e he => rw [he]; rfl
  · next items hitems => rw [hitems]; rfl

theorem type_vector (s : Schema) (b : Base Ref) (n : Option Nat) (v : Value) :
    type s (.vector b n) v = (do
      let items ← itemsOf (.vector b n) v
      checkBound n items.length
      return lengthWord items.length ++ (← all s b items)) := by
  rw [type]
  split
  · next e he => rw [he]; rfl
  · next items hitems => rw [hitems]; rfl

theorem structFields_cons (s : Schema) (f : Schema.Field) (rest : List Schema.Field)
    (fields : List (String × Value)) : structFields s (f :: rest) fields =
      match fields.lookup f.name with
      | some v => do return (← type s f.type v) ++ (← structFields s rest fields)
      | none => throw (.fields "" [f.name] []) := by
  rw [structFields]
  split
  · next v hv => rw [hv]
  · next hv => rw [hv]

section Writer

variable {size : Nat}
  (hsame : ∀ name v, sizeOf v ≤ size → N name → named s' name v = named s name v)

include hsame

theorem base_congr {b : Base Ref} (hb : ∀ r, b = .named r → N r.name) {v : Value}
    (hv : sizeOf v ≤ size) : base s' b v = base s b v := by
  cases b with
  | primitive p => rw [base, base]
  | named r => rw [base, base, hsame r.name v hv (hb r rfl)]

theorem all_congr {b : Base Ref} (hb : ∀ r, b = .named r → N r.name) {items : List Value}
    (hitems : sizeOf items ≤ size) : all s' b items = all s b items := by
  induction items with
  | nil => rw [all, all]
  | cons v rest ih =>
    rw [List.cons.sizeOf_spec] at hitems
    rw [all, all, base_congr hsame hb (by omega), ih (by omega)]

theorem type_congr {t : Ty} (ht : ∀ r, t.target? = some r → N r.name) {v : Value}
    (hv : sizeOf v ≤ size) : type s' t v = type s t v := by
  cases t with
  | plain b => rw [type, type, base_congr hsame (fun r hr => ht r (by rw [hr]; rfl)) hv]
  | array b n =>
    rw [type_array, type_array]
    cases hitems : itemsOf (.array b n) v with
    | error e => rfl
    | ok items =>
      have hsize := sizeOf_itemsOf hitems
      have hall : all s' b items = all s b items :=
        all_congr hsame (fun r hr => ht r (by rw [hr]; rfl)) (by omega)
      change (if items.length = n then all s' b items else _) = _
      rw [hall]
      rfl
  | vector b n =>
    rw [type_vector, type_vector]
    cases hitems : itemsOf (.vector b n) v with
    | error e => rfl
    | ok items =>
      have hsize := sizeOf_itemsOf hitems
      have hall : all s' b items = all s b items :=
        all_congr hsame (fun r hr => ht r (by rw [hr]; rfl)) (by omega)
      change (checkBound n items.length >>= fun _ => all s' b items >>= fun _ => _) = _
      rw [hall]
      rfl
  | optional b =>
    by_cases habsent : v = .absent
    · subst habsent
      rw [type, type]
    · rw [type, type, base_congr hsame (fun r hr => ht r (by rw [hr]; rfl)) hv]
      · exact habsent
      · exact habsent
  | fixedBytes n => rw [type, type]
  | bytes n => rw [type, type]
  | string n => rw [type, type]

theorem structFields_congr {fs : List Schema.Field}
    (hfs : ∀ f ∈ fs, ∀ r, f.type.target? = some r → N r.name) {fields : List (String × Value)}
    (hfields : sizeOf fields ≤ size) : structFields s' fs fields = structFields s fs fields := by
  induction fs with
  | nil => rw [structFields, structFields]
  | cons f fs ih =>
    rw [List.forall_mem_cons] at hfs
    rw [structFields_cons, structFields_cons, ih hfs.2]
    split
    · next v hv =>
      have hsize := sizeOf_lookup hv
      rw [type_congr hsame hfs.1 (by omega)]
    · rfl

end Writer

theorem named_of_agreesOn (h : s.AgreesOn s' N) (size : Nat) {name : String} {v : Value}
    (hv : sizeOf v ≤ size) (hname : N name) : named s' name v = named s name v := by
  induction size generalizing name v with
  | zero => cases v <;> simp at hv
  | succ size ih =>
    have hsame (name : String) (v : Value) (hv : sizeOf v ≤ size) (hname : N name) :
        named s' name v = named s name v := ih hv hname
    rw [named, named, h.same name hname]
    cases hd : s.definition? name with
    | none => rfl
    | some d =>
      have htarget {t : Ty} (ht : t ∈ d.members) (r : Ref) (hr : t.target? = some r) : N r.name :=
        h.target hname hd ht hr
      cases d with
      | typedef t =>
        cases v with
        | typedef n inner =>
          rw [Value.typedef.sizeOf_spec] at hv
          dsimp only
          rw [type_congr hsame (htarget (List.mem_singleton_self t)) (by omega)]
        | _ => rfl
      | struct fs =>
        cases v with
        | struct n fields =>
          rw [Value.struct.sizeOf_spec] at hv
          dsimp only
          rw [structFields_congr hsame (fun f hf => htarget (List.mem_map_of_mem hf)) (by omega)]
        | _ => rfl
      | enum labels => rfl
      | union u =>
        cases v with
        | union n variant discriminant inner =>
          rw [Value.union.sizeOf_spec] at hv
          dsimp only
          split
          · next hn =>
            subst hn
            refine bind_congr_of_eq_ok fun x hselect => ?_
            obtain ⟨a, d⟩ := x
            dsimp only
            rw [ite_bind, ite_bind]
            refine bind_congr fun word => ?_
            cases hfield : a.field with
            | none => rfl
            | some f =>
              have hmem := Schema.Union.type_mem_members (select_eq_ok hselect).1 hfield
              dsimp only
              rw [type_congr hsame (htarget hmem) (by omega)]
          · rfl
        | _ => rfl

end Encode

end Wire

end XdrSchema
