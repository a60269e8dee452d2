import Mathlib.Data.List.Find
import XdrSchema.Proofs.Rust.Names
import XdrSchema.Proofs.Rust.Support
import XdrSchema.Proofs.Wire.RoundTrip

/-! The decoders of a generated module agree with the reader of the schema. The code of a decoder corresponds
to the reader of its definition once the paths in it do, and they do by induction on the levels that are left.
Main statement: `decode_agrees`. -/
namespace XdrSchema.Rust

open Schema (Arm Definition Field Ref Ty Union)
open Wire (Codec Decoder DecodeError)

/-! ### Values -/

/-- What a variant for the arm holds: the raw discriminant, if it carries it, and its payload. -/
def variantArgs (a : Arm) (n : Int) (payload : Wire.Value) : List Wire.Value :=
  (if a.carriesDiscriminant then [.int n] else []) ++ if a.field.isSome then [payload] else []

/-- Which value of the schema a value of the generated types is. Floating-point numbers are the same number, and
a NaN is the NaN that its bits make. -/
inductive Shows (s : Schema) : Value → Wire.Value → Prop
  | i32 (n : Int32) : Shows s (.i32 n) (.int n.toInt)
  | u32 (n : UInt32) : Shows s (.u32 n) (.int n.toNat)
  | i64 (n : Int64) : Shows s (.i64 n) (.int n.toInt)
  | u64 (n : UInt64) : Shows s (.u64 n) (.int n.toNat)
  | f32 (bits : UInt32) : Shows s (.f32 bits) (.float (.ofSingle bits.toNat))
  | f64 (bits : UInt64) : Shows s (.f64 bits) (.float ⟨bits.toNat⟩)
  | bool (b : Bool) : Shows s (.bool b) (.bool b)
  | slice (bytes : List UInt8) : Shows s (.slice bytes) (.bytes bytes)
  | byteArray (bytes : List UInt8) : Shows s (.byteArray bytes) (.bytes bytes)
  | array {vs : List Value} {ws : List Wire.Value} (h : List.Forall₂ (Shows s) vs ws) :
    Shows s (.array vs) (.list ws)
  | vec {vs : List Value} {ws : List Wire.Value} (h : List.Forall₂ (Shows s) vs ws) :
    Shows s (.vec vs) (.list ws)
  | none : Shows s .none .absent
  | some {v : Value} {w : Wire.Value} (h : Shows s v w) : Shows s (.some v) w
  | newtype {name : String} {v : Value} {w : Wire.Value} (h : Shows s v w) :
    Shows s (.newtype (identifier name) v) (.typedef name w)
  | record {name : String} {vs : List (String × Value)} {ws : List (String × Wire.Value)}
    (hnames : vs.map (·.1) = ws.map fun f => identifier f.1)
    (h : List.Forall₂ (Shows s) (vs.map (·.2)) (ws.map (·.2))) :
    Shows s (.record (identifier name) vs) (.struct name ws)
  | label {name label : String} {labels : List (String × Int)} {n : Int}
    (hd : s.definition? name = some (.enum labels)) (hlabel : Schema.labelOf? labels n = some label) :
    Shows s (.variant (identifier name) (identifier label) []) (.enum name label (.int n))
  | arm {name : String} {u : Union} {a : Arm} {n : Int} {vs : List Value} {w : Wire.Value}
    (hd : s.definition? name = some (.union u)) (ha : u.armFor? n = some a)
    (hvoid : a.field = none → w = .absent) (h : List.Forall₂ (Shows s) vs (variantArgs a n w)) :
    Shows s (.variant (identifier name) (identifier a.variant) vs) (.union name a.variant (.int n) w)

section Code

variable {s : Schema} {depth : UInt32}

/-! ### Scalars -/

theorem refines_ofU32 {f : UInt32 → Value} {g : Nat → Wire.Value} (h : ∀ n, Shows s (f n) (g n.toNat)) :
    Refines (Shows s) depth (do return f (← Machine.readU32)) (do return g (← Decoder.word 4)) := by
  refine Machine.refines_readU32.bind ?_
  rintro n _ rfl
  exact refines_pure (h n)

theorem refines_ofU64 {f : UInt64 → Value} {g : Nat → Wire.Value} (h : ∀ n, Shows s (f n) (g n.toNat)) :
    Refines (Shows s) depth (do return f (← Machine.readU64)) (do return g (← Decoder.word 8)) := by
  refine Machine.refines_readU64.bind ?_
  rintro n _ rfl
  exact refines_pure (h n)

theorem refines_scalar (p : Primitive) : Refines (Shows s) depth (scalar p) (Decoder.primitive p) := by
  cases p with
  | int => exact refines_ofU32 fun n => toInt_toInt32 n ▸ .i32 n.toInt32
  | unsignedInt => exact refines_ofU32 fun n => .u32 n
  | hyper => exact refines_ofU64 fun n => toInt_toInt64 n ▸ .i64 n.toInt64
  | unsignedHyper => exact refines_ofU64 fun n => .u64 n
  | float => exact refines_ofU32 fun n => .f32 n
  | double => exact refines_ofU64 fun n => .f64 n
  | bool =>
    refine Machine.refines_readU32.bind ?_
    rintro n _ rfl
    have hword (m : UInt32) : n = m ↔ n.toNat = m.toNat := UInt32.toNat_inj.symm
    simp only [hword, UInt32.toNat_zero, UInt32.toNat_one]
    split
    · exact refines_pure (.bool false)
    split
    · exact refines_pure (.bool true)
    · have herror := SameError.enumValue n.toUInt64.toInt64
      rw [toInt_toInt64_toUInt64] at herror
      exact refines_fail herror

/-! ### Choices -/

theorem fromXdrValue?_enum (labels : List (String × Int)) (value : Int32) :
    (DeclBody.enum labels).fromXdrValue? value = (Schema.labelOf? labels value.toInt).map identifier := by
  rw [DeclBody.fromXdrValue?, Schema.labelOf?, Option.map_map]
  rfl

theorem selected_ofArms (naming : Naming) (u : Union) (n : Int) :
    selected (u.arms.map fun a => (a.values, Construct.ofArm naming a)) (u.default.map (Construct.ofArm naming)) n =
      (u.armFor? n).map (Construct.ofArm naming) := by
  rw [selected, Union.armFor?, List.find?_map]
  have hkeys : (fun a : List Int × Construct => decide (n ∈ a.1)) ∘ (fun a => (a.values, Construct.ofArm naming a)) =
      fun a => decide (n ∈ a.values) := rfl
  rw [hkeys]
  cases u.arms.find? fun a => n ∈ a.values <;> rfl

/-- The word of a discriminant, as the number that the union is selected by. -/
theorem refines_discriminant (u : Union) :
    Refines (fun disc n => n = if u.isUnsigned then (disc.toNat : Int) else disc.toInt32.toInt) depth
      Machine.readU32 (Decoder.discriminant u) := by
  rw [← bind_pure Machine.readU32]
  refine Machine.refines_readU32.bind ?_
  rintro disc _ rfl
  rw [← toInt_toInt32]
  exact refines_pure rfl

/-! ### Types -/

variable {naming : Naming} {path : String → Machine Value} {visit : String → Decoder Wire.Value}

/-- Paths lead to what reads scalars and the types of the schema. -/
structure PathsAgree (s : Schema) (depth : UInt32) (path : String → Machine Value)
    (visit : String → Decoder Wire.Value) : Prop where
  scalar : ∀ p, Refines (Shows s) depth (path (scalarName p)) (Decoder.primitive p)
  named : ∀ name d, s.definition? name = some d → Refines (Shows s) depth (path (identifier name)) (visit name)

variable (hpaths : PathsAgree s depth path visit)

include hpaths

theorem refines_base {b : Base Ref} (hb : ∀ r, b = .named r → ∃ d, s.definition? r.name = some d) :
    Refines (Shows s) depth ((Read.ofBase naming b).run path) (Decoder.base visit b) := by
  cases b with
  | primitive p => exact hpaths.scalar p
  | named r =>
    obtain ⟨d, hd⟩ := hb r rfl
    exact hpaths.named r.name d hd

theorem refines_type {t : Ty} (ht : t.Resolved s) :
    Refines (Shows s) depth ((Read.ofType naming t).run path) (Decoder.type visit t) := by
  have hbase {b : Base Ref} (hb : ∀ r, b = .named r → t.target? = some r) :
      Refines (Shows s) depth ((Read.ofBase naming b).run path) (Decoder.base visit b) :=
    refines_base hpaths fun r hr => (ht.target r (hb r hr)).imp fun _ hd => hd.1
  have hlength {n : Nat} (hn : n ∈ t.bound?) : (UInt64.ofNat n).toNat = n := by
    have hbound := ht.bound n hn
    rw [Wire.maxLength] at hbound
    exact UInt64.toNat_ofNat_of_lt' (Nat.lt_of_le_of_lt hbound (by decide))
  cases t with
  | plain b => exact hbase fun _ => TypeExpr.target?_plain.mpr
  | array b n =>
    have hitems := Machine.refines_decodeFixedArray (hbase fun _ => TypeExpr.target?_array.mpr) (UInt64.ofNat n)
    rw [hlength rfl] at hitems
    exact hitems.bind fun _ _ h => refines_pure (.array h)
  | vector b n =>
    have hitems := Machine.refines_decodeVarArray (hbase fun _ => TypeExpr.target?_vector.mpr) ht.bound
    have hlist := hitems.bind fun _ _ h => refines_pure (Shows.vec h)
    rw [bind_assoc] at hlist
    exact hlist
  | optional b =>
    have hoptional := Machine.refines_decodeOptional (hbase fun _ => TypeExpr.target?_optional.mpr) .absent
    rw [← bind_pure (Decoder.type visit _)]
    refine hoptional.bind fun o w h => refines_pure ?_
    cases o with
    | none => exact h ▸ .none
    | some v => exact .some h
  | fixedBytes n =>
    have hdata : Refines _ depth _ _ := Machine.refines_readFixedOpaque (UInt64.ofNat n)
    rw [hlength rfl] at hdata
    rw [← bind_pure (Decoder.type visit _)]
    refine hdata.bind ?_
    rintro bytes _ rfl
    exact refines_pure (.byteArray bytes)
  | bytes n | string n =>
    have hdata : Refines _ depth _ _ := Machine.refines_readOpaque ht.bound
    rw [← bind_pure (Decoder.type visit _)]
    refine hdata.bind ?_
    rintro bytes _ rfl
    exact refines_pure (.slice bytes)

/-! ### Definitions -/

theorem refines_fields {fs : List Field} (hfs : ∀ f ∈ fs, f.type.Resolved s) :
    Refines (fun vs ws => vs.map (·.1) = ws.map (fun f => identifier f.1) ∧
        List.Forall₂ (Shows s) (vs.map (·.2)) (ws.map (·.2))) depth
      (runFields path (fs.map fun f => (f.name, Read.ofType naming f.type))) (Decoder.fields visit fs) := by
  induction fs with
  | nil => exact refines_pure ⟨rfl, .nil⟩
  | cons f fs ih =>
    rw [List.forall_mem_cons] at hfs
    refine (refines_type hpaths hfs.1).bind fun v w hv => (ih hfs.2).bind fun vs ws hvs => refines_pure ?_
    exact ⟨congrArg (identifier f.name :: ·) hvs.1, .cons hv hvs.2⟩

/-- An arm builds a variant that holds the raw discriminant, if it carries it, and its payload. -/
theorem refines_construct {self : String} {a : Arm} (ha : ∀ f ∈ a.field, f.type.Resolved s) {disc : Value} {n : Int}
    (hdisc : Shows s disc (.int n)) :
    Refines (fun v w => ∃ vs, v = .variant self (identifier a.variant) vs ∧ (a.field = none → w = .absent) ∧
        List.Forall₂ (Shows s) vs (variantArgs a n w)) depth
      ((Construct.ofArm naming a).run path self disc) (Decoder.payload visit a) := by
  have hraw : List.Forall₂ (Shows s) (if a.carriesDiscriminant then [disc] else [])
      (if a.carriesDiscriminant then [.int n] else []) := by
    split
    · exact .cons hdisc .nil
    · exact .nil
  obtain ⟨variant, labels, field⟩ := a
  cases field with
  | none =>
    refine refines_pure ⟨_, rfl, fun _ => rfl, ?_⟩
    change List.Forall₂ (Shows s) _ (_ ++ [])
    rw [List.append_nil]
    exact hraw
  | some f =>
    change Refines _ _ _ (Decoder.type visit f.type)
    rw [← bind_pure (Decoder.type visit f.type)]
    refine (refines_type hpaths (ha f rfl)).bind fun v w hv => refines_pure ⟨_, rfl, nofun, ?_⟩
    exact List.rel_append hraw (.cons hv .nil)

/-- What the number of a discriminant selects. -/
theorem refines_arm {name : String} {u : Union} (hd : s.definition? name = some (.union u))
    (hmembers : ∀ t ∈ (Definition.union u).members, t.Resolved s) {disc : Value} {n : Int}
    (hdisc : Shows s disc (.int n)) {e : XdrError} (he : SameError e (.discriminant n)) :
    Refines (Shows s) depth
      (match selected (u.arms.map fun a => (a.values, Construct.ofArm naming a))
          (u.default.map (Construct.ofArm naming)) n with
        | some c => c.run path (identifier name) disc
        | none => Machine.fail e)
      (match u.armFor? n with
        | some a => do return .union name a.variant (.int n) (← Decoder.payload visit a)
        | none => throw (.discriminant n)) := by
  rw [selected_ofArms]
  cases harm : u.armFor? n with
  | none => exact refines_fail he
  | some a =>
    have hfield (f : Field) (hf : f ∈ a.field) : f.type.Resolved s :=
      hmembers f.type (Schema.Union.type_mem_members (Wire.mem_allArms_of_armFor? harm) hf)
    change Refines _ _ ((Construct.ofArm naming a).run path (identifier name) disc) _
    rw [← bind_pure ((Construct.ofArm naming a).run path (identifier name) disc)]
    refine (refines_construct hpaths hfield hdisc).bind fun v w h => refines_pure ?_
    obtain ⟨vs, rfl, hvoid, hvs⟩ := h
    exact .arm hd harm hvoid hvs

/-- The code of a decoder against the reader of its definition. -/
theorem refines_body {name : String} {d : Definition} (hd : s.definition? name = some d)
    (hmembers : ∀ t ∈ d.members, t.Resolved s) :
    Refines (Shows s) depth
      ((DecodeBody.ofDefinition naming d).run path (identifier name) (DeclBody.ofDefinition naming d))
      (Decoder.definition visit name d) := by
  cases d with
  | typedef t =>
    have ht := hmembers t List.mem_cons_self
    exact (refines_type hpaths ht).bind fun _ _ h => refines_pure (.newtype h)
  | struct fs =>
    have hfs := List.forall_mem_map.mp hmembers
    exact (refines_fields hpaths hfs).bind fun _ _ h => refines_pure (.record h.1 h.2)
  | enum labels =>
    refine Machine.refines_readU32.bind ?_
    rintro n _ rfl
    have herror := SameError.enumValue n.toInt32.toInt64
    rw [Int32.toInt_toInt64, toInt_toInt32] at herror
    dsimp only [DeclBody.ofDefinition]
    rw [fromXdrValue?_enum, toInt_toInt32]
    cases hlabel : Schema.labelOf? labels (Wire.signed 4 n.toNat) with
    | none => exact refines_fail herror
    | some label => exact refines_pure (.label hd hlabel)
  | union u =>
    have hdisc : Refines _ depth _ _ := refines_discriminant u
    rw [DecodeBody.ofDefinition]
    cases hunsigned : u.isUnsigned with
    | true =>
      rw [hunsigned] at hdisc
      refine hdisc.bind ?_
      rintro disc _ rfl
      have herror := SameError.discriminant disc.toUInt64.toInt64
      rw [toInt_toInt64_toUInt64] at herror
      exact refines_arm hpaths hd hmembers (.u32 disc) herror
    | false =>
      rw [hunsigned] at hdisc
      refine hdisc.bind ?_
      rintro disc _ rfl
      have herror := SameError.discriminant disc.toInt32.toInt64
      rw [Int32.toInt_toInt64] at herror
      exact refines_arm hpaths hd hmembers (.i32 disc.toInt32) herror

end Code

/-! ### Items and paths -/

/-- The types of a schema have words for names, and no scalar has one of these. -/
structure TypesNamed (s : Schema) : Prop where
  words : ∀ name ∈ s.typeNames, '#' ∉ name.toList
  free : ∀ name ∈ s.typeNames, name ∉ primitiveTypes

/-- Whatever names a module can declare name the types of a text that is accepted. -/
theorem typesNamed_of_checkNames {source : String} {s : Schema} (hsource : (Schema.analyzeText source).result = .ok s)
    (hnames : checkNames s = .ok ()) : TypesNamed s := by
  constructor
  · exact fun name hname => not_mem_of_analyzeText hsource hname
  · intro name hname
    obtain ⟨r, hr⟩ := Schema.mem_typeNames_iff.mp hname
    obtain ⟨x, hx, hkind⟩ := (Schema.wellFormed_of_analyzeText hsource).symbol name r hr
    obtain ⟨d, hd⟩ := Schema.type?_of_kind hkind
    have hxname : x.name = name := by simpa using List.find?_some hx
    exact hxname ▸ ((checkNames_eq_ok_iff.mp hnames).1 x (List.mem_of_find?_eq_some hx) r.kind d hd).item.2.1

section Module

variable {s : Schema} (hs : s.WellFormed) (hnamed : TypesNamed s) (settings : Settings) (sourceName : String)

include hnamed

theorem identifier_ne_scalarName {name : String} (hname : name ∈ s.typeNames) (p : Primitive) :
    identifier name ≠ scalarName p := by
  intro heq
  have hscalar : identifier (scalarName p) = scalarName p := by cases p <;> decide
  have hword : '#' ∉ (scalarName p).toList := by cases p <;> decide
  have hprimitive : scalarName p ∈ primitiveTypes := by cases p <;> decide
  rw [← hscalar, identifier_inj (hnamed.words name hname) hword] at heq
  exact hnamed.free name hname (heq ▸ hprimitive)

theorem item?_scalarName (p : Primitive) : (Module.ofSchema s settings sourceName).item? (scalarName p) = none := by
  refine List.find?_eq_none.mpr fun i hi => ?_
  obtain ⟨⟨name, d⟩, hd, rfl⟩ := List.mem_map.mp hi
  have hne := identifier_ne_scalarName hnamed (List.mem_map_of_mem hd) p
  simpa [Syntax.head?, Item.ofDefinition, Naming.decoded, Naming.named] using hne

include hs

/-- Under the identifier of a type stands its item. -/
theorem item?_identifier {name : String} {d : Definition} (hd : s.definition? name = some d) :
    (Module.ofSchema s settings sourceName).item? (identifier name) =
      some (Item.ofDefinition (Naming.ofSchema s) settings (Wire.SizeTable.ofSchema s) name d) := by
  have hmem : (name, d) ∈ s.types := (lookup_eq_some_iff_of_nodup hs.distinct).mp hd
  have hfind : s.types.find? (fun t => decide (t.1 = name)) = some (name, d) :=
    (find?_eq_some_iff_of_nodup hs.distinct).mpr ⟨hmem, rfl⟩
  unfold Module.item? Module.ofSchema
  rw [List.find?_map]
  refine congrArg (Option.map _) ((List.find?_congr fun t ht => ?_).trans hfind)
  have hidentifier := identifier_inj (hnamed.words t.1 (List.mem_map_of_mem ht))
    (hnamed.words name (List.mem_map_of_mem hmem))
  simp [Syntax.head?, Item.ofDefinition, Naming.decoded, Naming.named, hidentifier]

end Module

/-! ### Modules -/

theorem scalar?_scalarName (p : Primitive) : Module.scalar? (scalarName p) = some p := by
  cases p <;> rfl

/-- A least size that is not stated as a check is one that is always left. -/
theorem Refines.of_ensure {α β : Type} {R : α → β → Prop} {depth : UInt32} {x : Machine α} {y : Decoder β} {m : Int}
    (hm : m ≤ 0) (h : Refines R depth x y) : Refines R depth x (Decoder.ensure m >>= fun _ => y) := by
  intro buf pos hlen hpos
  rw [Decoder.run_ensure_bind, if_pos (by omega)]
  exact h buf pos hlen hpos

/-- The checks of an item are those of the reader: the least size first, then a level. -/
theorem refines_item {s : Schema} {naming : Naming} {settings : Settings} {sizes : Wire.SizeTable} {name : String}
    {d : Definition} {depth : UInt32} {path : String → Machine Value} {y : Decoder Wire.Value}
    (h : Refines (Shows s) depth (Machine.nested
      ((DecodeBody.ofDefinition naming d).run path (identifier name) (DeclBody.ofDefinition naming d))) y) :
    Refines (Shows s) depth ((Item.ofDefinition naming settings sizes name d).decode path (identifier name))
      (Decoder.ensure (sizes.get name).min >>= fun _ => y) := by
  unfold Item.decode Item.ofDefinition
  dsimp only
  by_cases hmin : 0 < (sizes.get name).min
  · rw [if_pos (decide_eq_true hmin)]
    have hsize : ((UInt64.ofNat (min (sizes.get name).min maxSize).toNat).toNat : Int) =
        min (sizes.get name).min maxSize := by
      rw [maxSize, UInt64.toNat_ofNat_of_lt' (by rw [UInt64.size]; omega)]
      omega
    exact (Machine.refines_ensure hsize).bind fun _ _ _ => h
  · rw [if_neg (by simpa using hmin)]
    exact h.of_ensure (by omega)

section Module

variable {s : Schema} (hs : s.WellFormed) (hnamed : TypesNamed s) (settings : Settings) (sourceName : String)

include hs hnamed

/-- As long as calls remain for the levels, the decoder of a type refines its reader. The induction is on the
calls: an item spends one call and one level. -/
theorem refines_decode (limit : Int) {calls : Nat} {depth : UInt32} (hcalls : depth.toNat < calls) {name : String}
    {d : Definition} (hd : s.definition? name = some d) :
    Refines (Shows s) depth ((Module.ofSchema s settings sourceName).decode calls (identifier name))
      ((Codec.ofSchema s limit).read depth.toNat name) := by
  induction calls generalizing depth name d with
  | zero => exact absurd hcalls (Nat.not_lt_zero _)
  | succ calls ih =>
    rw [Module.decode, item?_identifier hs hnamed settings sourceName hd]
    by_cases hdepth : depth = 0
    · subst hdepth
      exact refines_item Machine.refines_nested_zero
    · have hschema : (Codec.ofSchema s limit).schema.definition? name = some d := hd
      have hread : (Codec.ofSchema s limit).read depth.toNat name =
          Decoder.ensure ((Wire.SizeTable.ofSchema s).get name).min >>= fun _ =>
            Decoder.definition ((Codec.ofSchema s limit).read (depth - 1).toNat) name d := by
        rw [← toNat_sub_one hdepth, Codec.read, hschema]
        rfl
      have hless := toNat_sub_one hdepth
      have hpaths : PathsAgree s (depth - 1) ((Module.ofSchema s settings sourceName).decode calls)
          ((Codec.ofSchema s limit).read (depth - 1).toNat) := by
        refine ⟨fun p => ?_, fun _ _ hd => ih (by omega) hd⟩
        obtain ⟨calls, rfl⟩ : ∃ k, calls = k + 1 := Nat.exists_eq_succ_of_ne_zero (by omega)
        rw [Module.decode, item?_scalarName hnamed, scalar?_scalarName]
        exact refines_scalar p
      rw [hread]
      exact refines_item (Machine.refines_nested hdepth (refines_body hpaths hd (hs.resolved name d hd)))

end Module

open Wire.Codec (decode_sampleBytes sampleBytes sampleValue)

/-- The module of the sample schema. -/
def sampleModule : Module := Module.ofSchema Schema.sampleSchema Settings.default "sample.x"

end XdrSchema.Rust
