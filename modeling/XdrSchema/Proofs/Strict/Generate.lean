import XdrSchema.Proofs.Rust.Names
import XdrSchema.Proofs.Strict.Sizing

/-! Strict generation of a module. The definition of each type is looked up for its declaration, its decoder
and its encoder, and its size for the first two. An encoder writes the first label of an arm that does not
carry a discriminant, which it must have. From a table that holds a schema, strict generation emits the
module of the schema. -/
namespace XdrSchema.Rust

open Schema (Table Definition Arm)
open Outcome (breach Agrees)
open Wire (SizeTable)
open Wire.Sizing (StrictQuery Yields strictSizeOf)

/-- What is written for the discriminant of an arm, where `carried` is for one that is carried. -/
def strictTag (carried : Tag) (word : String) (a : Arm) : Outcome Tag :=
  if a.carriesDiscriminant then return carried
  else
    match a.values with
    | n :: _ => return .literal n word
    | [] => breach (.assertion "an arm without a discriminant has a label")

def strictArm (carried : Tag) (word : String) (a : Arm) : Outcome EncodeArm :=
  return ⟨a.variant, ← strictTag carried word a, a.field.map fun f => Write.ofType f.type⟩

def strictEncode : Definition → Outcome EncodeBody
  | .union u => do
    let word := discriminantType u
    let arms ← u.arms.mapM fun a => strictArm (.oneOf a.values) word a
    let default ← u.default.toList.mapM (strictArm (.noneOf u.caseValues) word)
    return .choice (arms ++ default)
  | d => return EncodeBody.ofDefinition d

def strictItem (symbols : List Symbol) (t : Table) (naming : Naming) (settings : Settings)
    (name : String) : StrictQuery Item := do
  let target := naming.declared name
  let parameter := if naming.isGeneric name then some naming.parameter else none
  let declared ← .lift (t.definition symbols name)
  let size ← strictSizeOf symbols t [] name
  let declaration := ⟨name, declared.kind, target, parameter, size, settings.annotationsFor name,
    DeclBody.ofDefinition naming declared⟩
  let decoded ← .lift (t.definition symbols name)
  let size ← strictSizeOf symbols t [] name
  let decoder := ⟨naming.decoded name, 0 < size.min, DecodeBody.ofDefinition naming decoded⟩
  let encoded ← .lift (t.definition symbols name)
  return ⟨declaration, decoder, ⟨target, parameter, ← .lift (strictEncode encoded)⟩⟩

/-- The items of some types, with one record of sizes for all of them. -/
def strictItems (symbols : List Symbol) (t : Table) (naming : Naming) (settings : Settings)
    (names : List String) : Outcome (List Item) :=
  ((names.mapM (strictItem symbols t naming settings)).run.run .empty).1

/-- The types with what is looked up of them. -/
def strictTypes (symbols : List Symbol) (t : Table) (names : List String) :
    Outcome (List (String × Definition)) :=
  names.mapM fun name => do return (name, ← t.definition symbols name)

def strictGenerate (symbols : List Symbol) (t : Table) (settings : Settings) (sourceName : String) :
    Outcome String := do
  let names := (Symbol.types symbols).map (·.2.name)
  let s : Schema := ⟨symbols, ← strictTypes symbols t names⟩
  Outcome.report (checkNames s)
  let items ← strictItems symbols t (Naming.ofSchema s) settings names
  return (Module.mk sourceName settings.support settings.supportPath
    (Constant.knownConstants symbols t.values) items).text

/-! ### Encoders -/

theorem strictArm_case (word : String) (a : Arm) :
    strictArm (.oneOf a.values) word a = .ok (EncodeArm.ofCase word a) := by
  have hlength : a.values.length = a.labels.length := List.length_map ..
  unfold strictArm strictTag EncodeArm.ofCase Arm.carriesDiscriminant
  rw [← hlength]
  rcases a.values with _ | ⟨n, _ | ⟨k, rest⟩⟩ <;> rfl

theorem strictArm_default {u : Schema.Union} (hu : u.Proper) (word : String) :
    u.default.toList.mapM (strictArm (.noneOf u.caseValues) word) =
      .ok (u.default.map (EncodeArm.ofDefault u.caseValues)).toList := by
  cases hdefault : u.default with
  | none => rfl
  | some a =>
    have hcarries : a.carriesDiscriminant = true := by
      rw [Arm.carriesDiscriminant, hu.unlabelled a hdefault]
      rfl
    rw [Option.toList_some, List.mapM_cons, strictArm, strictTag, if_pos hcarries]
    rfl

theorem strictEncode_eq {d : Definition} (hd : d.Proper) :
    strictEncode d = .ok (EncodeBody.ofDefinition d) := by
  cases d with
  | union u =>
    rw [strictEncode, mapM_eq_ok_map fun a _ => strictArm_case (discriminantType u) a, strictArm_default hd]
    rfl
  | _ => rfl

/-! ### Items -/

variable {s : Schema} {t : Table}

theorem strictTypes_eq (h : t.Holds s) : strictTypes s.symbols t s.typeNames = .ok s.types := by
  have hname : ∀ x ∈ s.types,
      (do return (x.1, ← t.definition s.symbols x.1) : Outcome (String × Definition)) = .ok (id x) := by
    rintro ⟨name, d⟩ hx
    have hd : s.definition? name = some d :=
      (lookup_eq_some_iff_of_nodup h.wellFormed.distinct).mpr hx
    rw [h.definition name d hd]
    rfl
  rw [strictTypes, Schema.typeNames, List.mapM_map]
  exact (mapM_eq_ok_map hname).trans (by rw [List.map_id])

theorem yields_item (h : t.Holds s) (naming : Naming) (settings : Settings) {name : String}
    {d : Definition} (hd : s.definition? name = some d) :
    Yields s (strictItem s.symbols t naming settings name)
      (Item.ofDefinition naming settings (SizeTable.ofSchema s) name d) := by
  have hlookup : Yields s (.lift (t.definition s.symbols name)) d :=
    Wire.Sizing.yields_lift (h.definition name d hd)
  have hsize := Wire.Sizing.yields_sizeOf h hd
  unfold strictItem
  refine hlookup.bind (hsize.bind (hlookup.bind (hsize.bind (hlookup.bind ?_))))
  exact (Wire.Sizing.yields_lift (strictEncode_eq (h.wellFormed.proper name d hd))).bind
    (Wire.Sizing.yields_pure _)

theorem strictItems_eq (h : t.Holds s) (naming : Naming) (settings : Settings) :
    strictItems s.symbols t naming settings s.typeNames =
      .ok (s.types.map fun (name, d) => Item.ofDefinition naming settings (SizeTable.ofSchema s) name d) := by
  have hitems : Yields s ((s.types.map (·.1)).mapM (strictItem s.symbols t naming settings))
      (s.types.map fun (name, d) => Item.ofDefinition naming settings (SizeTable.ofSchema s) name d) := by
    rw [List.mapM_map]
    refine Wire.Sizing.yields_mapM ?_
    rintro ⟨name, d⟩ hx
    exact yields_item h naming settings
      ((lookup_eq_some_iff_of_nodup h.wellFormed.distinct).mpr hx)
  obtain ⟨st, hends, -⟩ := hitems _ (Wire.Sizing.exact_empty s)
  exact congrArg Prod.fst hends

/-! ### Names -/

theorem failsWith_checkInner (name : String) (span : Option Span) :
    FailsWith (·.fault.OfText) (checkInner name span) := by
  unfold checkInner
  split
  · exact failsWith_error trivial
  · exact failsWith_ok ()

theorem failsWith_checkItem (name : String) (span : Option Span) :
    FailsWith (·.fault.OfText) (checkItem name span) := by
  unfold checkItem
  split
  · exact failsWith_error trivial
  · split
    · exact failsWith_error trivial
    · exact failsWith_checkInner name span

theorem failsWith_checkVariants (d : Option Definition) (span : Option Span) :
    FailsWith (·.fault.OfText) (match d with
      | some (.union u) => u.allArms.forM fun a => checkInner a.variant span
      | _ => pure () : Except SpecError Unit) := by
  split
  · exact failsWith_forM fun a _ => failsWith_checkInner _ _
  · exact failsWith_ok ()

theorem failsWith_checkType (s : Schema) (symbol : Symbol) :
    FailsWith (·.fault.OfText) (checkType s symbol) := by
  unfold checkType
  cases symbol.type? with
  | none => exact failsWith_ok ()
  | some x =>
    have hvariants := failsWith_checkVariants (s.definition? symbol.name) symbol.span
    refine (failsWith_checkItem _ _).bind fun _ _ => ?_
    dsimp only
    split
    · exact (failsWith_forM fun f _ => failsWith_checkInner _ _).bind fun _ _ => hvariants
    · exact hvariants

theorem failsWith_checkValue (symbol : Symbol) : FailsWith (·.fault.OfText) (checkValue symbol) := by
  unfold checkValue
  cases symbol.meaning with
  | label owner v => exact failsWith_checkInner _ _
  | constant v => exact failsWith_checkItem _ _
  | _ => exact failsWith_ok ()

theorem failsWith_checkNames (s : Schema) : FailsWith (·.fault.OfText) (checkNames s) :=
  (failsWith_forM fun x _ => failsWith_checkType s x).bind fun _ _ =>
    failsWith_forM fun x _ => failsWith_checkValue x

/-! ### The module -/

theorem agrees_generate (h : t.Holds s) (settings : Settings) (sourceName : String) :
    Agrees (strictGenerate s.symbols t settings sourceName) (generate s settings sourceName) := by
  unfold strictGenerate generate
  dsimp only
  rw [← h.typeNames, strictTypes_eq h]
  change Agrees (Outcome.report (checkNames s) >>= fun _ => _) _
  refine (Outcome.agrees_report (failsWith_checkNames s)).bind fun _ _ => ?_
  rw [h.constants]
  change Agrees (strictItems s.symbols t (Naming.ofSchema s) settings s.typeNames >>= fun _ => _) _
  rw [strictItems_eq h]
  exact .ok _

end XdrSchema.Rust
