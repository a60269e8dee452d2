import XdrSchema.Proofs.Concrete.Structure
import XdrSchema.Proofs.Number.Literal
import XdrSchema.Proofs.Spec.Proper
import XdrSchema.Proofs.Strict.Tree

/-! Which trees make a specification: those whose definitions are sound by themselves. What is made has the same
parts in the same order, and what is not fails in the first definition that has a flaw. The flaw is reported, unless it
is a literal of too many digits. Main statement: `accepts_sound_trees`. -/
namespace XdrSchema.Spec

open Concrete (Word numbersOf givenNames)

/-! ### Made from a tree -/

inductive ValueFrom : Concrete.Value → Value → Prop
  | number {w : Word} {n : Int} (h : Number.literal? w.text.toList = some n) :
    ValueFrom (.number w) (.literal n w.text w.span)
  | reference {w : Word} : ValueFrom (.reference w) (.constant w.text w.span)

inductive TypeFrom : TypeExpr Concrete.Value String → Ty → Prop
  | plain {b : Base String} : TypeFrom (.plain b) (.plain b)
  | optional {b : Base String} : TypeFrom (.optional b) (.optional b)
  | array {b : Base String} {n : Concrete.Value} {m : Value} (h : ValueFrom n m) :
    TypeFrom (.array b n) (.array b m)
  | fixedBytes {n : Concrete.Value} {m : Value} (h : ValueFrom n m) : TypeFrom (.fixedBytes n) (.fixedBytes m)
  | vector {b : Base String} {n : Option Concrete.Value} {m : Option Value} (h : Option.Rel ValueFrom n m) :
    TypeFrom (.vector b n) (.vector b m)
  | bytes {n : Option Concrete.Value} {m : Option Value} (h : Option.Rel ValueFrom n m) :
    TypeFrom (.bytes n) (.bytes m)
  | string {n : Option Concrete.Value} {m : Option Value} (h : Option.Rel ValueFrom n m) :
    TypeFrom (.string n) (.string m)

inductive PayloadFrom : Concrete.Declaration → Payload → Prop
  | void {span : Span} : PayloadFrom (.void span) (.void span)
  | field {name : Word} {type : TypeExpr Concrete.Value String} {t : Ty} {span : Span} (h : TypeFrom type t) :
    PayloadFrom (.item name type span) (.field ⟨name.text, t, span, name.span⟩)

inductive MemberFrom : Word × Concrete.Value → Member → Prop
  | mk {name : Word} {v : Concrete.Value} {u : Value} (h : ValueFrom v u) :
    MemberFrom (name, v) ⟨name.text, u, name.span⟩

/-- The case arms in order, and the default arm, which can stand anywhere among them. -/
inductive ArmsFrom : List Concrete.Arm → List Arm → Option Payload → Prop
  | nil : ArmsFrom [] [] none
  | case {labels : List Concrete.Value} {values : List Value} {d : Concrete.Declaration} {p : Payload} {span : Span}
    {rest : List Concrete.Arm} {arms : List Arm} {default? : Option Payload}
    (hlabels : List.Forall₂ ValueFrom labels values) (hd : PayloadFrom d p) (hrest : ArmsFrom rest arms default?) :
    ArmsFrom (.case labels d span :: rest) (⟨values, p, span⟩ :: arms) default?
  | default {d : Concrete.Declaration} {p : Payload} {span : Span} {rest : List Concrete.Arm} {arms : List Arm}
    (hd : PayloadFrom d p) (hrest : ArmsFrom rest arms none) :
    ArmsFrom (.default d span :: rest) arms (some p)

/-- What was written as a definition, with its name. -/
inductive BodyFrom : Concrete.Body → Word → Body → Prop
  | const {name : Word} {v : Concrete.Value} {u : Value} (h : ValueFrom v u) :
    BodyFrom (.const name v) name (.const u)
  | typedef {name : Word} {type : TypeExpr Concrete.Value String} {t : Ty} {span : Span} (h : TypeFrom type t) :
    BodyFrom (.typedef (.item name type span)) name (.typedef t)
  | struct {name : Word} {ds : List Concrete.Declaration} {fields : List (Field Ty)}
    (h : List.Forall₂ (fun d f => PayloadFrom d (.field f)) ds fields) :
    BodyFrom (.struct name ds) name (.struct fields)
  | enum {name : Word} {ms : List (Word × Concrete.Value)} {members : List Member}
    (h : List.Forall₂ MemberFrom ms members) : BodyFrom (.enum name ms) name (.enum members)
  | union {name dname : Word} {b : Base String} {span : Span} {as : List Concrete.Arm} {arms : List Arm}
    {default? : Option Payload} (h : ArmsFrom as arms default?) :
    BodyFrom (.union name (.item dname (.plain b) span) as) name
      (.union ⟨⟨dname.text, b, span, dname.span⟩, arms, default?⟩)

inductive DefinitionFrom : Concrete.Definition → Definition → Prop
  | mk {body : Concrete.Body} {name : Word} {b : Body} {span : Span} (h : BodyFrom body name b) :
    DefinitionFrom ⟨body, span⟩ ⟨name.text, b, span, name.span⟩

theorem valueOf_eq_ok_iff {v : Concrete.Value} {u : Value} : valueOf v = .ok u ↔ ValueFrom v u := by
  cases v with
  | number w =>
    rw [valueOf_number_eq_ok_iff]
    constructor
    · rintro ⟨n, hn, rfl⟩
      exact .number hn
    · rintro (hn | _)
      exact ⟨_, hn, rfl⟩
  | reference w =>
    constructor
    · rintro ⟨⟩
      exact .reference
    · rintro ⟨⟩
      rfl

theorem boundOf_eq_ok_iff {n : Option Concrete.Value} {m : Option Value} :
    boundOf n = .ok m ↔ Option.Rel ValueFrom n m := by
  cases n with
  | none =>
    constructor
    · rintro ⟨⟩
      exact .none
    · rintro ⟨⟩
      rfl
  | some v =>
    rw [boundOf, bind_eq_ok_iff]
    constructor
    · rintro ⟨u, hu, ⟨⟩⟩
      exact .some (valueOf_eq_ok_iff.mp hu)
    · rintro ⟨⟩
      exact ⟨_, valueOf_eq_ok_iff.mpr ‹_›, rfl⟩

theorem typeFrom_of_typeOf {type : TypeExpr Concrete.Value String} {t : Ty} (h : typeOf type = .ok t) :
    TypeFrom type t := by
  cases type with
  | plain b => cases h; exact .plain
  | optional b => cases h; exact .optional
  | array b n | fixedBytes n =>
    obtain ⟨m, hm, ⟨⟩⟩ := bind_eq_ok_iff.mp h
    constructor
    exact valueOf_eq_ok_iff.mp hm
  | vector b n | bytes n | string n =>
    obtain ⟨m, hm, ⟨⟩⟩ := bind_eq_ok_iff.mp h
    constructor
    exact boundOf_eq_ok_iff.mp hm

theorem payloadFrom_of_payloadOf {d : Concrete.Declaration} {p : Payload} (h : payloadOf d = .ok p) :
    PayloadFrom d p := by
  cases d with
  | void span => cases h; exact .void
  | item name type span =>
    obtain ⟨t, ht, ⟨⟩⟩ := bind_eq_ok_iff.mp h
    exact .field (typeFrom_of_typeOf ht)

theorem forall₂_of_mapM {α β : Type} {f : α → Checked β} {R : α → β → Prop} {as : List α} {bs : List β}
    (h : as.mapM f = .ok bs) (hR : ∀ a b, f a = .ok b → R a b) : List.Forall₂ R as bs :=
  (mapM_eq_ok_iff.mp h).imp hR

theorem memberFrom_of_memberOf {m : Word × Concrete.Value} {u : Member} (h : memberOf m = .ok u) :
    MemberFrom m u := by
  obtain ⟨v, hv, ⟨⟩⟩ := bind_eq_ok_iff.mp h
  exact .mk (valueOf_eq_ok_iff.mp hv)

theorem fieldsFrom_of_fieldsOf {owner : String} {seen : List String} {ds : List Concrete.Declaration}
    {fields : List (Field Ty)} (h : fieldsOf owner seen ds = .ok fields) :
    List.Forall₂ (fun d f => PayloadFrom d (.field f)) ds fields := by
  induction ds generalizing seen fields with
  | nil =>
    cases h
    exact .nil
  | cons d rest ih =>
    obtain ⟨p, hp, h⟩ := bind_eq_ok_iff.mp h
    cases p with
    | void span => cases h
    | field f =>
      dsimp only at h
      split at h
      · cases h
      · obtain ⟨others, hothers, ⟨⟩⟩ := bind_eq_ok_iff.mp h
        exact .cons (payloadFrom_of_payloadOf hp) (ih hothers)

theorem exists_discriminant {union : String} {switch : Concrete.Declaration} {f : Field (Base String)}
    (h : discriminantOf union switch = .ok f) :
    ∃ name b span, switch = .item name (.plain b) span ∧ f = ⟨name.text, b, span, name.span⟩ := by
  unfold discriminantOf at h
  split at h
  · cases h
    exact ⟨_, _, _, rfl, rfl⟩
  · cases h

/-- Of two default arms, one met before and one written here, the second is refused. -/
theorem armsFrom_of_armsOf {union : String} {arms : List Concrete.Arm} {default : Option Payload}
    {seen : List String} {result : List Arm × Option Payload} (h : armsOf union default seen arms = .ok result) :
    ∃ default?, ArmsFrom arms result.1 default? ∧ result.2 = default?.or default ∧
      (default.isSome → default? = none) := by
  induction arms generalizing default seen result with
  | nil =>
    cases h
    exact ⟨none, .nil, rfl, fun _ => rfl⟩
  | cons a rest ih =>
    cases a with
    | case labels d span =>
      obtain ⟨values, hvalues, h⟩ := bind_eq_ok_iff.mp h
      obtain ⟨p, hp, h⟩ := bind_eq_ok_iff.mp h
      obtain ⟨_, -, h⟩ := bind_eq_ok_iff.mp h
      obtain ⟨others, hothers, ⟨⟩⟩ := bind_eq_ok_iff.mp h
      obtain ⟨default?, hrest, hresult, hnone⟩ := ih hothers
      have hlabels := forall₂_of_mapM hvalues fun _ _ => valueOf_eq_ok_iff.mp
      exact ⟨default?, .case hlabels (payloadFrom_of_payloadOf hp) hrest, hresult, hnone⟩
    | default d span =>
      dsimp only [armsOf] at h
      split at h
      · cases h
      · next hdefault =>
        obtain ⟨p, hp, h⟩ := bind_eq_ok_iff.mp h
        obtain ⟨_, -, h⟩ := bind_eq_ok_iff.mp h
        obtain ⟨default?, hrest, hresult, hnone⟩ := ih h
        obtain rfl := hnone rfl
        exact ⟨some p, .default (payloadFrom_of_payloadOf hp) hrest, hresult, fun hsome => absurd hsome hdefault⟩

theorem definitionFrom_of_definitionOf {c : Concrete.Definition} {d : Definition} (h : definitionOf c = .ok d) :
    DefinitionFrom c d := by
  obtain ⟨body, span⟩ := c
  cases body with
  | const name v =>
    obtain ⟨u, hu, ⟨⟩⟩ := bind_eq_ok_iff.mp h
    exact .mk (.const (valueOf_eq_ok_iff.mp hu))
  | typedef declaration =>
    obtain ⟨p, hp, h⟩ := bind_eq_ok_iff.mp h
    cases payloadFrom_of_payloadOf hp with
    | void => cases h
    | field ht =>
      cases h
      exact .mk (.typedef ht)
  | struct name fields =>
    obtain ⟨fs, hfs, ⟨⟩⟩ := bind_eq_ok_iff.mp h
    exact .mk (.struct (fieldsFrom_of_fieldsOf hfs))
  | enum name members =>
    obtain ⟨ms, hms, ⟨⟩⟩ := bind_eq_ok_iff.mp h
    exact .mk (.enum (forall₂_of_mapM hms fun _ _ => memberFrom_of_memberOf))
  | union name switch arms =>
    obtain ⟨u, hu, ⟨⟩⟩ := bind_eq_ok_iff.mp h
    obtain ⟨f, hf, h⟩ := bind_eq_ok_iff.mp hu
    obtain ⟨result, hresult, h⟩ := bind_eq_ok_iff.mp h
    dsimp only at h
    split at h
    · cases h
    · cases h
      obtain ⟨dname, b, span, rfl, rfl⟩ := exists_discriminant hf
      obtain ⟨default?, harms, hdefault, -⟩ := armsFrom_of_armsOf hresult
      rw [hdefault, Option.or_none]
      exact .mk (.union harms)

/-! ### What is made is sound -/

/-- The numbers among some values are literals. -/
def Legible (vs : List Concrete.Value) : Prop := ∀ w ∈ numbersOf vs, w.IsLiteral

theorem legible_iff {vs : List Concrete.Value} : Legible vs ↔ ∀ v ∈ vs, ∀ w ∈ v.number?, w.IsLiteral := by
  simp only [Legible, numbersOf, List.mem_filterMap, Option.mem_def]
  exact ⟨fun h v hv w hw => h w ⟨v, hv, hw⟩, fun h w ⟨v, hv, hw⟩ => h v hv w hw⟩

theorem legible_append {vs us : List Concrete.Value} : Legible (vs ++ us) ↔ Legible vs ∧ Legible us := by
  simp only [legible_iff, List.forall_mem_append]

theorem legible_flatMap {α : Type} {as : List α} {f : α → List Concrete.Value} :
    Legible (as.flatMap f) ↔ ∀ a ∈ as, Legible (f a) := by
  simp only [legible_iff, List.forall_mem_flatMap]

theorem ValueFrom.legible {v : Concrete.Value} {u : Value} (h : ValueFrom v u) : Legible [v] := by
  rw [legible_iff, List.forall_mem_singleton]
  cases h with
  | number h =>
    rintro _ ⟨⟩
    exact Option.isSome_iff_exists.mpr ⟨_, h⟩
  | reference => exact nofun

theorem legible_of_rel {n : Option Concrete.Value} {m : Option Value} (h : Option.Rel ValueFrom n m) :
    Legible n.toList := by
  cases h with
  | some h => exact h.legible
  | none => exact nofun

theorem TypeFrom.legible {type : TypeExpr Concrete.Value String} {t : Ty} (h : TypeFrom type t) :
    Legible type.bound?.toList := by
  cases h with
  | plain | optional => exact nofun
  | array h | fixedBytes h => exact h.legible
  | vector h | bytes h | string h => exact legible_of_rel h

theorem PayloadFrom.legible {d : Concrete.Declaration} {p : Payload} (h : PayloadFrom d p) : Legible d.values := by
  cases h with
  | void => exact nofun
  | field h => exact h.legible

theorem forall_mem_of_forall₂ {α β : Type} {R : α → β → Prop} {P : α → Prop} {as : List α} {bs : List β}
    (h : List.Forall₂ R as bs) (hP : ∀ a b, R a b → P a) : ∀ a ∈ as, P a := by
  induction h with
  | nil => exact nofun
  | cons hab _ ih => exact List.forall_mem_cons.mpr ⟨hP _ _ hab, ih⟩

theorem ArmsFrom.legible {as : List Concrete.Arm} {arms : List Arm} {default? : Option Payload}
    (h : ArmsFrom as arms default?) : Legible (as.flatMap Concrete.Arm.values) := by
  induction h with
  | nil => exact nofun
  | @case labels _ _ _ _ _ _ _ hlabels hd _ ih =>
    have hlegible : Legible (labels.flatMap fun v => [v]) :=
      legible_flatMap.mpr (forall_mem_of_forall₂ hlabels fun _ _ => ValueFrom.legible)
    rw [List.flatMap_singleton'] at hlegible
    exact legible_append.mpr ⟨legible_append.mpr ⟨hlegible, hd.legible⟩, ih⟩
  | default hd _ ih => exact legible_append.mpr ⟨hd.legible, ih⟩

theorem DefinitionFrom.legible {c : Concrete.Definition} {d : Definition} (h : DefinitionFrom c d) :
    Legible c.body.values := by
  obtain ⟨h⟩ := h
  cases h with
  | const h => exact h.legible
  | typedef h => exact h.legible
  | struct h => exact legible_flatMap.mpr (forall_mem_of_forall₂ h fun _ _ => PayloadFrom.legible)
  | enum h =>
    have hlegible := legible_flatMap.mpr (forall_mem_of_forall₂ (P := fun m => Legible [m.2]) h
      fun _ _ ⟨hv⟩ => hv.legible)
    rwa [← List.map_eq_flatMap] at hlegible
  | union h => exact legible_append.mpr ⟨nofun, h.legible⟩

/-- At most one default arm is written, and it becomes that of the union. -/
theorem ArmsFrom.countP {as : List Concrete.Arm} {arms : List Arm} {default? : Option Payload}
    (h : ArmsFrom as arms default?) : as.countP Concrete.Arm.isDefault = default?.toList.length := by
  induction h with
  | nil => rfl
  | case _ _ _ ih => rwa [List.countP_cons_of_neg (by simp [Concrete.Arm.isDefault])]
  | default _ _ ih => rw [List.countP_cons_of_pos rfl, ih]; rfl

theorem givenNames_of_forall₂ {ds : List Concrete.Declaration} {fields : List (Field Ty)}
    (h : List.Forall₂ (fun d f => PayloadFrom d (.field f)) ds fields) :
    givenNames ds = fields.map (·.name) := by
  induction h with
  | nil => rfl
  | cons hd _ ih =>
    cases hd with
    | field => exact congrArg (_ :: ·) ih

theorem nodup_givenNames_cons {union : String} {d : Concrete.Declaration} {p : Payload} {seen seen' : List String}
    {rest : List Concrete.Declaration} (hd : PayloadFrom d p) (hseen : checkArmName union seen p = .ok seen')
    (hrest : (givenNames rest).Nodup ∧ ∀ n ∈ givenNames rest, n ∉ seen') :
    (givenNames (d :: rest)).Nodup ∧ ∀ n ∈ givenNames (d :: rest), n ∉ seen := by
  obtain ⟨hdistinct, hnew⟩ := hrest
  cases hd with
  | void =>
    cases hseen
    exact ⟨hdistinct, hnew⟩
  | @field name _ _ _ _ =>
    rw [checkArmName] at hseen
    split at hseen
    · cases hseen
    · next hfresh =>
      cases hseen
      change (name.text :: givenNames rest).Nodup ∧ ∀ n ∈ name.text :: givenNames rest, n ∉ seen
      rw [List.nodup_cons, List.forall_mem_cons]
      exact ⟨⟨fun hmem => hnew _ hmem List.mem_cons_self, hdistinct⟩, hfresh,
        fun n hn hmem => hnew n hn (List.mem_cons_of_mem _ hmem)⟩

theorem nodup_givenNames_of_armsOf {union : String} {arms : List Concrete.Arm} {default : Option Payload}
    {seen : List String} {result : List Arm × Option Payload} (h : armsOf union default seen arms = .ok result) :
    (givenNames (arms.map Concrete.Arm.declaration)).Nodup ∧
      ∀ n ∈ givenNames (arms.map Concrete.Arm.declaration), n ∉ seen := by
  induction arms generalizing default seen result with
  | nil => exact ⟨.nil, nofun⟩
  | cons a rest ih =>
    cases a with
    | case labels d span =>
      obtain ⟨_, -, h⟩ := bind_eq_ok_iff.mp h
      obtain ⟨p, hp, h⟩ := bind_eq_ok_iff.mp h
      obtain ⟨seen', hseen, h⟩ := bind_eq_ok_iff.mp h
      obtain ⟨others, hothers, -⟩ := bind_eq_ok_iff.mp h
      exact nodup_givenNames_cons (payloadFrom_of_payloadOf hp) hseen (ih hothers)
    | default d span =>
      dsimp only [armsOf] at h
      split at h
      · cases h
      · obtain ⟨p, hp, h⟩ := bind_eq_ok_iff.mp h
        obtain ⟨seen', hseen, h⟩ := bind_eq_ok_iff.mp h
        exact nodup_givenNames_cons (payloadFrom_of_payloadOf hp) hseen (ih h)

theorem sound_of_definitionOf {c : Concrete.Definition} {d : Definition} (h : definitionOf c = .ok d) : c.Sound := by
  have hfrom := definitionFrom_of_definitionOf h
  refine ⟨hfrom.legible, ?_⟩
  obtain ⟨body, span⟩ := c
  cases body with
  | const name v => trivial
  | enum name members => trivial
  | typedef declaration =>
    obtain ⟨⟨⟩⟩ := hfrom
    exact nofun
  | struct name fields =>
    obtain ⟨fs, hfs, ⟨⟩⟩ := bind_eq_ok_iff.mp h
    have hfields := fieldsFrom_of_fieldsOf hfs
    refine ⟨fun place hmem => ?_, (givenNames_of_forall₂ hfields).symm ▸ (fieldsOf_distinct hfs).1⟩
    exact forall_mem_of_forall₂ (P := fun d => d ≠ .void place) hfields (by rintro _ _ ⟨⟩ ⟨⟩) _ hmem rfl
  | union name switch arms =>
    obtain ⟨u, hu, -⟩ := bind_eq_ok_iff.mp h
    obtain ⟨f, hf, hu⟩ := bind_eq_ok_iff.mp hu
    obtain ⟨result, hresult, -⟩ := bind_eq_ok_iff.mp hu
    obtain ⟨dname, b, place, rfl, -⟩ := exists_discriminant hf
    obtain ⟨default?, harms, -⟩ := armsFrom_of_armsOf hresult
    refine ⟨trivial, ?_, (nodup_givenNames_of_armsOf hresult).1⟩
    rw [harms.countP]
    exact Option.length_toList_le

/-! ### Flaws -/

/-- Why a number is not read, and the error that says so. -/
inductive Unread (w : Word) : SpecError → Prop
  | malformed (h : ∀ l : Number.Literal, ¬ l.Reads w.text.toList) :
    Unread w ⟨.malformedLiteral w.text, some w.span⟩
  | overlong {l : Number.Literal} {digits : Nat} (h : l.Reads w.text.toList)
    (hlong : l.numeral.excess? = some digits) : Unread w ⟨.overlongLiteral w.text digits, some w.span⟩

/-- What is wrong with a definition by itself, and the error that says so. -/
inductive Flaw : Concrete.Definition → SpecError → Prop
  | number {body : Concrete.Body} {span : Span} {w : Word} {e : SpecError} (hw : w ∈ numbersOf body.values)
    (h : Unread w e) : Flaw ⟨body, span⟩ e
  | voidTypedef {place span : Span} : Flaw ⟨.typedef (.void place), span⟩ ⟨.misplacedVoid .typedef, some span⟩
  | voidField {name : Word} {fields : List Concrete.Declaration} {place span : Span} (h : .void place ∈ fields) :
    Flaw ⟨.struct name fields, span⟩ ⟨.misplacedVoid (.struct name.text), some place⟩
  | repeatedField {name w : Word} {type : TypeExpr Concrete.Value String} {before after : List Concrete.Declaration}
    {place span : Span} (h : w.text ∈ givenNames before) :
    Flaw ⟨.struct name (before ++ .item w type place :: after), span⟩
      ⟨.duplicateField w.text name.text, some w.span⟩
  | discriminant {name : Word} {switch : Concrete.Declaration} {arms : List Concrete.Arm} {span : Span}
    (h : ¬ switch.Plain) : Flaw ⟨.union name switch arms, span⟩ ⟨.discriminantForm name.text, some switch.span⟩
  | secondDefault {name : Word} {switch d : Concrete.Declaration} {before after : List Concrete.Arm}
    {place span : Span} (h : ∃ a ∈ before, a.isDefault) :
    Flaw ⟨.union name switch (before ++ .default d place :: after), span⟩ ⟨.duplicateDefault name.text, some place⟩
  | repeatedArm {name w : Word} {switch : Concrete.Declaration} {type : TypeExpr Concrete.Value String}
    {a : Concrete.Arm} {before after : List Concrete.Arm} {place span : Span} (ha : a.declaration = .item w type place)
    (h : w.text ∈ givenNames (before.map Concrete.Arm.declaration)) :
    Flaw ⟨.union name switch (before ++ a :: after), span⟩ ⟨.duplicateField w.text name.text, some w.span⟩

theorem givenNames_append (ds es : List Concrete.Declaration) :
    givenNames (ds ++ es) = givenNames ds ++ givenNames es :=
  List.filterMap_append

theorem not_nodup_givenNames {before after : List Concrete.Declaration} {w : Word}
    {type : TypeExpr Concrete.Value String} {place : Span} (h : w.text ∈ givenNames before) :
    ¬ (givenNames (before ++ .item w type place :: after)).Nodup := by
  intro hnodup
  rw [givenNames_append] at hnodup
  exact (List.nodup_append.mp hnodup).2.2 _ h _ List.mem_cons_self rfl

theorem Unread.not_isLiteral {w : Word} {e : SpecError} (h : Unread w e) : ¬ w.IsLiteral := by
  rw [Concrete.Word.IsLiteral, Option.not_isSome_iff_eq_none]
  cases h with
  | malformed h => exact (Number.Literal.forall_not_reads_iff.mp h).1
  | overlong h hlong =>
    exact Number.Literal.literal?_eq_none_of_excess? (Number.Literal.excess?_eq_some_iff.mpr ⟨_, h, hlong⟩)

/-- A number of the definition is a literal of so many digits that it is not read. -/
def HasOverlong (c : Concrete.Definition) (digits : Nat) : Prop :=
  ∃ w ∈ numbersOf c.body.values, ∃ l : Number.Literal, l.Reads w.text.toList ∧ l.numeral.excess? = some digits

/-- All flaws but one are reported. -/
theorem Flaw.overlong {c : Concrete.Definition} {e : SpecError} {n : Number.Overlong} (h : Flaw c e)
    (hn : e.fault.overlong? = some n) : ∃ digits, n = .reading digits ∧ HasOverlong c digits := by
  cases h with
  | number hw h =>
    cases h with
    | malformed => cases hn
    | overlong h hlong =>
      cases hn
      exact ⟨_, rfl, _, hw, _, h, hlong⟩
  | _ => cases hn

theorem Flaw.not_sound {c : Concrete.Definition} {e : SpecError} (h : Flaw c e) : ¬ c.Sound := by
  rintro ⟨hnumbers, hshaped⟩
  cases h with
  | number hw h => exact h.not_isLiteral (hnumbers _ hw)
  | voidTypedef => exact hshaped _ rfl
  | voidField h => exact hshaped.1 _ h
  | repeatedField h => exact not_nodup_givenNames h hshaped.2
  | discriminant h => exact h hshaped.1
  | @secondDefault _ _ d before after place _ h =>
    have hcount : 0 < before.countP Concrete.Arm.isDefault := List.countP_pos_iff.mpr h
    have hone := hshaped.2.1
    rw [List.countP_append, List.countP_cons_of_pos rfl] at hone
    omega
  | repeatedArm ha h =>
    have hnodup := hshaped.2.2
    rw [List.map_append, List.map_cons, ha] at hnodup
    exact not_nodup_givenNames h hnodup

/-! ### What is not made has a flaw -/

/-- A number among some values is not read. -/
def NumberFlaw (vs : List Concrete.Value) (e : SpecError) : Prop := ∃ w ∈ numbersOf vs, Unread w e

/-- A step that fails only for the numbers among some values of a definition. -/
theorem failsWith_flaw {α : Type} {body : Concrete.Body} {span : Span} {vs : List Concrete.Value} {x : Checked α}
    (h : FailsWith (NumberFlaw vs) x) (hvs : vs ⊆ body.values) : FailsWith (Flaw ⟨body, span⟩) x := by
  intro e he
  obtain ⟨w, hw, hflaw⟩ := h e he
  obtain ⟨v, hv, hnumber⟩ := List.mem_filterMap.mp hw
  exact .number (List.mem_filterMap.mpr ⟨v, hvs hv, hnumber⟩) hflaw

theorem NumberFlaw.of_mem {vs : List Concrete.Value} {v : Concrete.Value} {e : SpecError} (hv : v ∈ vs)
    (h : NumberFlaw [v] e) : NumberFlaw vs e := by
  obtain ⟨w, hw, hflaw⟩ := h
  obtain ⟨u, hu, hnumber⟩ := List.mem_filterMap.mp hw
  exact ⟨w, List.mem_filterMap.mpr ⟨v, hv, List.mem_singleton.mp hu ▸ hnumber⟩, hflaw⟩

theorem failsWith_valueOf (v : Concrete.Value) : FailsWith (NumberFlaw [v]) (valueOf v) := by
  cases v with
  | number w =>
    rw [valueOf]
    cases h : Number.literal? w.text.toList with
    | some n => exact failsWith_ok _
    | none =>
      cases hexcess : Number.excess? w.text.toList with
      | some digits =>
        obtain ⟨l, hl, hlong⟩ := Number.Literal.excess?_eq_some_iff.mp hexcess
        exact failsWith_error ⟨w, List.mem_singleton_self w, .overlong hl hlong⟩
      | none =>
        have hnone := Number.Literal.forall_not_reads_iff.mpr ⟨h, hexcess⟩
        exact failsWith_error ⟨w, List.mem_singleton_self w, .malformed hnone⟩
  | reference w => exact failsWith_ok _

theorem failsWith_boundOf (n : Option Concrete.Value) : FailsWith (NumberFlaw n.toList) (boundOf n) := by
  cases n with
  | none => exact failsWith_ok _
  | some v => exact (failsWith_valueOf v).bind fun _ _ => failsWith_ok _

theorem failsWith_payloadOf (d : Concrete.Declaration) : FailsWith (NumberFlaw d.values) (payloadOf d) := by
  cases d with
  | void span => exact failsWith_ok _
  | item name type span =>
    refine FailsWith.bind ?_ fun _ _ => failsWith_ok _
    cases type with
    | plain b | optional b => exact failsWith_ok _
    | array b n | fixedBytes n => exact (failsWith_valueOf n).bind fun _ _ => failsWith_ok _
    | vector b n | bytes n | string n => exact (failsWith_boundOf n).bind fun _ _ => failsWith_ok _

/-- `before` are the fields that have been made. -/
theorem failsWith_fieldsOf {name : Word} {span : Span} (before ds : List Concrete.Declaration) {seen : List String}
    (hseen : seen ⊆ givenNames before) :
    FailsWith (Flaw ⟨.struct name (before ++ ds), span⟩) (fieldsOf name.text seen ds) := by
  induction ds generalizing seen before with
  | nil => exact failsWith_ok _
  | cons d rest ih =>
    have hvalues : d.values ⊆ Concrete.Body.values (.struct name (before ++ d :: rest)) :=
      fun v hv => List.mem_flatMap.mpr ⟨d, by simp, hv⟩
    refine (failsWith_flaw (failsWith_payloadOf d) hvalues).bind fun p hp => ?_
    cases payloadFrom_of_payloadOf hp with
    | void => exact failsWith_error (.voidField (by simp))
    | @field w type t place ht =>
      dsimp only
      refine failsWith_guard (fun hmem => .repeatedField (hseen hmem)) fun _ => ?_
      have hnext : w.text :: seen ⊆ givenNames (before ++ [.item w type place]) := by
        rw [givenNames_append]
        refine List.cons_subset.mpr ⟨List.mem_append_right _ List.mem_cons_self, fun n hn => ?_⟩
        exact List.mem_append_left _ (hseen hn)
      have hrest := ih _ hnext
      rw [List.append_assoc] at hrest
      exact hrest.bind fun _ _ => failsWith_ok _

theorem subset_of_checkArmName {union : String} {d : Concrete.Declaration} {p : Payload} {seen seen' : List String}
    {before : List Concrete.Declaration} (hd : PayloadFrom d p) (hseen : seen ⊆ givenNames before)
    (h : checkArmName union seen p = .ok seen') : seen' ⊆ givenNames (before ++ [d]) := by
  rw [givenNames_append]
  cases hd with
  | void =>
    cases h
    exact fun n hn => List.mem_append_left _ (hseen hn)
  | field =>
    rw [checkArmName] at h
    split at h
    · cases h
    · cases h
      refine List.cons_subset.mpr ⟨List.mem_append_right _ List.mem_cons_self, fun n hn => ?_⟩
      exact List.mem_append_left _ (hseen hn)

/-- `before` are the arms that have been made. -/
theorem failsWith_armsOf {name : Word} {switch : Concrete.Declaration} {span : Span} (before arms : List Concrete.Arm)
    {default : Option Payload} {seen : List String}
    (hdefault : default.isSome → ∃ a ∈ before, a.isDefault)
    (hseen : seen ⊆ givenNames (before.map Concrete.Arm.declaration)) :
    FailsWith (Flaw ⟨.union name switch (before ++ arms), span⟩) (armsOf name.text default seen arms) := by
  induction arms generalizing default seen before with
  | nil => exact failsWith_ok _
  | cons a rest ih =>
    have hvalues : a.values ⊆ Concrete.Body.values (.union name switch (before ++ a :: rest)) :=
      fun v hv => List.mem_append_right _ (List.mem_flatMap.mpr ⟨a, by simp, hv⟩)
    have hpayload : FailsWith (Flaw ⟨.union name switch (before ++ a :: rest), span⟩) (payloadOf a.declaration) :=
      failsWith_flaw (failsWith_payloadOf a.declaration) fun v hv => hvalues (List.mem_append_right _ hv)
    have hname {p : Payload} (hp : PayloadFrom a.declaration p) :
        FailsWith (Flaw ⟨.union name switch (before ++ a :: rest), span⟩) (checkArmName name.text seen p) := by
      generalize hd : a.declaration = d at hp
      cases hp with
      | void => exact failsWith_ok _
      | field =>
        rw [checkArmName]
        split
        · next hmem => exact failsWith_error (.repeatedArm hd (hseen hmem))
        · exact failsWith_ok _
    have hrest {default : Option Payload} {p : Payload} {seen' : List String} (hp : PayloadFrom a.declaration p)
        (hdefault : default.isSome → ∃ b ∈ before ++ [a], b.isDefault)
        (hseen' : checkArmName name.text seen p = .ok seen') :
        FailsWith (Flaw ⟨.union name switch (before ++ a :: rest), span⟩) (armsOf name.text default seen' rest) := by
      have hnext := subset_of_checkArmName hp hseen hseen'
      have hrest := ih (before ++ [a]) hdefault (by rwa [List.map_append])
      rwa [List.append_assoc] at hrest
    cases a with
    | case labels d span =>
      have hlabels : FailsWith (NumberFlaw labels) (labels.mapM valueOf) := failsWith_mapM fun v hv =>
        (failsWith_valueOf v).imp fun e he => he.of_mem hv
      refine (failsWith_flaw hlabels fun v hv => hvalues (List.mem_append_left _ hv)).bind fun values _ =>
        hpayload.bind fun p hp => ?_
      have hp := payloadFrom_of_payloadOf hp
      have hkept (hsome : default.isSome) : ∃ b ∈ before ++ [.case labels d span], b.isDefault := by
        obtain ⟨b, hb, hbefore⟩ := hdefault hsome
        exact ⟨b, List.mem_append_left _ hb, hbefore⟩
      exact (hname hp).bind fun seen' hseen' => (hrest hp hkept hseen').bind fun _ _ => failsWith_ok _
    | default d span =>
      refine failsWith_guard (fun hsome => .secondDefault (hdefault hsome)) fun _ => hpayload.bind fun p hp => ?_
      have hp := payloadFrom_of_payloadOf hp
      have hkept (_ : (some p).isSome) : ∃ b ∈ before ++ [.default d span], b.isDefault :=
        ⟨.default d span, by simp, rfl⟩
      exact (hname hp).bind fun seen' hseen' => hrest hp hkept hseen'

theorem failsWith_unionOf {name : Word} {switch : Concrete.Declaration} {arms : List Concrete.Arm} (hne : arms ≠ [])
    (span : Span) : FailsWith (Flaw ⟨.union name switch arms, span⟩) (unionOf name.text switch arms span) := by
  have hdiscriminant : FailsWith (Flaw ⟨.union name switch arms, span⟩) (discriminantOf name.text switch) := by
    unfold discriminantOf
    split
    · exact failsWith_ok _
    · next hform =>
      refine failsWith_error (.discriminant fun hplain => ?_)
      unfold Concrete.Declaration.Plain at hplain
      split at hplain
      · exact hform _ _ _ rfl
      · exact hplain
  have harms : FailsWith (Flaw ⟨.union name switch arms, span⟩) (armsOf name.text none [] arms) :=
    failsWith_armsOf [] arms (fun hnone => absurd hnone Bool.false_ne_true) (List.nil_subset _)
  refine hdiscriminant.bind fun f _ => harms.bind fun result hresult => ?_
  dsimp only
  rw [exists_arm hne hresult]
  exact failsWith_ok _

theorem failsWith_definitionOf {c : Concrete.Definition} (hc : c.Filled) : FailsWith (Flaw c) (definitionOf c) := by
  obtain ⟨body, span⟩ := c
  cases body with
  | const name v =>
    exact (failsWith_flaw (failsWith_valueOf v) (List.Subset.refl _)).bind fun _ _ => failsWith_ok _
  | typedef declaration =>
    refine (failsWith_flaw (failsWith_payloadOf declaration) (List.Subset.refl _)).bind fun p hp => ?_
    cases payloadFrom_of_payloadOf hp with
    | void => exact failsWith_error .voidTypedef
    | field => exact failsWith_ok _
  | struct name fields =>
    exact (failsWith_fieldsOf [] fields (List.nil_subset _)).bind fun _ _ => failsWith_ok _
  | enum name members =>
    have hmembers : FailsWith (NumberFlaw (members.map (·.2))) (members.mapM memberOf) := failsWith_mapM fun m hm =>
      ((failsWith_valueOf m.2).imp fun e he => he.of_mem (List.mem_map_of_mem hm)).bind fun _ _ => failsWith_ok _
    exact (failsWith_flaw hmembers (List.Subset.refl _)).bind fun _ _ => failsWith_ok _
  | union name switch arms => exact (failsWith_unionOf hc.1 span).bind fun _ _ => failsWith_ok _

theorem definitionOf_eq_ok_iff {c : Concrete.Definition} (hc : c.Filled) : (∃ d, definitionOf c = .ok d) ↔ c.Sound := by
  constructor
  · rintro ⟨d, hd⟩
    exact sound_of_definitionOf hd
  · intro hsound
    cases h : definitionOf c with
    | ok d => exact ⟨d, rfl⟩
    | error e => exact absurd hsound (failsWith_definitionOf hc e h).not_sound

/-! ### Whole trees -/

theorem exists_ofTree_iff_sound {tree : List Concrete.Definition} (hfilled : ∀ c ∈ tree, c.Filled) :
    (∃ spec, ofTree tree = .ok spec) ↔ ∀ c ∈ tree, c.Sound := by
  have hspec : (∃ spec, ofTree tree = .ok spec) ↔ ∃ ds, tree.mapM definitionOf = .ok ds :=
    ⟨fun ⟨spec, h⟩ => ⟨_, ofTree_eq_ok_iff.mp h⟩, fun ⟨ds, h⟩ => ⟨⟨ds⟩, ofTree_eq_ok_iff.mpr h⟩⟩
  rw [hspec, exists_mapM_eq_ok_iff]
  exact forall₂_congr fun c hc => definitionOf_eq_ok_iff (hfilled c hc)

theorem ofTree_eq_error_iff {tree : List Concrete.Definition} {e : SpecError} :
    ofTree tree = .error e ↔ tree.mapM definitionOf = .error e := by
  rw [ofTree]
  cases tree.mapM definitionOf with
  | ok ds => exact ⟨nofun, nofun⟩
  | error e' =>
    constructor
    · rintro ⟨⟩
      rfl
    · rintro ⟨⟩
      rfl

/-- A derivation of the grammar makes a specification just if each number in it is a literal, of not too many digits,
and each definition is shaped as it must be. What it makes has, in the order of the text, the definitions, fields,
members, labels and arms that are written, and nothing else. If it makes none, the error is that of a flaw in the first
definition that has one, and is reported unless a literal in that definition has too many digits. Reading the tree node
by node, where each part is looked for by its rule, has the same outcome. -/
theorem accepts_sound_trees (d : Concrete.Grammar.specification.Tree) :
    let tree := Concrete.Grammar.meaning d
    ((∃ spec, ofTree tree = .ok spec) ↔
      (∀ t ∈ d.yield, t.terminal = .number →
        ∃ l : Number.Literal, l.Reads t.text.toList ∧ l.numeral.excess? = none) ∧
        ∀ c ∈ tree, c.body.Shaped) ∧
    (∀ spec, ofTree tree = .ok spec → List.Forall₂ DefinitionFrom tree spec.definitions) ∧
    (∀ e, ofTree tree = .error e → ∃ first c rest, tree = first ++ c :: rest ∧ (∀ b ∈ first, b.Sound) ∧
      ¬ c.Sound ∧ Flaw c e ∧
        ∀ n, e.fault.overlong? = some n → ∃ digits, n = .reading digits ∧ HasOverlong c digits) ∧
    Outcome.Agrees (ofNode (Concrete.tree tree)) (ofTree tree) := by
  intro tree
  have hfilled : ∀ c ∈ tree, c.Filled := Concrete.Grammar.filled_meaning d
  have hnumbers : (∀ t ∈ d.yield, t.terminal = .number →
      ∃ l : Number.Literal, l.Reads t.text.toList ∧ l.numeral.excess? = none) ↔
        ∀ c ∈ tree, Legible c.body.values := by
    simp only [← Number.Literal.isSome_literal?_iff]
    rw [← legible_flatMap, Legible, ← Concrete.Grammar.numbers_specification, Concrete.Grammar.numbers,
      List.forall_mem_map]
    simp only [List.mem_filter, decide_eq_true_eq, and_imp]
    rfl
  refine ⟨?_, fun spec h => ?_, fun e h => ?_, agrees_ofNode hfilled⟩
  · rw [exists_ofTree_iff_sound hfilled, hnumbers, ← forall₂_and]
    exact forall₂_congr fun c _ => Concrete.Definition.sound_iff
  · exact forall₂_of_mapM (ofTree_eq_ok_iff.mp h) fun _ _ => definitionFrom_of_definitionOf
  · obtain ⟨first, c, rest, htree, hfirst, hc⟩ := exists_of_mapM_eq_error (ofTree_eq_error_iff.mp h)
    rw [htree, List.forall_mem_append, List.forall_mem_cons] at hfilled
    have hflaw := failsWith_definitionOf hfilled.2.1 e hc
    exact ⟨first, c, rest, htree, fun b hb => (definitionOf_eq_ok_iff (hfilled.1 b hb)).mp (hfirst b hb),
      hflaw.not_sound, hflaw, fun _ => hflaw.overlong⟩

/-- A specification of one constant. -/
def constTree (number : String) : Concrete.Grammar.specification.Tree :=
  let stop : Int := 11 + number.length
  let definition : Concrete.Grammar.constDef.Tree :=
    (⟨⟨.keyword .const, "const", ⟨1, 1, 1, 6⟩⟩, rfl⟩, ⟨⟨.name, "A", ⟨1, 7, 1, 8⟩⟩, rfl⟩,
      ⟨⟨.mark .equals, "=", ⟨1, 9, 1, 10⟩⟩, rfl⟩, Sum.inl ⟨⟨.number, number, ⟨1, 11, 1, stop⟩⟩, rfl⟩,
      ⟨⟨.mark .semicolon, ";", ⟨1, stop, 1, stop + 1⟩⟩, rfl⟩)
  List.cons (Sum.inl definition) List.nil

/-- With a constant of 4301 ones each number is a literal and each definition is shaped as it must be, but no
specification is made, and no fault is reported. -/
theorem exists_tree_without_specification : ∃ d : Concrete.Grammar.specification.Tree,
    (∀ t ∈ d.yield, t.terminal = .number → ∃ l : Number.Literal, l.Reads t.text.toList) ∧
      (∀ c ∈ Concrete.Grammar.meaning d, c.body.Shaped) ∧
      ∃ e, ofTree (Concrete.Grammar.meaning d) = .error e ∧ e.fault.overlong? = some (.reading 4301) := by
  have hlimit : Number.digitLimit < 4301 := by decide
  generalize 4301 = k at hlimit
  refine ⟨constTree (String.ofList (List.replicate k '1')), fun t ht hnumber => ?_, fun c hc => ?_, ?_⟩
  · rcases ht with _ | ⟨_, _ | ⟨_, _ | ⟨_, _ | ⟨_, _ | ⟨_, ⟨⟩⟩⟩⟩⟩⟩ <;> cases hnumber
    exact ⟨_, Number.reads_ones (Nat.ne_zero_of_lt hlimit)⟩
  · obtain rfl := List.mem_singleton.mp hc
    trivial
  · obtain ⟨e, he, hlong⟩ := Number.valueOf_ones hlimit ⟨1, 11, 1, 11 + (String.ofList (List.replicate k '1')).length⟩
    refine ⟨e, ofTree_eq_error_iff.mpr ?_, hlong⟩
    change ([(⟨.const ⟨"A", _⟩ (.number ⟨_, _⟩), _⟩ : Concrete.Definition)].mapM definitionOf) = _
    rw [List.mapM_cons, definitionOf]
    dsimp only
    rw [he]
    rfl

end XdrSchema.Spec
