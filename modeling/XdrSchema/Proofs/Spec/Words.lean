import XdrSchema.Number.Literal
import XdrSchema.Proofs.Concrete.Printing
import XdrSchema.Proofs.Spec.Proper
import XdrSchema.Proofs.Spec.Unplaced

/-! The words that a specification is written with. A type may be spelled in several ways, and the default arm of
a union may stand anywhere among its arms; the rest is fixed. Main statement: `Words.isToken`, each word of a
specification that can be built and whose names are names is spelled as a token. -/
namespace XdrSchema.Spec

open Concrete (Keyword Lexeme Mark)

/-! ### The words of a specification -/

def keyword (k : Keyword) : Lexeme := (.keyword k, k.spelling)

def mark (m : Mark) : Lexeme := (.mark m, String.ofList [m.char])

def word (name : String) : Lexeme := (.name, name)

def Value.lexeme : Value → Lexeme
  | literal _ text _ => (.number, text)
  | constant name _ => word name

/-- The ways to spell a scalar type. -/
def spellings : Primitive → List (List Keyword)
  | .int => [[.int], [.int32]]
  | .unsignedInt => [[.unsigned], [.unsigned, .int], [.uint32]]
  | .hyper => [[.hyper], [.int64]]
  | .unsignedHyper => [[.unsigned, .hyper], [.uint64]]
  | .float => [[.float]]
  | .double => [[.double]]
  | .bool => [[.bool]]

inductive BaseWords : Base String → List Lexeme → Prop
  | primitive {p : Primitive} {ks : List Keyword} (h : ks ∈ spellings p) : BaseWords (.primitive p) (ks.map keyword)
  | named {name : String} : BaseWords (.named name) [word name]

def lengthWords (v : Value) : List Lexeme := [mark .openBracket, v.lexeme, mark .closeBracket]

def boundWords (v : Option Value) : List Lexeme := mark .less :: ((v.map Value.lexeme).toList ++ [mark .greater])

/-- A declaration of `name`. -/
inductive DeclarationWords (name : String) : Ty → List Lexeme → Prop
  | plain {b : Base String} {w : List Lexeme} (hb : BaseWords b w) : DeclarationWords name (.plain b) (w ++ [word name])
  | array {b : Base String} {w : List Lexeme} {v : Value} (hb : BaseWords b w) :
    DeclarationWords name (.array b v) (w ++ word name :: lengthWords v)
  | vector {b : Base String} {w : List Lexeme} {v : Option Value} (hb : BaseWords b w) :
    DeclarationWords name (.vector b v) (w ++ word name :: boundWords v)
  | optional {b : Base String} {w : List Lexeme} (hb : BaseWords b w) :
    DeclarationWords name (.optional b) (w ++ [mark .star, word name])
  | fixedBytes {v : Value} : DeclarationWords name (.fixedBytes v) (keyword .opaqueData :: word name :: lengthWords v)
  | bytes {v : Option Value} : DeclarationWords name (.bytes v) (keyword .opaqueData :: word name :: boundWords v)
  | string {v : Option Value} : DeclarationWords name (.string v) (keyword .string :: word name :: boundWords v)

inductive PayloadWords : Payload → List Lexeme → Prop
  | void {span : Span} : PayloadWords (.void span) [keyword .void]
  | field {f : Field Ty} {w : List Lexeme} (h : DeclarationWords f.name f.type w) : PayloadWords (.field f) w

/-- A field of a struct with its semicolon. -/
inductive FieldWords : Field Ty → List Lexeme → Prop
  | mk {f : Field Ty} {w : List Lexeme} (h : DeclarationWords f.name f.type w) : FieldWords f (w ++ [mark .semicolon])

def memberWords (m : Member) : List Lexeme := [word m.name, mark .equals, m.value.lexeme]

/-- The members of an enumeration with commas between them. -/
def membersWords : List Member → List Lexeme
  | [] => []
  | m :: ms => memberWords m ++ ms.flatMap fun m => mark .comma :: memberWords m

def labelWords (v : Value) : List Lexeme := [keyword .case, v.lexeme, mark .colon]

/-- The case arms of a union in order, with the default arm at any place among them. -/
inductive ArmsWords : List Arm → Option Payload → List Lexeme → Prop
  | nil : ArmsWords [] none []
  | case {a : Arm} {arms : List Arm} {default : Option Payload} {v w : List Lexeme} (h : PayloadWords a.payload v)
    (hrest : ArmsWords arms default w) :
    ArmsWords (a :: arms) default (a.labels.flatMap labelWords ++ (v ++ [mark .semicolon]) ++ w)
  | default {p : Payload} {arms : List Arm} {v w : List Lexeme} (h : PayloadWords p v)
    (hrest : ArmsWords arms none w) :
    ArmsWords arms (some p) (keyword .default :: mark .colon :: (v ++ [mark .semicolon]) ++ w)

/-- A definition of `name` without its semicolon. -/
inductive BodyWords (name : String) : Body → List Lexeme → Prop
  | const {v : Value} : BodyWords name (.const v) [keyword .const, word name, mark .equals, v.lexeme]
  | typedef {t : Ty} {w : List Lexeme} (h : DeclarationWords name t w) :
    BodyWords name (.typedef t) (keyword .typedef :: w)
  | enum {ms : List Member} : BodyWords name (.enum ms)
      (keyword .enum :: word name :: mark .openBrace :: (membersWords ms ++ [mark .closeBrace]))
  | struct {fields : List (Field Ty)} {ws : List (List Lexeme)} (h : List.Forall₂ FieldWords fields ws) :
    BodyWords name (.struct fields)
      (keyword .struct :: word name :: mark .openBrace :: (ws.flatten ++ [mark .closeBrace]))
  | union {u : Union} {v w : List Lexeme} (hswitch : BaseWords u.discriminant.type v)
    (harms : ArmsWords u.arms u.default w) : BodyWords name (.union u)
      (keyword .union :: word name :: keyword .switch :: mark .openParen :: ((v ++ [word u.discriminant.name]) ++
        mark .closeParen :: mark .openBrace :: (w ++ [mark .closeBrace])))

inductive DefinitionWords : Definition → List Lexeme → Prop
  | mk {d : Definition} {w : List Lexeme} (h : BodyWords d.name d.body w) : DefinitionWords d (w ++ [mark .semicolon])

/-- The words of a specification, with the definitions in order. -/
def Words (spec : Spec) (w : List Lexeme) : Prop :=
  ∃ ws, List.Forall₂ DefinitionWords spec.definitions ws ∧ w = ws.flatten

/-! ### There are words -/

theorem exists_baseWords (b : Base String) : ∃ w, BaseWords b w := by
  cases b with
  | primitive p => cases p <;> exact ⟨_, .primitive List.mem_cons_self⟩
  | named name => exact ⟨_, .named⟩

theorem exists_declarationWords (name : String) (t : Ty) : ∃ w, DeclarationWords name t w := by
  cases t with
  | plain b => exact (exists_baseWords b).elim fun _ hb => ⟨_, .plain hb⟩
  | array b v => exact (exists_baseWords b).elim fun _ hb => ⟨_, .array hb⟩
  | vector b v => exact (exists_baseWords b).elim fun _ hb => ⟨_, .vector hb⟩
  | optional b => exact (exists_baseWords b).elim fun _ hb => ⟨_, .optional hb⟩
  | fixedBytes v => exact ⟨_, .fixedBytes⟩
  | bytes v => exact ⟨_, .bytes⟩
  | string v => exact ⟨_, .string⟩

theorem exists_payloadWords (p : Payload) : ∃ w, PayloadWords p w := by
  cases p with
  | void span => exact ⟨_, .void⟩
  | field f => exact (exists_declarationWords f.name f.type).elim fun _ h => ⟨_, .field h⟩

theorem exists_armsWords (arms : List Arm) (default : Option Payload) : ∃ w, ArmsWords arms default w := by
  induction arms with
  | nil =>
    cases default with
    | none => exact ⟨_, .nil⟩
    | some p => exact (exists_payloadWords p).elim fun _ h => ⟨_, .default h .nil⟩
  | cons a arms ih =>
    obtain ⟨w, hw⟩ := ih
    exact (exists_payloadWords a.payload).elim fun _ h => ⟨_, .case h hw⟩

theorem exists_forall₂ {α β : Type} {R : α → β → Prop} (h : ∀ a, ∃ b, R a b) (as : List α) :
    ∃ bs, List.Forall₂ R as bs := by
  induction as with
  | nil => exact ⟨[], .nil⟩
  | cons a as ih =>
    obtain ⟨b, hb⟩ := h a
    obtain ⟨bs, hbs⟩ := ih
    exact ⟨b :: bs, .cons hb hbs⟩

theorem exists_definitionWords (d : Definition) : ∃ w, DefinitionWords d w := by
  suffices ∃ w, BodyWords d.name d.body w from this.elim fun _ h => ⟨_, .mk h⟩
  cases d.body with
  | const v => exact ⟨_, .const⟩
  | typedef t => exact (exists_declarationWords _ t).elim fun _ h => ⟨_, .typedef h⟩
  | enum ms => exact ⟨_, .enum⟩
  | struct fields =>
    have hfield (f : Field Ty) : ∃ w, FieldWords f w :=
      (exists_declarationWords f.name f.type).elim fun _ h => ⟨_, .mk h⟩
    exact (exists_forall₂ hfield fields).elim fun _ h => ⟨_, .struct h⟩
  | union u =>
    obtain ⟨v, hv⟩ := exists_baseWords u.discriminant.type
    obtain ⟨w, hw⟩ := exists_armsWords u.arms u.default
    exact ⟨_, .union hv hw⟩

theorem exists_words (spec : Spec) : ∃ w, spec.Words w :=
  (exists_forall₂ exists_definitionWords spec.definitions).elim fun ws h => ⟨ws.flatten, ws, h, rfl⟩

/-! ### What can be built -/

/-- A literal is a number token that has the value. -/
def Value.Spelled : Value → Prop
  | literal n text _ => Concrete.IsNumber text.toList ∧ Number.literal? text.toList = some n
  | constant _ _ => True

def Ty.Spelled (t : Ty) : Prop := ∀ v ∈ t.bound?, v.Spelled

/-- The names of all arms. -/
def armNames (arms : List Arm) (default : Option Payload) : List String :=
  (arms.map (·.payload) ++ default.toList).filterMap Payload.name?

structure Union.Buildable (u : Union) : Prop where
  proper : u.Proper
  labels : ∀ v ∈ u.labels, v.Spelled
  payloads : ∀ p ∈ u.payloads, ∀ f ∈ p.field?, Ty.Spelled f.type
  names : (armNames u.arms u.default).Nodup

/-- A definition that the checks of single definitions let through: literals have values, no list is empty, and
the fields of a struct and the arms of a union have distinct names. -/
def Body.Buildable : Body → Prop
  | .const v => v.Spelled
  | .typedef t => Ty.Spelled t
  | .struct fields => fields ≠ [] ∧ (∀ f ∈ fields, Ty.Spelled f.type) ∧ (fields.map (·.name)).Nodup
  | .enum members => members ≠ [] ∧ ∀ m ∈ members, m.value.Spelled
  | .union u => u.Buildable

/-! ### Words are tokens -/

/-- A name that is no keyword. -/
def IsName (name : String) : Prop := Concrete.Spelled .name name.toList

/-- The names of fields and of what stands for a field. -/
def Body.fieldNames : Body → List String
  | .struct fields => fields.map (·.name)
  | .union u => u.discriminant.name :: armNames u.arms u.default
  | _ => []

/-- All names in a definition. -/
def Definition.names (d : Definition) : List String := d.introduces ++ d.body.fieldNames ++ d.body.mentions

def IsToken (l : Lexeme) : Prop := Concrete.Spelled l.1 l.2.toList

theorem forall_mem_flatten {α β : Type} {R : α → List β → Prop} {P : β → Prop} {as : List α} {ws : List (List β)}
    (h : List.Forall₂ R as ws) (hR : ∀ a ∈ as, ∀ w, R a w → ∀ l ∈ w, P l) : ∀ l ∈ ws.flatten, P l := by
  induction h with
  | nil => simp
  | cons ha _ ih =>
    rw [List.forall_mem_cons] at hR
    exact List.forall_mem_append.mpr ⟨hR.1 _ ha, ih hR.2⟩

theorem isToken_keyword (k : Keyword) : IsToken (keyword k) := .keyword k

theorem isToken_mark (m : Mark) : IsToken (mark m) := by
  unfold IsToken mark
  rw [String.toList_ofList]
  exact .mark m

theorem isToken_word {name : String} (h : IsName name) : IsToken (word name) := h

theorem isToken_value {v : Value} (hv : v.Spelled) (hname : ∀ n ∈ v.name?, IsName n) : IsToken v.lexeme := by
  cases v with
  | literal n text span => exact .number hv.1
  | constant name span => exact hname name rfl

theorem isToken_lengthWords {v : Value} (hv : IsToken v.lexeme) : ∀ l ∈ lengthWords v, IsToken l := by
  simp only [lengthWords, List.forall_mem_cons]
  exact ⟨isToken_mark _, hv, isToken_mark _, by simp⟩

theorem isToken_boundWords {v : Option Value} (hv : ∀ u ∈ v, IsToken u.lexeme) : ∀ l ∈ boundWords v, IsToken l := by
  refine List.forall_mem_cons.mpr ⟨isToken_mark _, List.forall_mem_append.mpr ⟨fun l hl => ?_,
    List.forall_mem_singleton.mpr (isToken_mark _)⟩⟩
  obtain ⟨u, hu, rfl⟩ := Option.mem_map.mp (Option.mem_toList.mp hl)
  exact hv u hu

theorem BaseWords.isToken {b : Base String} {w : List Lexeme} (h : BaseWords b w)
    (hb : ∀ name, b = .named name → IsName name) : ∀ l ∈ w, IsToken l := by
  cases h with
  | primitive h => exact List.forall_mem_map.mpr fun k _ => isToken_keyword k
  | named => exact List.forall_mem_singleton.mpr (isToken_word (hb _ rfl))

theorem DeclarationWords.isToken {name : String} {t : Ty} {w : List Lexeme} (h : DeclarationWords name t w)
    (ht : Ty.Spelled t) (hname : IsName name) (hmentions : ∀ n ∈ Ty.mentions t, IsName n) :
    ∀ l ∈ w, IsToken l := by
  have hword := isToken_word hname
  have hbound (v : Value) (hv : v ∈ t.bound?) : IsToken v.lexeme :=
    isToken_value (ht v hv) fun n hn => hmentions n (mem_mentions_of_bound hv hn)
  have htarget {b : Base String} {u : List Lexeme} (hb : BaseWords b u)
      (hmention : ∀ n, b = .named n → t.target? = some n) : ∀ l ∈ u, IsToken l :=
    hb.isToken fun n hn => hmentions n (mem_mentions_of_target (hmention n hn))
  cases h with
  | plain hb =>
    refine List.forall_mem_append.mpr ⟨htarget hb ?_, List.forall_mem_singleton.mpr hword⟩
    rintro n rfl
    rfl
  | array hb =>
    refine List.forall_mem_append.mpr ⟨htarget hb ?_,
      List.forall_mem_cons.mpr ⟨hword, isToken_lengthWords (hbound _ rfl)⟩⟩
    rintro n rfl
    rfl
  | vector hb =>
    refine List.forall_mem_append.mpr ⟨htarget hb ?_, List.forall_mem_cons.mpr ⟨hword, isToken_boundWords hbound⟩⟩
    rintro n rfl
    rfl
  | optional hb =>
    refine List.forall_mem_append.mpr ⟨htarget hb ?_, List.forall_mem_cons.mpr ⟨isToken_mark _,
      List.forall_mem_singleton.mpr hword⟩⟩
    rintro n rfl
    rfl
  | fixedBytes =>
    exact List.forall_mem_cons.mpr ⟨isToken_keyword _, List.forall_mem_cons.mpr ⟨hword,
      isToken_lengthWords (hbound _ rfl)⟩⟩
  | bytes | string =>
    exact List.forall_mem_cons.mpr ⟨isToken_keyword _, List.forall_mem_cons.mpr ⟨hword, isToken_boundWords hbound⟩⟩

theorem PayloadWords.isToken {p : Payload} {w : List Lexeme} (h : PayloadWords p w)
    (hp : ∀ f ∈ p.field?, Ty.Spelled f.type) (hname : ∀ n ∈ p.name?, IsName n)
    (hmentions : ∀ f ∈ p.field?, ∀ n ∈ Ty.mentions f.type, IsName n) : ∀ l ∈ w, IsToken l := by
  cases h with
  | void => exact List.forall_mem_singleton.mpr (isToken_keyword _)
  | field h => exact h.isToken (hp _ rfl) (hname _ rfl) (hmentions _ rfl)

theorem isToken_memberWords {m : Member} (hm : m.value.Spelled) (hname : IsName m.name)
    (hvalue : ∀ n ∈ m.value.name?, IsName n) : ∀ l ∈ memberWords m, IsToken l := by
  simp only [memberWords, List.forall_mem_cons]
  exact ⟨isToken_word hname, isToken_mark _, isToken_value hm hvalue, by simp⟩

theorem isToken_membersWords {ms : List Member} (h : ∀ m ∈ ms, ∀ l ∈ memberWords m, IsToken l) :
    ∀ l ∈ membersWords ms, IsToken l := by
  cases ms with
  | nil => simp [membersWords]
  | cons m ms =>
    rw [List.forall_mem_cons] at h
    refine List.forall_mem_append.mpr ⟨h.1, List.forall_mem_flatMap.mpr fun m hm => ?_⟩
    exact List.forall_mem_cons.mpr ⟨isToken_mark _, h.2 m hm⟩

theorem isToken_labelWords {vs : List Value} (h : ∀ v ∈ vs, IsToken v.lexeme) :
    ∀ l ∈ vs.flatMap labelWords, IsToken l := by
  refine List.forall_mem_flatMap.mpr fun v hv => ?_
  simp only [labelWords, List.forall_mem_cons]
  exact ⟨isToken_keyword _, h v hv, isToken_mark _, by simp⟩

theorem ArmsWords.isToken {arms : List Arm} {default : Option Payload} {w : List Lexeme}
    (h : ArmsWords arms default w) (hlabels : ∀ a ∈ arms, ∀ v ∈ a.labels, IsToken v.lexeme)
    (hpayloads : ∀ p ∈ arms.map (·.payload) ++ default.toList, ∀ w, PayloadWords p w → ∀ l ∈ w, IsToken l) :
    ∀ l ∈ w, IsToken l := by
  induction h with
  | nil => simp
  | case h _ ih =>
    rw [List.forall_mem_cons] at hlabels
    rw [List.map_cons, List.cons_append, List.forall_mem_cons] at hpayloads
    refine List.forall_mem_append.mpr ⟨List.forall_mem_append.mpr ⟨isToken_labelWords hlabels.1, ?_⟩,
      ih hlabels.2 hpayloads.2⟩
    exact List.forall_mem_append.mpr ⟨hpayloads.1 _ h, List.forall_mem_singleton.mpr (isToken_mark _)⟩
  | default h _ ih =>
    rw [List.forall_mem_append] at hpayloads
    refine List.forall_mem_append.mpr ⟨List.forall_mem_cons.mpr ⟨isToken_keyword _, List.forall_mem_cons.mpr
      ⟨isToken_mark _, ?_⟩⟩, ih hlabels ?_⟩
    · exact List.forall_mem_append.mpr ⟨hpayloads.2 _ List.mem_cons_self _ h,
        List.forall_mem_singleton.mpr (isToken_mark _)⟩
    · rw [Option.toList_none, List.append_nil]
      exact hpayloads.1

/-- The words of payloads, whose names are among those of the arms. -/
theorem isToken_payloads {u : Union} (hu : u.Buildable) (hnames : ∀ n ∈ armNames u.arms u.default, IsName n)
    (hmentions : ∀ n ∈ (Body.union u).mentions, IsName n) :
    ∀ p ∈ u.arms.map (·.payload) ++ u.default.toList, ∀ w, PayloadWords p w → ∀ l ∈ w, IsToken l := by
  intro p hp w hw
  refine hw.isToken (hu.payloads p hp) (fun n hn => hnames n (List.mem_filterMap.mpr ⟨p, hp, hn⟩)) fun f hf n hn => ?_
  have htype : f.type ∈ (Body.union u).types :=
    List.mem_cons_of_mem _ (List.mem_filterMap.mpr ⟨p, hp, by rw [Option.mem_def.mp hf]; rfl⟩)
  exact hmentions n (mem_mentions_of_type htype hn)

theorem BodyWords.isToken {name : String} {b : Body} {w : List Lexeme} (h : BodyWords name b w) (hb : b.Buildable)
    (hname : IsName name) (hmembers : ∀ m ∈ b.members, IsName m.name) (hfields : ∀ n ∈ b.fieldNames, IsName n)
    (hmentions : ∀ n ∈ b.mentions, IsName n) : ∀ l ∈ w, IsToken l := by
  have hword := isToken_word hname
  have hvalue {v : Value} (hv : v ∈ b.values) (hspelled : v.Spelled) : IsToken v.lexeme :=
    isToken_value hspelled fun n hn => hmentions n (mem_mentions_of_value hv hn)
  cases h with
  | const =>
    simp only [List.forall_mem_cons]
    exact ⟨isToken_keyword _, hword, isToken_mark _, hvalue List.mem_cons_self hb, by simp⟩
  | typedef h =>
    refine List.forall_mem_cons.mpr ⟨isToken_keyword _, h.isToken hb hname fun n hn => ?_⟩
    exact hmentions n (mem_mentions_of_type List.mem_cons_self hn)
  | @enum ms =>
    have hmember (m : Member) (hm : m ∈ ms) : ∀ l ∈ memberWords m, IsToken l :=
      isToken_memberWords (hb.2 m hm) (hmembers m hm) fun n hn =>
        hmentions n (mem_mentions_of_value (List.mem_map_of_mem hm) hn)
    refine List.forall_mem_cons.mpr ⟨isToken_keyword _, List.forall_mem_cons.mpr ⟨hword, List.forall_mem_cons.mpr
      ⟨isToken_mark _, List.forall_mem_append.mpr ⟨isToken_membersWords hmember, ?_⟩⟩⟩⟩
    exact List.forall_mem_singleton.mpr (isToken_mark _)
  | @struct fields ws h =>
    have hfield (f : Field Ty) (hf : f ∈ fields) (w : List Lexeme) (hw : FieldWords f w) : ∀ l ∈ w, IsToken l := by
      obtain ⟨hw⟩ := hw
      refine List.forall_mem_append.mpr ⟨?_, List.forall_mem_singleton.mpr (isToken_mark _)⟩
      exact hw.isToken (hb.2.1 f hf) (hfields _ (List.mem_map_of_mem hf)) fun n hn =>
        hmentions n (mem_mentions_of_type (List.mem_map_of_mem hf) hn)
    refine List.forall_mem_cons.mpr ⟨isToken_keyword _, List.forall_mem_cons.mpr ⟨hword, List.forall_mem_cons.mpr
      ⟨isToken_mark _, List.forall_mem_append.mpr ⟨forall_mem_flatten h hfield, ?_⟩⟩⟩⟩
    exact List.forall_mem_singleton.mpr (isToken_mark _)
  | @union u v w hv hw =>
    have hnames := List.forall_mem_cons.mp hfields
    have hswitch : ∀ l ∈ v, IsToken l := hv.isToken fun n hn =>
      hmentions n (mem_mentions_of_type List.mem_cons_self (mem_mentions_of_target (by rw [hn]; rfl)))
    have hlabels (a : Arm) (ha : a ∈ u.arms) (x : Value) (hx : x ∈ a.labels) : IsToken x.lexeme := by
      have hmem : x ∈ u.labels := List.mem_flatMap.mpr ⟨a, ha, hx⟩
      exact hvalue hmem (hb.labels x hmem)
    have harms := hw.isToken hlabels (isToken_payloads hb hnames.2 hmentions)
    refine List.forall_mem_cons.mpr ⟨isToken_keyword _, List.forall_mem_cons.mpr ⟨hword, List.forall_mem_cons.mpr
      ⟨isToken_keyword _, List.forall_mem_cons.mpr ⟨isToken_mark _, List.forall_mem_append.mpr ⟨?_, ?_⟩⟩⟩⟩⟩
    · exact List.forall_mem_append.mpr ⟨hswitch, List.forall_mem_singleton.mpr (isToken_word hnames.1)⟩
    · refine List.forall_mem_cons.mpr ⟨isToken_mark _, List.forall_mem_cons.mpr ⟨isToken_mark _, ?_⟩⟩
      exact List.forall_mem_append.mpr ⟨harms, List.forall_mem_singleton.mpr (isToken_mark _)⟩

theorem DefinitionWords.isToken {d : Definition} {w : List Lexeme} (h : DefinitionWords d w) (hd : d.body.Buildable)
    (hnames : ∀ n ∈ d.names, IsName n) : ∀ l ∈ w, IsToken l := by
  obtain ⟨h⟩ := h
  rw [Definition.names, List.forall_mem_append, List.forall_mem_append, Definition.introduces, List.forall_mem_cons,
    List.forall_mem_map] at hnames
  obtain ⟨⟨⟨hname, hmembers⟩, hfields⟩, hmentions⟩ := hnames
  exact List.forall_mem_append.mpr ⟨h.isToken hd hname hmembers hfields hmentions,
    List.forall_mem_singleton.mpr (isToken_mark _)⟩

theorem Words.isToken {spec : Spec} {w : List Lexeme} (h : spec.Words w)
    (hspec : ∀ d ∈ spec.definitions, d.body.Buildable ∧ ∀ n ∈ d.names, IsName n) : ∀ l ∈ w, IsToken l := by
  obtain ⟨ws, hws, rfl⟩ := h
  exact forall_mem_flatten hws fun d hd w hw => hw.isToken (hspec d hd).1 (hspec d hd).2

end XdrSchema.Spec
