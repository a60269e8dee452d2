import XdrSchema.Proofs.Concrete.Language
import XdrSchema.Proofs.Spec.Words

/-! A specification written out and read again. Each type may be spelled in any of its ways, the default arm of
a union may stand anywhere among its arms, and between words any gaps may stand. -/
namespace XdrSchema.Spec

open Concrete (Keyword Lexeme Mark Printed Prints)

/-! ### Derivations of the words -/

variable {α β : Type}

/-- The check succeeds, with `a` apart from places. -/
def Builds (f : α → β) (x : Checked α) (a : α) : Prop := ∃ b, x = .ok b ∧ f b = f a

theorem Builds.bind {γ δ : Type} {f : α → β} {g : γ → δ} {x : Checked α} {a : α} {k : α → Checked γ} {c : γ}
    (hx : Builds f x a) (hk : ∀ b, f b = f a → Builds g (k b) c) : Builds g (x >>= k) c := by
  obtain ⟨b, rfl, hb⟩ := hx
  exact hk b hb

theorem builds_ok {f : α → β} {a b : α} (h : f b = f a) : Builds f (.ok b) a := ⟨b, rfl, h⟩

theorem builds_mapM {γ δ : Type} {f : γ → δ} {k : α → Checked γ} {as : List α} {cs : List γ}
    (h : List.Forall₂ (fun c a => Builds f (k a) c) cs as) : Builds (List.map f) (as.mapM k) cs := by
  induction h with
  | nil => exact builds_ok rfl
  | cons hc _ ih =>
    rw [List.mapM_cons]
    refine hc.bind fun b hb => ih.bind fun bs hbs => builds_ok ?_
    rw [List.map_cons, List.map_cons, hb, hbs]

theorem prints_value {v : Value} (hv : v.Spelled) : Prints Concrete.Grammar.value
    (fun d => Builds Value.unplaced (valueOf (Concrete.Grammar.valueOf d)) v) [v.lexeme] := by
  cases v with
  | literal n text span =>
    refine Prints.inl ((Concrete.prints_token .number text).mono ?_)
    rintro t rfl
    exact ⟨_, valueOf_number_eq_ok_iff.mpr ⟨_, hv.2, rfl⟩, rfl⟩
  | constant name span =>
    refine Prints.inr ((Concrete.prints_token .name name).mono ?_)
    rintro t rfl
    exact builds_ok rfl

theorem prints_keyword (k : Keyword) : Prints (Concrete.Grammar.keyword k) (fun _ => True) [keyword k] :=
  (Concrete.prints_token _ _).mono fun _ _ => trivial

theorem prints_mark (m : Mark) : Prints (Concrete.Grammar.mark m) (fun _ => True) [mark m] :=
  (Concrete.prints_token _ _).mono fun _ _ => trivial

theorem prints_name (name : String) : Prints Concrete.Grammar.name (fun t => t.val.text = name) [word name] :=
  Concrete.prints_token _ _

/-! ### Declarations -/

theorem prints_base {b : Base String} {w : List Lexeme} (h : BaseWords b w) :
    Prints Concrete.Grammar.typeSpecifier (fun d => Concrete.Grammar.baseOf d = b) w := by
  cases h with
  | named =>
    refine .inr (.inr (.inr (.inr (.inr (.inr (.inr ((prints_name _).mono ?_)))))))
    rintro t rfl
    rfl
  | @primitive p ks h =>
    have hunsigned := prints_keyword .unsigned
    have halone : Prints (Concrete.Grammar.keyword .int).opt (fun _ => True) [] := .inr Concrete.prints_empty
    have hint : Prints (Concrete.Grammar.keyword .int).opt (fun _ => True) [keyword .int] := .inl (prints_keyword .int)
    cases p with
    | int =>
      rcases List.mem_pair.mp h with rfl | rfl
      · exact .inl (.inl ((prints_keyword .int).of_forall fun _ => rfl))
      · exact .inl (.inr ((prints_keyword .int32).of_forall fun _ => rfl))
    | unsignedInt =>
      rcases List.mem_cons.mp h with rfl | h
      · exact .inr (.inl (.inl ((hunsigned.seq halone).of_forall fun _ => rfl)))
      · rcases List.mem_pair.mp h with rfl | rfl
        · exact .inr (.inl (.inl ((hunsigned.seq hint).of_forall fun _ => rfl)))
        · exact .inr (.inl (.inr ((prints_keyword .uint32).of_forall fun _ => rfl)))
    | hyper =>
      rcases List.mem_pair.mp h with rfl | rfl
      · exact .inr (.inr (.inl (.inl ((prints_keyword .hyper).of_forall fun _ => rfl))))
      · exact .inr (.inr (.inl (.inr ((prints_keyword .int64).of_forall fun _ => rfl))))
    | unsignedHyper =>
      rcases List.mem_pair.mp h with rfl | rfl
      · exact .inr (.inr (.inr (.inl (.inl ((hunsigned.seq (prints_keyword .hyper)).of_forall fun _ => rfl)))))
      · exact .inr (.inr (.inr (.inl (.inr ((prints_keyword .uint64).of_forall fun _ => rfl)))))
    | float =>
      obtain rfl := List.mem_singleton.mp h
      exact .inr (.inr (.inr (.inr (.inl ((prints_keyword .float).of_forall fun _ => rfl)))))
    | double =>
      obtain rfl := List.mem_singleton.mp h
      exact .inr (.inr (.inr (.inr (.inr (.inl ((prints_keyword .double).of_forall fun _ => rfl))))))
    | bool =>
      obtain rfl := List.mem_singleton.mp h
      exact .inr (.inr (.inr (.inr (.inr (.inr (.inl ((prints_keyword .bool).of_forall fun _ => rfl)))))))

theorem prints_lengthSuffix {v : Value} (hv : v.Spelled) : Prints Concrete.Grammar.lengthSuffix
    (fun d => Builds Value.unplaced (valueOf (Concrete.Grammar.valueOf d.2.1)) v) (lengthWords v) :=
  ((prints_mark .openBracket).seq ((prints_value hv).seq (prints_mark .closeBracket))).mono fun _ h => h.2.1

theorem prints_boundSuffix {v : Option Value} (hv : ∀ u ∈ v, u.Spelled) : Prints Concrete.Grammar.boundSuffix
    (fun d => Builds (Option.map Value.unplaced) (boundOf (Concrete.Grammar.boundOf d.2.1)) v) (boundWords v) := by
  have hbound : Prints Concrete.Grammar.value.opt
      (fun d => Builds (Option.map Value.unplaced) (boundOf (Concrete.Grammar.boundOf d)) v)
      (v.map Value.lexeme).toList := by
    cases v with
    | none => exact .inr (Concrete.prints_empty.of_forall fun _ => builds_ok rfl)
    | some v =>
      refine .inl ((prints_value (hv v rfl)).mono fun d hd => hd.bind fun b hb => builds_ok ?_)
      exact congrArg some hb
  exact ((prints_mark .less).seq (hbound.seq (prints_mark .greater))).mono fun _ h => h.2.1

theorem builds_item {f : Field Ty} {name : Concrete.Word} {type : TypeExpr Concrete.Value String} {span : Span}
    (hname : name.text = f.name) (htype : Builds Ty.unplaced (typeOf type) f.type) :
    Builds Payload.unplaced (payloadOf (.item name type span)) (.field f) := by
  refine htype.bind fun t ht => builds_ok ?_
  change Payload.field ⟨name.text, Ty.unplaced t, _, _⟩ = Payload.field ⟨f.name, Ty.unplaced f.type, _, _⟩
  rw [hname, ht]

theorem Builds.map {γ δ : Type} {f : α → β} {g : γ → δ} {x : Checked α} {a : α} {k : α → γ}
    (hx : Builds f x a) (hk : ∀ b, f b = f a → g (k b) = g (k a)) :
    Builds g (x >>= fun b => pure (k b)) (k a) :=
  hx.bind fun b hb => builds_ok (hk b hb)

theorem prints_declaration {name : String} {t : Ty} {w : List Lexeme} (h : DeclarationWords name t w)
    (ht : ∀ v ∈ t.bound?, v.Spelled) {f : Field Ty} (hname : f.name = name) (htype : f.type = t) :
    Prints Concrete.Grammar.declaration
      (fun d => Builds Payload.unplaced (payloadOf (Concrete.Grammar.declarationOf d)) (.field f)) w := by
  subst hname
  cases h with
  | plain hb =>
    refine .inl (((prints_base hb).seq (prints_name f.name)).mono fun d hd => builds_item hd.2 ?_)
    rw [htype, hd.1]
    exact builds_ok rfl
  | array hb =>
    have hv := prints_lengthSuffix (ht _ rfl)
    refine .inr (.inl (((prints_base hb).seq ((prints_name f.name).seq hv)).mono fun d hd => builds_item hd.2.1 ?_))
    rw [htype, hd.1]
    exact hd.2.2.map fun v hv => congrArg (TypeExpr.array _) hv
  | vector hb =>
    have hv := prints_boundSuffix ht
    refine .inr (.inr (.inl (((prints_base hb).seq ((prints_name f.name).seq hv)).mono fun d hd =>
      builds_item hd.2.1 ?_)))
    rw [htype, hd.1]
    exact hd.2.2.map fun v hv => congrArg (TypeExpr.vector _) hv
  | optional hb =>
    refine .inr (.inr (.inr (.inr (.inr (.inr (.inl (((prints_base hb).seq ((prints_mark .star).seq
      (prints_name f.name))).mono fun d hd => builds_item hd.2.2 ?_)))))))
    rw [htype, hd.1]
    exact builds_ok rfl
  | fixedBytes =>
    have hv := prints_lengthSuffix (ht _ rfl)
    refine .inr (.inr (.inr (.inl (((prints_keyword .opaqueData).seq ((prints_name f.name).seq hv)).mono fun d hd =>
      builds_item hd.2.1 ?_))))
    rw [htype]
    exact hd.2.2.map fun v hv => congrArg TypeExpr.fixedBytes hv
  | bytes =>
    have hv := prints_boundSuffix ht
    refine .inr (.inr (.inr (.inr (.inl (((prints_keyword .opaqueData).seq ((prints_name f.name).seq hv)).mono
      fun d hd => builds_item hd.2.1 ?_)))))
    rw [htype]
    exact hd.2.2.map fun v hv => congrArg TypeExpr.bytes hv
  | string =>
    have hv := prints_boundSuffix ht
    refine .inr (.inr (.inr (.inr (.inr (.inl (((prints_keyword .string).seq ((prints_name f.name).seq hv)).mono
      fun d hd => builds_item hd.2.1 ?_))))))
    rw [htype]
    exact hd.2.2.map fun v hv => congrArg TypeExpr.string hv

theorem prints_payload {p : Payload} {w : List Lexeme} (h : PayloadWords p w)
    (hp : ∀ f ∈ p.field?, Ty.Spelled f.type) : Prints Concrete.Grammar.declaration
      (fun d => Builds Payload.unplaced (payloadOf (Concrete.Grammar.declarationOf d)) p) w := by
  cases h with
  | void =>
    refine .inr (.inr (.inr (.inr (.inr (.inr (.inr ((prints_keyword .void).of_forall fun d => ?_)))))))
    exact builds_ok rfl
  | field h => exact prints_declaration h (hp _ rfl) rfl rfl

/-! ### Structs and enumerations -/

theorem prints_field {f : Field Ty} {w : List Lexeme} (h : FieldWords f w) (hf : Ty.Spelled f.type) :
    Prints Concrete.Grammar.field
      (fun d => Builds Payload.unplaced (payloadOf (Concrete.Grammar.declarationOf d.1)) (.field f)) w := by
  obtain ⟨h⟩ := h
  exact ((prints_declaration h hf rfl rfl).seq (prints_mark .semicolon)).mono fun _ h => h.1

theorem builds_fieldsOf {owner : String} {fields : List (Field Ty)} {ds : List Concrete.Declaration}
    {seen : List String} (h : List.Forall₂ (fun f d => Builds Payload.unplaced (payloadOf d) (.field f)) fields ds)
    (hdistinct : (fields.map (·.name)).Nodup) (hnew : ∀ f ∈ fields, f.name ∉ seen) :
    Builds (List.map (Field.unplaced Ty.unplaced)) (fieldsOf owner seen ds) fields := by
  induction h generalizing seen with
  | nil => exact builds_ok rfl
  | @cons f d fields ds hf _ ih =>
    rw [List.map_cons, List.nodup_cons] at hdistinct
    rw [List.forall_mem_cons] at hnew
    refine hf.bind fun p hp => ?_
    cases p with
    | void span => cases hp
    | field g =>
      have hg : g.unplaced Ty.unplaced = f.unplaced Ty.unplaced := Payload.field.inj hp
      have hname : g.name = f.name := (congrArg Field.name hg :)
      have hrest : ∀ e ∈ fields, e.name ∉ g.name :: seen := by
        intro e he
        rw [List.mem_cons, not_or, hname]
        exact ⟨fun heq => hdistinct.1 (heq ▸ List.mem_map_of_mem he), hnew.2 e he⟩
      dsimp only
      rw [if_neg (hname ▸ hnew.1)]
      refine (ih hdistinct.2 hrest).bind fun gs hgs => builds_ok ?_
      rw [List.map_cons, List.map_cons, hg, hgs]

theorem prints_member {m : Member} (hm : m.value.Spelled) : Prints Concrete.Grammar.enumMember
    (fun d => Builds Member.unplaced (memberOf (Concrete.Grammar.memberOf d)) m) (memberWords m) := by
  refine ((prints_name m.name).seq ((prints_mark .equals).seq (prints_value hm))).mono fun d hd => ?_
  refine hd.2.2.bind fun v hv => builds_ok ?_
  change (⟨d.1.val.text, v.unplaced, _⟩ : Member) = ⟨m.name, m.value.unplaced, _⟩
  rw [hd.1, hv]

theorem prints_enumBody {ms : List Member} (hne : ms ≠ []) (hms : ∀ m ∈ ms, m.value.Spelled) :
    Prints Concrete.Grammar.enumBody
      (fun d => Builds (List.map Member.unplaced) ((Concrete.Grammar.membersOf d).mapM memberOf) ms)
      (mark .openBrace :: (membersWords ms ++ [mark .closeBrace])) := by
  obtain ⟨m, ms, rfl⟩ := List.exists_cons_of_ne_nil hne
  rw [List.forall_mem_cons] at hms
  have hothers : Prints ((Concrete.Grammar.mark .comma).seq Concrete.Grammar.enumMember).many
      (fun ds => List.Forall₂ (fun m d => Builds Member.unplaced (memberOf (Concrete.Grammar.memberOf d.2)) m) ms ds)
      (ms.flatMap fun m => mark .comma :: memberWords m) := by
    refine Prints.many (List.forall₂_map_right_iff.mpr (List.forall₂_same.mpr fun m hm => ?_))
    exact ((prints_mark .comma).seq (prints_member (hms.2 m hm))).mono fun _ h => h.2
  refine ((prints_mark .openBrace).seq ((prints_member hms.1).seq (hothers.seq (prints_mark .closeBrace)))).mono
    fun d hd => ?_
  exact builds_mapM (.cons hd.2.1 (List.forall₂_map_right_iff.mpr hd.2.2.1))

theorem prints_structBody {fields : List (Field Ty)} {ws : List (List Lexeme)} (hne : fields ≠ [])
    (h : List.Forall₂ FieldWords fields ws) (hfields : ∀ f ∈ fields, Ty.Spelled f.type)
    (hdistinct : (fields.map (·.name)).Nodup) (owner : String) :
    Prints Concrete.Grammar.structBody (fun d => Builds (List.map (Field.unplaced Ty.unplaced))
        (fieldsOf owner [] (Concrete.Grammar.fieldsOf d)) fields)
      (mark .openBrace :: (ws.flatten ++ [mark .closeBrace])) := by
  have hfield (f : Field Ty) (w : List Lexeme) (hf : Ty.Spelled f.type ∧ FieldWords f w) :
      Prints Concrete.Grammar.field
        (fun d => Builds Payload.unplaced (payloadOf (Concrete.Grammar.declarationOf d.1)) (.field f)) w :=
    prints_field hf.2 hf.1
  have hmany : Prints Concrete.Grammar.field.many (fun ds => List.Forall₂
      (fun f d => Builds Payload.unplaced (payloadOf d) (.field f)) fields
      (List.map (fun d => Concrete.Grammar.declarationOf d.1) ds)) ws.flatten :=
    (Prints.many (((List.forall₂_and_left _ _).mpr ⟨hfields, h⟩).imp hfield)).mono
      fun _ hds => List.forall₂_map_right_iff.mpr hds
  have hwords : ws.flatten ≠ [] := by
    cases h with
    | nil => exact (hne rfl).elim
    | cons hf _ =>
      obtain ⟨-⟩ := hf
      simp
  refine ((prints_mark .openBrace).seq ((hmany.some hwords).seq (prints_mark .closeBrace))).mono fun d hd => ?_
  exact builds_fieldsOf hd.2.1 hdistinct fun _ _ => List.not_mem_nil

/-! ### Unions -/

theorem checkArmName_eq {union : String} {seen : List String} {p : Payload} (h : ∀ n ∈ p.name?, n ∉ seen) :
    checkArmName union seen p = .ok (p.name?.toList ++ seen) := by
  cases p with
  | void span => rfl
  | field f =>
    unfold checkArmName
    dsimp only
    rw [if_neg (h f.name rfl)]
    rfl

theorem prints_labels {vs : List Value} (hne : vs ≠ []) (hvs : ∀ v ∈ vs, v.Spelled) :
    Prints Concrete.Grammar.caseLabel.some
      (fun d => Builds (List.map Value.unplaced)
        ((Concrete.Grammar.labelOf d.1 :: List.map Concrete.Grammar.labelOf d.2).mapM valueOf) vs)
      (vs.flatMap labelWords) := by
  have hlabel (v : Value) (hv : v ∈ vs) : Prints Concrete.Grammar.caseLabel
      (fun d => Builds Value.unplaced (valueOf (Concrete.Grammar.labelOf d)) v) (labelWords v) :=
    ((prints_keyword .case).seq ((prints_value (hvs v hv)).seq (prints_mark .colon))).mono fun _ h => h.2.1
  have hmany : Prints Concrete.Grammar.caseLabel.many (fun ds => List.Forall₂
      (fun v c => Builds Value.unplaced (valueOf c) v) vs (List.map Concrete.Grammar.labelOf ds))
      (vs.flatMap labelWords) :=
    (Prints.many (List.forall₂_map_right_iff.mpr (List.forall₂_same.mpr hlabel))).mono
      fun _ hds => List.forall₂_map_right_iff.mpr hds
  have hwords : vs.flatMap labelWords ≠ [] := by
    cases vs with
    | nil => exact (hne rfl).elim
    | cons v vs => exact List.cons_ne_nil _ _
  exact (hmany.some hwords).mono fun _ hd => builds_mapM hd

theorem armNames_cons (a : Arm) (arms : List Arm) (default : Option Payload) :
    armNames (a :: arms) default = a.payload.name?.toList ++ armNames arms default := by
  unfold armNames
  rw [List.map_cons, List.cons_append, List.filterMap_cons]
  cases a.payload.name? <;> rfl

theorem armNames_some (arms : List Arm) (p : Payload) :
    armNames arms (some p) = armNames arms none ++ p.name?.toList := by
  unfold armNames
  rw [List.filterMap_append, List.filterMap_append]
  cases hname : p.name? <;> simp [hname]

/-- Names that are all new stay so once the first have been seen. -/
theorem not_mem_seen {as bs seen : List String} (hdistinct : (as ++ bs).Nodup) (hnew : ∀ n ∈ as ++ bs, n ∉ seen) :
    ∀ n ∈ bs, n ∉ as ++ seen := by
  intro n hn hmem
  rcases List.mem_append.mp hmem with hmem | hmem
  · exact (List.disjoint_of_nodup_append hdistinct) hmem hn
  · exact hnew n (List.mem_append_right _ hn) hmem

/-- Arms apart from places. -/
def armsUnplaced : List Arm × Option Payload → List Arm × Option Payload :=
  Prod.map (List.map Arm.unplaced) (Option.map Payload.unplaced)

theorem name?_eq_of_unplaced {p q : Payload} (h : p.unplaced = q.unplaced) : p.name? = q.name? := by
  rw [← payloadName?_unplaced p, h, payloadName?_unplaced]

section Arms

variable {owner : String} {before : Option Payload} {seen : List String} {arms : List Arm}
  {default : Option Payload} {rest : List Concrete.Arm} {d : Concrete.Declaration} {span : Span}

theorem builds_caseArm {a : Arm} {labels : List Concrete.Value}
    (hlabels : Builds (List.map Value.unplaced) (labels.mapM valueOf) a.labels)
    (hpayload : Builds Payload.unplaced (payloadOf d) a.payload)
    (hnew : ∀ n ∈ a.payload.name?, n ∉ seen)
    (hrest : Builds armsUnplaced (armsOf owner before (a.payload.name?.toList ++ seen) rest) (arms, default)) :
    Builds armsUnplaced (armsOf owner before seen (.case labels d span :: rest)) (a :: arms, default) := by
  refine hlabels.bind fun ls hls => hpayload.bind fun p hp => ?_
  have hname := name?_eq_of_unplaced hp
  rw [checkArmName_eq (hname ▸ hnew), hname]
  refine hrest.bind fun result hresult => builds_ok ?_
  obtain ⟨harms, hdefault⟩ := Prod.mk.inj hresult
  refine Prod.ext ?_ hdefault
  change (⟨ls.map Value.unplaced, p.unplaced, .nowhere⟩ : Arm) :: result.1.map Arm.unplaced = _
  rw [hls, hp, harms]
  rfl

theorem builds_defaultArm {p : Payload} (hpayload : Builds Payload.unplaced (payloadOf d) p)
    (hnew : ∀ n ∈ p.name?, n ∉ seen)
    (hrest : ∀ x, Builds armsUnplaced (armsOf owner (some x) (p.name?.toList ++ seen) rest) (arms, some x)) :
    Builds armsUnplaced (armsOf owner none seen (.default d span :: rest)) (arms, some p) := by
  refine hpayload.bind fun x hx => ?_
  have hname := name?_eq_of_unplaced hx
  rw [checkArmName_eq (hname ▸ hnew), hname]
  obtain ⟨result, hok, hresult⟩ := hrest x
  refine ⟨result, hok, hresult.trans ?_⟩
  exact Prod.ext rfl (congrArg some hx)

end Arms

theorem prints_caseArm {a : Arm} {v : List Lexeme} (hpayload : PayloadWords a.payload v) (hne : a.labels ≠ [])
    (hlabels : ∀ v ∈ a.labels, v.Spelled) (hfield : ∀ f ∈ a.payload.field?, Ty.Spelled f.type) :
    Prints Concrete.Grammar.arm (fun e => ∃ labels d span, Concrete.Grammar.armOf e = .case labels d span ∧
        Builds (List.map Value.unplaced) (labels.mapM valueOf) a.labels ∧
        Builds Payload.unplaced (payloadOf d) a.payload)
      (a.labels.flatMap labelWords ++ (v ++ [mark .semicolon])) := by
  have hfield := (prints_payload hpayload hfield).seq (prints_mark .semicolon)
  refine .inl (((prints_labels hne hlabels).seq hfield).mono fun e he => ?_)
  exact ⟨_, _, _, rfl, he.1, he.2.1⟩

theorem prints_defaultArm {p : Payload} {v : List Lexeme} (hpayload : PayloadWords p v)
    (hfield : ∀ f ∈ p.field?, Ty.Spelled f.type) :
    Prints Concrete.Grammar.arm (fun e => ∃ d span, Concrete.Grammar.armOf e = .default d span ∧
        Builds Payload.unplaced (payloadOf d) p)
      (keyword .default :: mark .colon :: (v ++ [mark .semicolon])) := by
  have hfield := (prints_payload hpayload hfield).seq (prints_mark .semicolon)
  refine .inr (((prints_keyword .default).seq ((prints_mark .colon).seq hfield)).mono fun e he => ?_)
  exact ⟨_, _, rfl, he.2.2.1⟩

theorem prints_arms {arms : List Arm} {default : Option Payload} {w : List Lexeme} (h : ArmsWords arms default w)
    (hlabels : ∀ a ∈ arms, a.labels ≠ [] ∧ ∀ v ∈ a.labels, v.Spelled)
    (hpayloads : ∀ p ∈ arms.map (·.payload) ++ default.toList, ∀ f ∈ p.field?, Ty.Spelled f.type)
    (hdistinct : (armNames arms default).Nodup) : Prints Concrete.Grammar.arm.many
      (fun ds => ∀ (owner : String) (before : Option Payload) (seen : List String),
        (default.isSome → before = none) → (∀ n ∈ armNames arms default, n ∉ seen) →
        Builds armsUnplaced (armsOf owner before seen (List.map Concrete.Grammar.armOf ds))
          (arms, default.or before)) w := by
  induction h with
  | nil => exact Concrete.prints_many_nil fun _ _ _ _ _ => builds_ok rfl
  | @case a arms default v w hp _ ih =>
    rw [List.forall_mem_cons] at hlabels
    rw [List.map_cons, List.cons_append, List.forall_mem_cons] at hpayloads
    rw [armNames_cons] at hdistinct ⊢
    have hfirst := prints_caseArm hp hlabels.1.1 hlabels.1.2 hpayloads.1
    refine (hfirst.cons (ih hlabels.2 hpayloads.2 hdistinct.of_append_right)).mono ?_
    rintro _ ⟨d, ds, rfl, ⟨labels, payload, span, hd, hlabel, hpayload⟩, hds⟩ owner before seen hbefore hnew
    have hname : ∀ n ∈ a.payload.name?, n ∉ seen := fun n hn =>
      hnew n (List.mem_append_left _ (Option.mem_toList.mpr hn))
    have hrest := hds owner before (a.payload.name?.toList ++ seen) hbefore (not_mem_seen hdistinct hnew)
    change Builds armsUnplaced (armsOf owner before seen (Concrete.Grammar.armOf d :: _)) _
    rw [hd]
    exact builds_caseArm hlabel hpayload hname hrest
  | @default p arms v w hp _ ih =>
    rw [armNames_some] at hdistinct ⊢
    rw [List.forall_mem_append] at hpayloads
    have hfirst := prints_defaultArm hp (hpayloads.2 p List.mem_cons_self)
    have hothers : ∀ p ∈ arms.map (·.payload) ++ none.toList, ∀ f ∈ p.field?, Ty.Spelled f.type := by
      rw [Option.toList_none, List.append_nil]
      exact hpayloads.1
    refine (hfirst.cons (ih hlabels hothers hdistinct.of_append_left)).mono ?_
    rintro _ ⟨d, ds, rfl, ⟨payload, span, hd, hpayload⟩, hds⟩ owner before seen hbefore hnew
    have hname : ∀ n ∈ p.name?, n ∉ seen := fun n hn =>
      hnew n (List.mem_append_right _ (Option.mem_toList.mpr hn))
    have hfresh := not_mem_seen (List.nodup_append_comm.mp hdistinct)
      fun n hn => hnew n (List.mem_append.mpr (List.mem_append.mp hn).symm)
    have hrest (x : Payload) := hds owner (some x) (p.name?.toList ++ seen) (fun h => by cases h) hfresh
    change Builds armsUnplaced (armsOf owner before seen (Concrete.Grammar.armOf d :: _)) _
    rw [hd, hbefore rfl]
    exact builds_defaultArm hpayload hname hrest

theorem armsWords_ne_nil {arms : List Arm} {default : Option Payload} {w : List Lexeme} (h : ArmsWords arms default w)
    (hne : arms ≠ [] ∨ default.isSome) : w ≠ [] := by
  cases h with
  | nil => simp at hne
  | case | default => simp

theorem prints_discriminant {d : Field (Base String)} {w : List Lexeme} (h : BaseWords d.type w) (union : String) :
    Prints Concrete.Grammar.declaration (fun e => Builds (Field.unplaced id)
      (discriminantOf union (Concrete.Grammar.declarationOf e)) d) (w ++ [word d.name]) := by
  refine .inl (((prints_base h).seq (prints_name d.name)).mono fun e he => builds_ok ?_)
  change (⟨e.2.val.text, Concrete.Grammar.baseOf e.1, _, _⟩ : Field (Base String)) = ⟨d.name, d.type, _, _⟩
  rw [he.1, he.2]

theorem builds_unionOf {u : Union} {owner : String} {switch : Concrete.Declaration} {arms : List Concrete.Arm}
    (hswitch : Builds (Field.unplaced id) (discriminantOf owner switch) u.discriminant)
    (harms : Builds armsUnplaced (armsOf owner none [] arms) (u.arms, u.default)) (hu : u.arms ≠ [] ∨ u.default.isSome)
    (span : Span) : Builds Union.unplaced (unionOf owner switch arms span) u := by
  refine hswitch.bind fun d hd => harms.bind fun result hresult => ?_
  obtain ⟨arms', default'⟩ := result
  obtain ⟨hmap, hdefault⟩ := Prod.mk.inj hresult
  have hne : (arms'.isEmpty && default'.isNone) = false := by
    have hempty := congrArg List.isEmpty hmap
    have hnone := congrArg Option.isNone hdefault
    rw [List.isEmpty_map, List.isEmpty_map] at hempty
    rw [Option.isNone_map, Option.isNone_map] at hnone
    rw [hempty, hnone, Bool.and_eq_false_iff]
    refine hu.imp (fun h => ?_) fun h => ?_
    · rw [List.isEmpty_eq_false_iff]
      exact h
    · rw [← Option.not_isSome, h]
      rfl
  change Builds _ (if (arms'.isEmpty && default'.isNone) = true then _ else _) _
  rw [if_neg (by rw [hne]; decide)]
  refine builds_ok ?_
  change (⟨d.unplaced id, arms'.map Arm.unplaced, default'.map Payload.unplaced⟩ : Union) = _
  rw [hd, hmap, hdefault]
  rfl

theorem prints_unionBody {u : Union} {v w : List Lexeme} (hu : u.Buildable) (hv : BaseWords u.discriminant.type v)
    (hw : ArmsWords u.arms u.default w) (name : String) : Prints Concrete.Grammar.unionBody
      (fun d => ∀ t : Concrete.Token, t.text = name → ∃ switch arms,
        Concrete.Grammar.unionOf t d = .union (Concrete.Grammar.wordOf t) switch arms ∧
          ∀ span, Builds Union.unplaced (unionOf name switch arms span) u)
      (keyword .switch :: mark .openParen :: ((v ++ [word u.discriminant.name]) ++
        mark .closeParen :: mark .openBrace :: (w ++ [mark .closeBrace]))) := by
  have hlabels (a : Arm) (ha : a ∈ u.arms) : a.labels ≠ [] ∧ ∀ v ∈ a.labels, v.Spelled :=
    ⟨hu.proper.labels a ha, fun v hv => hu.labels v (List.mem_flatMap.mpr ⟨a, ha, hv⟩)⟩
  have harms := (prints_arms hw hlabels hu.payloads hu.names).some (armsWords_ne_nil hw hu.proper.arms)
  refine ((prints_keyword .switch).seq ((prints_mark .openParen).seq ((prints_discriminant hv name).seq
    ((prints_mark .closeParen).seq ((prints_mark .openBrace).seq (harms.seq (prints_mark .closeBrace))))))).mono ?_
  rintro d ⟨-, -, hswitch, -, -, harms, -⟩ t -
  have harms := harms name none [] (fun _ => rfl) (fun _ _ => List.not_mem_nil)
  rw [Option.or_none] at harms
  exact ⟨_, _, rfl, builds_unionOf hswitch harms hu.proper.arms⟩

/-! ### Definitions -/

theorem builds_named (body : α → Body) {f : α → β} {x : Checked α} {a : α} (hx : Builds f x a)
    (hbody : ∀ b, f b = f a → (body b).unplaced = (body a).unplaced) {d : Definition} (hd : d.body = body a)
    {name : Concrete.Word} (hname : name.text = d.name) (span : Span) :
    Builds Definition.unplaced (x >>= fun b => pure ⟨name.text, body b, span, name.span⟩) d := by
  refine hx.bind fun b hb => builds_ok ?_
  change (⟨name.text, (body b).unplaced, _, _⟩ : Definition) = ⟨d.name, d.body.unplaced, _, _⟩
  rw [hname, hd, hbody b hb]

theorem prints_definition {d : Definition} {w : List Lexeme} (h : DefinitionWords d w) (hd : d.body.Buildable) :
    Prints Concrete.Grammar.definition
      (fun e => Builds Definition.unplaced (definitionOf (Concrete.Grammar.definitionOf e)) d) w := by
  obtain ⟨h⟩ := h
  obtain ⟨name, body, span, nameSpan⟩ := d
  have hname := prints_name name
  have hend := prints_mark .semicolon
  cases h with
  | const =>
    refine .inl (((prints_keyword .const).seq (hname.seq ((prints_mark .equals).seq ((prints_value hd).seq hend)))).mono
      fun e he => ?_)
    exact builds_named .const he.2.2.2.1 (fun _ h => congrArg Body.const h) rfl he.2.1 _
  | @typedef t w h =>
    have hfield := prints_declaration h hd (f := ⟨name, t, span, nameSpan⟩) rfl rfl
    refine .inr (.inl (((prints_keyword .typedef).seq (hfield.seq hend)).mono fun e he => ?_))
    refine he.2.1.bind fun p hp => ?_
    cases p with
    | void => cases hp
    | field f =>
      refine builds_ok ?_
      have hfield := Payload.field.inj hp
      change (⟨f.name, .typedef (Ty.unplaced f.type), _, _⟩ : Definition) = ⟨name, .typedef (Ty.unplaced t), _, _⟩
      rw [show f.name = name from congrArg Field.name hfield, show Ty.unplaced f.type = Ty.unplaced t from
        congrArg Field.type hfield]
  | enum =>
    refine .inr (.inr (.inl (((prints_keyword .enum).seq (hname.seq ((prints_enumBody hd.1 hd.2).seq hend))).mono
      fun e he => ?_)))
    exact builds_named .enum he.2.2.1 (fun _ h => congrArg Body.enum h) rfl he.2.1 _
  | struct h =>
    have hbody := prints_structBody hd.1 h hd.2.1 hd.2.2 name
    refine .inr (.inr (.inr (.inl (((prints_keyword .struct).seq (hname.seq (hbody.seq hend))).mono fun e he => ?_))))
    obtain ⟨-, rfl, hfields, -⟩ := he
    exact builds_named .struct hfields (fun _ h => congrArg Body.struct h) rfl rfl _
  | union hv hw =>
    have hbody := prints_unionBody hd hv hw name
    refine .inr (.inr (.inr (.inr (((prints_keyword .union).seq (hname.seq (hbody.seq hend))).mono fun e he => ?_))))
    obtain ⟨-, hname, hunion, -⟩ := he
    obtain ⟨switch, arms, heq, hunion⟩ := hunion e.2.1.val hname
    change Builds _ (definitionOf ⟨Concrete.Grammar.unionOf e.2.1.val e.2.2.1, _⟩) _
    rw [heq]
    subst hname
    exact builds_named .union (hunion _) (fun _ h => congrArg Body.union h) rfl rfl _

/-! ### Whole texts -/

/-- The specification apart from places. -/
def unplaced (spec : Spec) : Spec := ⟨spec.definitions.map Definition.unplaced⟩

theorem prints_specification {spec : Spec} {w : List Lexeme} (h : spec.Words w)
    (hspec : ∀ d ∈ spec.definitions, d.body.Buildable) : Prints Concrete.Grammar.specification
      (fun e => Builds unplaced (ofTree (Concrete.Grammar.meaning e)) spec) w := by
  obtain ⟨ws, hws, rfl⟩ := h
  have hdefinition (d : Definition) (w : List Lexeme) (hd : d.body.Buildable ∧ DefinitionWords d w) :
      Prints Concrete.Grammar.definition
        (fun e => Builds Definition.unplaced (definitionOf (Concrete.Grammar.definitionOf e)) d) w :=
    prints_definition hd.2 hd.1
  refine (Prints.many (((List.forall₂_and_left _ _).mpr ⟨hspec, hws⟩).imp hdefinition)).mono fun e he => ?_
  have hall : Builds (List.map Definition.unplaced) ((Concrete.Grammar.meaning e).mapM definitionOf) spec.definitions :=
    builds_mapM (List.forall₂_map_right_iff.mpr he)
  exact hall.bind fun ds hds => builds_ok (congrArg Spec.mk hds)

/-- A text that a specification is written as is read as that specification, apart from places. -/
theorem parse_printed {spec : Spec} {w : List Lexeme} {text : String} (h : spec.Words w)
    (hspec : ∀ d ∈ spec.definitions, d.body.Buildable ∧ ∀ n ∈ d.names, IsName n) (htext : Printed w text.toList) :
    ∃ spec', parse text = .ok spec' ∧ spec'.unplaced = spec.unplaced := by
  obtain ⟨ts, hts, hlexemes⟩ := htext.splits (h.isToken hspec) Position.start
  obtain ⟨d, rfl, spec', hbuilt, hunplaced⟩ := prints_specification h (fun d hd => (hspec d hd).1) ts hlexemes
  have hparse : Concrete.parse text = .ok (Concrete.Grammar.meaning d) := Concrete.parse_eq_ok_iff.mpr ⟨d, hts, rfl⟩
  refine ⟨spec', ?_, hunplaced⟩
  rw [parse, hparse]
  exact hbuilt

end XdrSchema.Spec
