import XdrSchema.Proofs.Concrete.Language
import XdrSchema.Proofs.Spec.Words

/-! What a specification was read from. The words of a text are those of the specification that is built from it,
in the order in which they stand there. Main statements: `exists_words_of_parse` and `isName_of_mem_names`. -/
namespace XdrSchema.Spec

open Concrete (Keyword Lexeme Mark Printed Spelled Token)
open Concrete.Pattern (Tree)

/-- Each token is spelled as one of its kind. -/
def Clean (ts : List Token) : Prop := ∀ t ∈ ts, Spelled t.terminal t.text.toList

section Writes

variable {p q : Concrete.Pattern} {v w : List Lexeme}

/-- The derivation is of the given words, when its tokens are spelled as tokens. -/
def Writes (d : p.Tree) (w : List Lexeme) : Prop := Clean d.yield → d.yield.map Token.lexeme = w

theorem writes_keyword {k : Keyword} (t : (Concrete.Grammar.keyword k).Tree) : Writes t [keyword k] := by
  intro h
  obtain ⟨t, ht⟩ := t
  have hspelled := h t List.mem_cons_self
  rw [ht] at hspelled
  generalize hcs : t.text.toList = cs at hspelled
  cases hspelled
  exact congrArg (· :: []) (Prod.ext ht (String.toList_inj.mp hcs))

theorem writes_mark {m : Mark} (t : (Concrete.Grammar.mark m).Tree) : Writes t [mark m] := by
  intro h
  obtain ⟨t, ht⟩ := t
  have hspelled := h t List.mem_cons_self
  rw [ht] at hspelled
  generalize hcs : t.text.toList = cs at hspelled
  cases hspelled
  have htext : t.text = String.ofList [m.char] := by rw [← hcs, String.ofList_toList]
  exact congrArg (· :: []) (Prod.ext ht htext)

theorem writes_name (t : Concrete.Grammar.name.Tree) : Writes t [word t.val.text] := fun _ =>
  congrArg (· :: []) (Prod.ext t.property rfl)

theorem Writes.seq {d : p.Tree} {e : q.Tree} (hd : Writes d w) (he : Writes e v) :
    Writes (p := p.seq q) (d, e) (w ++ v) := by
  intro h
  obtain ⟨hleft, hright⟩ := List.forall_mem_append.mp h
  rw [← hd hleft, ← he hright, ← List.map_append]
  rfl

end Writes

/-! ### Declarations -/

theorem writes_value {d : Concrete.Grammar.value.Tree} {v : Value} (h : valueOf (Concrete.Grammar.valueOf d) = .ok v) :
    Writes d [v.lexeme] := by
  intro _
  cases d with
  | inl t =>
    obtain ⟨n, -, rfl⟩ := valueOf_number_eq_ok_iff.mp h
    exact congrArg (· :: []) (Prod.ext t.property rfl)
  | inr t =>
    cases h
    exact congrArg (· :: []) (Prod.ext t.property rfl)

theorem baseWords_primitive {p : Primitive} {w : List Lexeme} (ks : List Keyword) (hks : ks ∈ spellings p)
    (hw : w = ks.map keyword) : BaseWords (.primitive p) w := by
  subst hw
  exact .primitive hks

theorem baseWords_named {name : String} {w : List Lexeme} (hw : w = [word name]) : BaseWords (.named name) w := by
  subst hw
  exact .named

theorem baseWords_of (d : Concrete.Grammar.typeSpecifier.Tree) (h : Clean d.yield) :
    BaseWords (Concrete.Grammar.baseOf d) (d.yield.map Token.lexeme) := by
  rcases d with (t | t) | (⟨t, u | u⟩ | t) | (t | t) | (⟨t, u⟩ | t) | t | t | t | t
  · exact baseWords_primitive [.int] (by decide) (writes_keyword t h)
  · exact baseWords_primitive [.int32] (by decide) (writes_keyword t h)
  · exact baseWords_primitive [.unsigned, .int] (by decide) (((writes_keyword t).seq (writes_keyword u)) h)
  · exact baseWords_primitive [.unsigned] (by decide) (writes_keyword t h)
  · exact baseWords_primitive [.uint32] (by decide) (writes_keyword t h)
  · exact baseWords_primitive [.hyper] (by decide) (writes_keyword t h)
  · exact baseWords_primitive [.int64] (by decide) (writes_keyword t h)
  · exact baseWords_primitive [.unsigned, .hyper] (by decide) (((writes_keyword t).seq (writes_keyword u)) h)
  · exact baseWords_primitive [.uint64] (by decide) (writes_keyword t h)
  · exact baseWords_primitive [.float] (by decide) (writes_keyword t h)
  · exact baseWords_primitive [.double] (by decide) (writes_keyword t h)
  · exact baseWords_primitive [.bool] (by decide) (writes_keyword t h)
  · exact baseWords_named (writes_name t h)

theorem writes_lengthSuffix {d : Concrete.Grammar.lengthSuffix.Tree} {v : Value}
    (h : valueOf (Concrete.Grammar.valueOf d.2.1) = .ok v) : Writes d (lengthWords v) :=
  (writes_mark d.1).seq ((writes_value h).seq (writes_mark d.2.2))

theorem writes_boundSuffix {d : Concrete.Grammar.boundSuffix.Tree} {v : Option Value}
    (h : boundOf (Concrete.Grammar.boundOf d.2.1) = .ok v) : Writes d (boundWords v) := by
  obtain ⟨less, n | n, greater⟩ := d
  · obtain ⟨u, hu, h⟩ := bind_eq_ok_iff.mp h
    cases h
    exact (writes_mark less).seq ((writes_value hu).seq (writes_mark greater))
  · cases h
    exact (writes_mark less).seq (writes_mark greater)

theorem writes_type (d : Concrete.Grammar.typeSpecifier.Tree) : Writes d (d.yield.map Token.lexeme) := fun _ => rfl

theorem payloadWords_field {f : Field Ty} {v w : List Lexeme} (h : DeclarationWords f.name f.type w) (hw : v = w) :
    PayloadWords (.field f) v := by
  subst hw
  exact .field h

theorem payloadWords_void {span : Span} {w : List Lexeme} (hw : w = [keyword .void]) : PayloadWords (.void span) w := by
  subst hw
  exact .void

/-- The words of a declaration are those of what is made of it. -/
theorem payloadWords_of {d : Concrete.Grammar.declaration.Tree} {p : Payload}
    (h : payloadOf (Concrete.Grammar.declarationOf d) = .ok p) (hd : Clean d.yield) :
    PayloadWords p (d.yield.map Token.lexeme) := by
  rcases d with ⟨b, name⟩ | ⟨b, name, s⟩ | ⟨b, name, s⟩ | ⟨t, name, s⟩ | ⟨t, name, s⟩ | ⟨t, name, s⟩ |
    ⟨b, star, name⟩ | t
  · obtain ⟨ty, hty, h⟩ := bind_eq_ok_iff.mp h
    cases hty
    cases h
    exact payloadWords_field (.plain (baseWords_of b (List.forall_mem_append.mp hd).1))
      ((writes_type b).seq (writes_name name) hd)
  · obtain ⟨ty, hty, h⟩ := bind_eq_ok_iff.mp h
    obtain ⟨n, hn, hty⟩ := bind_eq_ok_iff.mp hty
    cases hty
    cases h
    exact payloadWords_field (.array (baseWords_of b (List.forall_mem_append.mp hd).1))
      ((writes_type b).seq ((writes_name name).seq (writes_lengthSuffix hn)) hd)
  · obtain ⟨ty, hty, h⟩ := bind_eq_ok_iff.mp h
    obtain ⟨n, hn, hty⟩ := bind_eq_ok_iff.mp hty
    cases hty
    cases h
    exact payloadWords_field (.vector (baseWords_of b (List.forall_mem_append.mp hd).1))
      ((writes_type b).seq ((writes_name name).seq (writes_boundSuffix hn)) hd)
  · obtain ⟨ty, hty, h⟩ := bind_eq_ok_iff.mp h
    obtain ⟨n, hn, hty⟩ := bind_eq_ok_iff.mp hty
    cases hty
    cases h
    exact payloadWords_field .fixedBytes ((writes_keyword t).seq ((writes_name name).seq (writes_lengthSuffix hn)) hd)
  · obtain ⟨ty, hty, h⟩ := bind_eq_ok_iff.mp h
    obtain ⟨n, hn, hty⟩ := bind_eq_ok_iff.mp hty
    cases hty
    cases h
    exact payloadWords_field .bytes ((writes_keyword t).seq ((writes_name name).seq (writes_boundSuffix hn)) hd)
  · obtain ⟨ty, hty, h⟩ := bind_eq_ok_iff.mp h
    obtain ⟨n, hn, hty⟩ := bind_eq_ok_iff.mp hty
    cases hty
    cases h
    exact payloadWords_field .string ((writes_keyword t).seq ((writes_name name).seq (writes_boundSuffix hn)) hd)
  · obtain ⟨ty, hty, h⟩ := bind_eq_ok_iff.mp h
    cases hty
    cases h
    exact payloadWords_field (.optional (baseWords_of b (List.forall_mem_append.mp hd).1))
      ((writes_type b).seq ((writes_mark star).seq (writes_name name)) hd)
  · cases h
    exact payloadWords_void (writes_keyword t hd)

/-! ### Lists -/

section Lists

variable {p : Concrete.Pattern} (ds : List p.Tree)

theorem words_many : (Tree.yield (p := p.many) ds).map Token.lexeme =
    (ds.map fun d => d.yield.map Token.lexeme).flatten :=
  List.map_flatMap

theorem clean_many : Clean (Tree.yield (p := p.many) ds) ↔ ∀ d ∈ ds, Clean d.yield :=
  List.forall_mem_flatMap

end Lists

theorem forall₂_of_fieldsOf {owner : String} {ds : List Concrete.Declaration} {seen : List String}
    {fields : List (Field Ty)} (h : fieldsOf owner seen ds = .ok fields) :
    List.Forall₂ (fun d f => payloadOf d = .ok (.field f)) ds fields := by
  induction ds generalizing seen fields with
  | nil =>
    cases h
    exact .nil
  | cons d rest ih =>
    obtain ⟨p, hp, h⟩ := bind_eq_ok_iff.mp h
    cases p with
    | void span => cases h
    | field f =>
      dsimp only at h
      split at h
      · cases h
      · obtain ⟨others, hothers, h⟩ := bind_eq_ok_iff.mp h
        cases h
        exact .cons hp (ih hothers)

theorem declarationWords_of {f : Field Ty} {w : List Lexeme} (h : PayloadWords (.field f) w) :
    DeclarationWords f.name f.type w := by
  cases h with
  | field h => exact h

theorem fieldWords_of {e : Concrete.Grammar.field.Tree} {f : Field Ty}
    (h : payloadOf (Concrete.Grammar.declarationOf e.1) = .ok (.field f)) (he : Clean e.yield) :
    FieldWords f (e.yield.map Token.lexeme) := by
  obtain ⟨d, semicolon⟩ := e
  obtain ⟨hd, hsemicolon⟩ := List.forall_mem_append.mp he
  have hwords : Writes (p := Concrete.Grammar.field) (d, semicolon) (d.yield.map Token.lexeme ++ [mark .semicolon]) :=
    Writes.seq (fun _ => rfl) (writes_mark semicolon)
  rw [hwords he]
  exact .mk (declarationWords_of (payloadWords_of h hd))

/-- Items that are built one by one, with their words. -/
theorem forall₂_words {α β : Type} {p : Concrete.Pattern} {g : p.Tree → α} {R : α → β → Prop}
    {W : β → List Lexeme → Prop} {ds : List p.Tree} {bs : List β} (h : List.Forall₂ R (ds.map g) bs)
    (hclean : Clean (Tree.yield (p := p.many) ds))
    (hW : ∀ d b, R (g d) b → Clean d.yield → W b (d.yield.map Token.lexeme)) :
    List.Forall₂ W bs (ds.map fun d => d.yield.map Token.lexeme) := by
  rw [List.forall₂_map_left_iff] at h
  rw [List.forall₂_map_right_iff]
  refine (((List.forall₂_and_left _ _).mpr ⟨(clean_many ds).mp hclean, h⟩).imp ?_).flip
  intro d b hd
  exact hW d b hd.2 hd.1

/-- The same where the words of an item are fixed. -/
theorem words_eq_flatMap {α β : Type} {p : Concrete.Pattern} {g : p.Tree → α} {R : α → β → Prop}
    {f : β → List Lexeme} {ds : List p.Tree} {bs : List β} (h : List.Forall₂ R (ds.map g) bs)
    (hclean : Clean (Tree.yield (p := p.many) ds)) (hf : ∀ d b, R (g d) b → Writes d (f b)) :
    (Tree.yield (p := p.many) ds).map Token.lexeme = bs.flatMap f := by
  have hall := forall₂_words (W := fun b w => w = f b) h hclean hf
  rw [words_many]
  generalize ds.map (fun d => d.yield.map Token.lexeme) = ws at hall
  clear h hclean hf
  induction hall with
  | nil => rfl
  | cons hw _ ih => rw [List.flatten_cons, List.flatMap_cons, hw, ih]

theorem structWords_of {d : Concrete.Grammar.structBody.Tree} {owner : String} {fields : List (Field Ty)}
    (h : fieldsOf owner [] (Concrete.Grammar.fieldsOf d) = .ok fields) (hd : Clean d.yield) :
    ∃ ws, List.Forall₂ FieldWords fields ws ∧
      d.yield.map Token.lexeme = mark .openBrace :: (ws.flatten ++ [mark .closeBrace]) := by
  obtain ⟨openBrace, ⟨first, others⟩, closeBrace⟩ := d
  have hfields : List.Forall₂ (fun d f => payloadOf d = .ok (.field f))
      ((first :: others).map fun e => Concrete.Grammar.declarationOf e.1) fields := forall₂_of_fieldsOf h
  have hclean : Clean (Tree.yield (p := Concrete.Grammar.field.many) (first :: others)) :=
    (List.forall_mem_append.mp (List.forall_mem_append.mp hd).2).1
  refine ⟨_, forall₂_words hfields hclean fun _ _ => fieldWords_of, ?_⟩
  have hwords : Writes (p := Concrete.Grammar.structBody) (openBrace, (first, others), closeBrace)
      ([mark .openBrace] ++ ((Tree.yield (p := Concrete.Grammar.field.many) (first :: others)).map Token.lexeme ++
        [mark .closeBrace])) :=
    (writes_mark openBrace).seq (Writes.seq (fun _ => rfl) (writes_mark closeBrace))
  rw [← words_many]
  exact hwords hd

theorem writes_member {d : Concrete.Grammar.enumMember.Tree} {m : Member}
    (h : memberOf (Concrete.Grammar.memberOf d) = .ok m) : Writes d (memberWords m) := by
  obtain ⟨v, hv, h⟩ := bind_eq_ok_iff.mp h
  cases h
  exact (writes_name d.1).seq ((writes_mark d.2.1).seq (writes_value hv))

theorem writes_enumBody {d : Concrete.Grammar.enumBody.Tree} {ms : List Member}
    (h : (Concrete.Grammar.membersOf d).mapM memberOf = .ok ms) :
    Writes d (mark .openBrace :: (membersWords ms ++ [mark .closeBrace])) := by
  obtain ⟨openBrace, first, others, closeBrace⟩ := d
  intro hd
  obtain ⟨m, ms, hm, hms, rfl⟩ := List.forall₂_cons_left_iff.mp (mapM_eq_ok_iff.mp h)
  have hclean := (List.forall_mem_append.mp (List.forall_mem_append.mp (List.forall_mem_append.mp hd).2).2).1
  have hothers := words_eq_flatMap (f := fun m => mark .comma :: memberWords m) hms hclean fun e m he =>
    (writes_mark e.1).seq (writes_member he)
  have hwords := (writes_mark openBrace).seq ((writes_member hm).seq
    (Writes.seq (fun _ => hothers) (writes_mark closeBrace)))
  exact hwords hd

/-! ### Unions -/

theorem labelWords_of {d : Concrete.Grammar.caseLabel.some.Tree} {vs : List Value}
    (h : (Concrete.Grammar.labelOf d.1 :: List.map Concrete.Grammar.labelOf d.2).mapM valueOf = .ok vs) :
    Writes d (vs.flatMap labelWords) := by
  obtain ⟨first, others⟩ := d
  have hvalues : List.Forall₂ (fun c v => valueOf c = .ok v) ((first :: others).map Concrete.Grammar.labelOf) vs :=
    mapM_eq_ok_iff.mp h
  exact fun hd => words_eq_flatMap hvalues hd fun e v he =>
    (writes_keyword e.1).seq ((writes_value he).seq (writes_mark e.2.2))

theorem words_cons {p : Concrete.Pattern} {d : p.Tree} {w : List Lexeme} (hw : Writes d w) (hd : Clean d.yield)
    (ds : List p.Tree) : (Tree.yield (p := p.many) (d :: ds)).map Token.lexeme =
      w ++ (Tree.yield (p := p.many) ds).map Token.lexeme := by
  rw [← hw hd, ← List.map_append]
  rfl

theorem armsWords_case {a : Arm} {arms : List Arm} {default : Option Payload} {u v w : List Lexeme}
    (h : PayloadWords a.payload v) (hrest : ArmsWords arms default w)
    (hu : u = a.labels.flatMap labelWords ++ (v ++ [mark .semicolon]) ++ w) : ArmsWords (a :: arms) default u := by
  subst hu
  exact .case h hrest

theorem armsWords_default {p : Payload} {arms : List Arm} {u v w : List Lexeme} (h : PayloadWords p v)
    (hrest : ArmsWords arms none w) (hu : u = keyword .default :: mark .colon :: (v ++ [mark .semicolon]) ++ w) :
    ArmsWords arms (some p) u := by
  subst hu
  exact .default h hrest

/-- The arms that are built, with the default arm among them or before them. -/
theorem armsWords_of {owner : String} {ds : List Concrete.Grammar.arm.Tree} {before : Option Payload}
    {seen : List String} {result : List Arm × Option Payload}
    (h : armsOf owner before seen (ds.map Concrete.Grammar.armOf) = .ok result)
    (hclean : Clean (Tree.yield (p := Concrete.Grammar.arm.many) ds)) :
    ∃ default, ArmsWords result.1 default ((Tree.yield (p := Concrete.Grammar.arm.many) ds).map Token.lexeme) ∧
      result.2 = default.or before ∧ (before.isSome → default = none) := by
  induction ds generalizing before seen result with
  | nil =>
    cases h
    exact ⟨none, .nil, rfl, fun _ => rfl⟩
  | cons e ds ih =>
    obtain ⟨he, hds⟩ := List.forall_mem_append.mp hclean
    rcases e with ⟨labels, d, semicolon⟩ | ⟨first, colon, d, semicolon⟩
    · obtain ⟨vs, hvs, h⟩ := bind_eq_ok_iff.mp h
      obtain ⟨payload, hpayload, h⟩ := bind_eq_ok_iff.mp h
      obtain ⟨seen', -, h⟩ := bind_eq_ok_iff.mp h
      obtain ⟨rest, hrest, h⟩ := bind_eq_ok_iff.mp h
      cases h
      obtain ⟨default, hwords, hdefault, hbefore⟩ := ih hrest hds
      have hd : Clean d.yield := (List.forall_mem_append.mp (List.forall_mem_append.mp he).2).1
      have hcase : Writes (p := Concrete.Grammar.caseArm) (labels, d, semicolon)
          (vs.flatMap labelWords ++ (d.yield.map Token.lexeme ++ [mark .semicolon])) :=
        (labelWords_of hvs).seq (Writes.seq (fun _ => rfl) (writes_mark semicolon))
      have harm : Writes (p := Concrete.Grammar.arm) (.inl (labels, d, semicolon)) _ := hcase
      exact ⟨default, armsWords_case (payloadWords_of hpayload hd) hwords (words_cons harm he ds), hdefault, hbefore⟩
    · change (if before.isSome then _ else _) = _ at h
      split at h
      · cases h
      · next hnone =>
        obtain ⟨payload, hpayload, h⟩ := bind_eq_ok_iff.mp h
        obtain ⟨seen', -, h⟩ := bind_eq_ok_iff.mp h
        obtain ⟨default, hwords, hdefault, hbefore⟩ := ih h hds
        obtain rfl := hbefore rfl
        have hd : Clean d.yield := (List.forall_mem_append.mp (List.forall_mem_append.mp
          (List.forall_mem_append.mp he).2).2).1
        have hcase : Writes (p := Concrete.Grammar.defaultArm) (first, colon, d, semicolon)
            ([keyword .default] ++ ([mark .colon] ++ (d.yield.map Token.lexeme ++ [mark .semicolon]))) :=
          (writes_keyword first).seq ((writes_mark colon).seq (Writes.seq (fun _ => rfl) (writes_mark semicolon)))
        have harm : Writes (p := Concrete.Grammar.arm) (.inr (first, colon, d, semicolon)) _ := hcase
        refine ⟨some payload, armsWords_default (payloadWords_of hpayload hd) hwords (words_cons harm he ds), ?_,
          fun hsome => (hnone hsome).elim⟩
        rw [hdefault]
        rfl

theorem discriminantWords_of {d : Concrete.Grammar.declaration.Tree} {owner : String} {f : Field (Base String)}
    (h : discriminantOf owner (Concrete.Grammar.declarationOf d) = .ok f) (hd : Clean d.yield) :
    ∃ v, BaseWords f.type v ∧ d.yield.map Token.lexeme = v ++ [word f.name] := by
  rcases d with ⟨b, name⟩ | d | d | d | d | d | d | d
  · cases h
    exact ⟨_, baseWords_of b (List.forall_mem_append.mp hd).1, Writes.seq (writes_type b) (writes_name name) hd⟩
  all_goals cases h

theorem unionWords_of {d : Concrete.Grammar.unionBody.Tree} {name : Token} {x : Definition} {span : Span}
    (h : definitionOf ⟨Concrete.Grammar.unionOf name d, span⟩ = .ok x) (hd : Clean d.yield) :
    ∃ u v w, x = ⟨name.text, .union u, span, name.span⟩ ∧ BaseWords u.discriminant.type v ∧
      ArmsWords u.arms u.default w ∧ d.yield.map Token.lexeme =
        keyword .switch :: mark .openParen :: ((v ++ [word u.discriminant.name]) ++ mark .closeParen ::
          mark .openBrace :: (w ++ [mark .closeBrace])) := by
  obtain ⟨first, openParen, switch, closeParen, openBrace, ⟨arm, arms⟩, closeBrace⟩ := d
  obtain ⟨u, hu, h⟩ := bind_eq_ok_iff.mp h
  cases h
  obtain ⟨f, hf, hu⟩ := bind_eq_ok_iff.mp hu
  obtain ⟨⟨as, default⟩, has, hu⟩ := bind_eq_ok_iff.mp hu
  dsimp only at hu
  split at hu
  · cases hu
  cases hu
  have htail := (List.forall_mem_append.mp (List.forall_mem_append.mp hd).2).2
  obtain ⟨hswitch, htail⟩ := List.forall_mem_append.mp htail
  have harms : Clean (Tree.yield (p := Concrete.Grammar.arm.many) (arm :: arms)) :=
    (List.forall_mem_append.mp (List.forall_mem_append.mp (List.forall_mem_append.mp htail).2).2).1
  obtain ⟨v, hv, hswitchWords⟩ := discriminantWords_of hf hswitch
  have has : armsOf name.text none [] ((arm :: arms).map Concrete.Grammar.armOf) = .ok (as, default) := has
  obtain ⟨default', hw, hdefault, -⟩ := armsWords_of has harms
  obtain rfl : default = default' := by rw [show default = _ from hdefault, Option.or_none]
  refine ⟨⟨f, as, default⟩, v, _, rfl, hv, hw, ?_⟩
  have hwords := (writes_keyword first).seq ((writes_mark openParen).seq (Writes.seq (fun _ => hswitchWords)
    ((writes_mark closeParen).seq ((writes_mark openBrace).seq (Writes.seq
      (p := Concrete.Grammar.arm.some) (d := (arm, arms)) (fun _ => rfl) (writes_mark closeBrace))))))
  exact hwords hd

/-! ### Definitions -/

theorem definitionWords_eq {d : Definition} {v w : List Lexeme} (h : BodyWords d.name d.body w)
    (hv : v = w ++ [mark .semicolon]) : DefinitionWords d v := by
  subst hv
  exact .mk h

theorem definitionWords_of {e : Concrete.Grammar.definition.Tree} {x : Definition}
    (h : definitionOf (Concrete.Grammar.definitionOf e) = .ok x) (he : Clean e.yield) :
    DefinitionWords x (e.yield.map Token.lexeme) := by
  rcases e with ⟨first, name, equals, v, last⟩ | ⟨first, d, last⟩ | ⟨first, name, body, last⟩ |
    ⟨first, name, body, last⟩ | ⟨first, name, body, last⟩
  · obtain ⟨n, hn, h⟩ := bind_eq_ok_iff.mp h
    cases h
    exact definitionWords_eq .const ((writes_keyword first).seq ((writes_name name).seq ((writes_mark equals).seq
      ((writes_value hn).seq (writes_mark last)))) he)
  · obtain ⟨p, hp, h⟩ := bind_eq_ok_iff.mp h
    cases p with
    | void => cases h
    | field f =>
      cases h
      have hd := (List.forall_mem_append.mp (List.forall_mem_append.mp he).2).1
      have hf := declarationWords_of (payloadWords_of hp hd)
      exact definitionWords_eq (.typedef hf)
        ((writes_keyword first).seq (Writes.seq (fun _ => rfl) (writes_mark last)) he)
  · obtain ⟨ms, hms, h⟩ := bind_eq_ok_iff.mp h
    cases h
    exact definitionWords_eq .enum ((writes_keyword first).seq ((writes_name name).seq ((writes_enumBody hms).seq
      (writes_mark last))) he)
  · obtain ⟨fields, hfields, h⟩ := bind_eq_ok_iff.mp h
    cases h
    have hbody := (List.forall_mem_append.mp (List.forall_mem_append.mp (List.forall_mem_append.mp he).2).2).1
    obtain ⟨ws, hws, hwords⟩ := structWords_of hfields hbody
    exact definitionWords_eq (.struct hws) ((writes_keyword first).seq ((writes_name name).seq
      (Writes.seq (fun _ => hwords) (writes_mark last))) he)
  · have hbody := (List.forall_mem_append.mp (List.forall_mem_append.mp (List.forall_mem_append.mp he).2).2).1
    obtain ⟨u, v, w, rfl, hv, hw, hwords⟩ := unionWords_of h hbody
    exact definitionWords_eq (.union hv hw) ((writes_keyword first).seq ((writes_name name).seq
      (Writes.seq (fun _ => hwords) (writes_mark last))) he)

theorem words_of_ofTree {e : Concrete.Grammar.specification.Tree} {spec : Spec}
    (h : ofTree (Concrete.Grammar.meaning e) = .ok spec) (he : Clean e.yield) :
    spec.Words (e.yield.map Token.lexeme) := by
  obtain ⟨ds, hds, h⟩ := bind_eq_ok_iff.mp h
  cases h
  exact ⟨_, forall₂_words (mapM_eq_ok_iff.mp hds) he fun _ _ => definitionWords_of, words_many e⟩

/-- A text from which a specification is read is one that it can be printed as, in words that are tokens. -/
theorem exists_words_of_parse {text : String} {spec : Spec} (h : parse text = .ok spec) :
    ∃ w, spec.Words w ∧ Printed w text.toList ∧ ∀ l ∈ w, IsToken l := by
  obtain ⟨tree, htree, h⟩ := bind_eq_ok_iff.mp h
  obtain ⟨d, hd, rfl⟩ := Concrete.parse_eq_ok_iff.mp htree
  exact ⟨_, words_of_ofTree h hd.spelled, Concrete.Splits.printed hd, List.forall_mem_map.mpr hd.spelled⟩

/-! ### Names -/

theorem Value.lexeme_of_name? {v : Value} {n : String} (h : v.name? = some n) : v.lexeme = word n := by
  cases v with
  | literal value text span => cases h
  | constant name span =>
    cases h
    rfl

theorem BaseWords.word_mem {b : Base String} {w : List Lexeme} (h : BaseWords b w) {n : String} (hn : b = .named n) :
    word n ∈ w := by
  cases h with
  | primitive h => cases hn
  | named =>
    cases hn
    exact List.mem_singleton.mpr rfl

theorem DeclarationWords.word_mem {name : String} {t : Ty} {w : List Lexeme} (h : DeclarationWords name t w) :
    word name ∈ w := by
  cases h <;> simp

theorem mem_boundWords {v : Option Value} {x : Value} (hx : x ∈ v) : x.lexeme ∈ boundWords v := by
  cases hx
  simp [boundWords]

theorem DeclarationWords.mention_mem {name : String} {t : Ty} {w : List Lexeme} (h : DeclarationWords name t w)
    {n : String} (hn : n ∈ Ty.mentions t) : word n ∈ w := by
  have hbound {x : Value} {u : List Lexeme} (hu : x.lexeme ∈ u) (hx : x.name? = some n) : word n ∈ u := by
    rwa [← Value.lexeme_of_name? hx]
  rw [Ty.mentions, List.mem_append, Option.mem_toList, Option.mem_toList, Option.bind_eq_some_iff] at hn
  cases h with
  | plain hb | optional hb =>
    rcases hn with hn | ⟨x, hx, -⟩
    · exact List.mem_append_left _ (hb.word_mem (by simpa using hn))
    · cases hx
  | array hb =>
    rcases hn with hn | ⟨x, hx, hname⟩
    · exact List.mem_append_left _ (hb.word_mem (by simpa using hn))
    · cases hx
      refine List.mem_append_right _ (List.mem_cons_of_mem _ (hbound ?_ hname))
      simp [lengthWords]
  | vector hb =>
    rcases hn with hn | ⟨x, hx, hname⟩
    · exact List.mem_append_left _ (hb.word_mem (by simpa using hn))
    · exact List.mem_append_right _ (List.mem_cons_of_mem _ (hbound (mem_boundWords hx) hname))
  | fixedBytes =>
    rcases hn with hn | ⟨x, hx, hname⟩
    · cases hn
    · cases hx
      refine List.mem_cons_of_mem _ (List.mem_cons_of_mem _ (hbound ?_ hname))
      simp [lengthWords]
  | bytes | string =>
    rcases hn with hn | ⟨x, hx, hname⟩
    · cases hn
    · exact List.mem_cons_of_mem _ (List.mem_cons_of_mem _ (hbound (mem_boundWords hx) hname))

section Arms

variable {arms : List Arm} {default : Option Payload} {w : List Lexeme} (h : ArmsWords arms default w)

include h

/-- The words of a union are those of what its arms carry, and of their labels. -/
theorem ArmsWords.exists_payloadWords {p : Payload} (hp : p ∈ arms.map (·.payload) ++ default.toList) :
    ∃ v, PayloadWords p v ∧ v ⊆ w := by
  induction h with
  | nil => cases hp
  | @case a arms default v w h hrest ih =>
    rw [List.map_cons, List.cons_append, List.mem_cons] at hp
    rcases hp with rfl | hp
    · refine ⟨v, h, fun l hl => ?_⟩
      simp [hl]
    · obtain ⟨v, hv, hsub⟩ := ih hp
      exact ⟨v, hv, fun l hl => List.mem_append_right _ (hsub hl)⟩
  | @default q arms v w h hrest ih =>
    rw [List.mem_append] at hp
    rcases hp with hp | hp
    · obtain ⟨v, hv, hsub⟩ := ih (List.mem_append_left _ hp)
      exact ⟨v, hv, fun l hl => List.mem_append_right _ (hsub hl)⟩
    · obtain rfl : p = q := by simpa using hp
      refine ⟨v, h, fun l hl => ?_⟩
      simp [hl]

theorem ArmsWords.label_mem {a : Arm} (ha : a ∈ arms) {x : Value} (hx : x ∈ a.labels) : x.lexeme ∈ w := by
  induction h with
  | nil => cases ha
  | case _ _ ih =>
    rcases List.mem_cons.mp ha with rfl | ha
    · refine List.mem_append_left _ (List.mem_append_left _ (List.mem_flatMap.mpr ⟨x, hx, ?_⟩))
      simp [labelWords]
    · exact List.mem_append_right _ (ih ha)
  | default _ _ ih => exact List.mem_append_right _ (ih ha)

end Arms

theorem mem_membersWords {ms : List Member} {m : Member} (hm : m ∈ ms) : memberWords m ⊆ membersWords ms := by
  intro l hl
  cases ms with
  | nil => cases hm
  | cons first rest =>
    rcases List.mem_cons.mp hm with rfl | hm
    · exact List.mem_append_left _ hl
    · exact List.mem_append_right _ (List.mem_flatMap.mpr ⟨m, hm, List.mem_cons_of_mem _ hl⟩)

theorem exists_of_forall₂ {α : Type} {R : α → List Lexeme → Prop} {as : List α} {ws : List (List Lexeme)}
    (h : List.Forall₂ R as ws) {a : α} (ha : a ∈ as) : ∃ w, R a w ∧ w ⊆ ws.flatten := by
  induction h with
  | nil => cases ha
  | cons hfirst _ ih =>
    rcases List.mem_cons.mp ha with rfl | ha
    · exact ⟨_, hfirst, fun l hl => List.mem_append_left _ hl⟩
    · obtain ⟨w, hw, hsub⟩ := ih ha
      exact ⟨w, hw, fun l hl => List.mem_append_right _ (hsub hl)⟩

/-- What a body mentions is among its words. -/
theorem BodyWords.mention_mem {name : String} {b : Body} {w : List Lexeme} (h : BodyWords name b w) {n : String}
    (hn : n ∈ b.mentions) : word n ∈ w := by
  have hvalue {x : Value} (hx : x.name? = some n) {u : List Lexeme} (hu : x.lexeme ∈ u) : word n ∈ u := by
    rwa [← Value.lexeme_of_name? hx]
  rw [Body.mentions, List.mem_append, List.mem_flatMap, List.mem_filterMap] at hn
  cases h with
  | const =>
    rcases hn with ⟨t, ht, -⟩ | ⟨x, hx, hname⟩
    · cases ht
    · obtain rfl := List.mem_singleton.mp hx
      exact hvalue hname (by simp)
  | typedef h =>
    rcases hn with ⟨t, ht, hn⟩ | ⟨x, hx, -⟩
    · obtain rfl := List.mem_singleton.mp ht
      exact List.mem_cons_of_mem _ (h.mention_mem hn)
    · cases hx
  | enum =>
    rcases hn with ⟨t, ht, -⟩ | ⟨x, hx, hname⟩
    · cases ht
    · obtain ⟨m, hm, rfl⟩ := List.mem_map.mp hx
      have hmember : m.value.lexeme ∈ memberWords m := by simp [memberWords]
      have hword := hvalue hname (mem_membersWords hm hmember)
      simp [hword]
  | struct h =>
    rcases hn with ⟨t, ht, hn⟩ | ⟨x, hx, -⟩
    · obtain ⟨f, hf, rfl⟩ := List.mem_map.mp ht
      obtain ⟨_, ⟨hw⟩, hsub⟩ := exists_of_forall₂ h hf
      have hword := hsub (List.mem_append_left _ (hw.mention_mem hn))
      simp [hword]
    · cases hx
  | union hv hw =>
    rcases hn with ⟨t, ht, hn⟩ | ⟨x, hx, hname⟩
    · rcases List.mem_cons.mp ht with rfl | ht
      · have hword := hv.word_mem (n := n) (by simpa [Ty.mentions, TypeExpr.bound?] using hn)
        simp [hword]
      · obtain ⟨p, hp, hf⟩ := List.mem_filterMap.mp ht
        obtain ⟨u, hu, hsub⟩ := hw.exists_payloadWords hp
        cases hu with
        | void => cases hf
        | field hu =>
          cases hf
          have hword := hsub (hu.mention_mem hn)
          simp [hword]
    · obtain ⟨a, ha, hx⟩ := List.mem_flatMap.mp hx
      have hword := hvalue hname (hw.label_mem ha hx)
      simp [hword]

/-- The names in a body are among its words. -/
theorem BodyWords.word_mem {name : String} {b : Body} {w : List Lexeme} (h : BodyWords name b w) {n : String}
    (hn : n ∈ name :: b.members.map (·.name) ++ b.fieldNames ++ b.mentions) : word n ∈ w := by
  simp only [List.mem_append, List.mem_cons, List.mem_map] at hn
  rcases hn with ((rfl | ⟨m, hm, rfl⟩) | hn) | hn
  · cases h with
    | typedef h => exact List.mem_cons_of_mem _ h.word_mem
    | _ => exact List.mem_cons_of_mem _ List.mem_cons_self
  · cases h with
    | enum =>
      have hmember := mem_membersWords hm (List.mem_cons_self (a := word m.name))
      exact List.mem_cons_of_mem _ (List.mem_cons_of_mem _ (List.mem_cons_of_mem _ (List.mem_append_left _ hmember)))
    | _ => cases hm
  · cases h with
    | @struct fields ws h =>
      obtain ⟨f, hf, rfl⟩ := List.mem_map.mp hn
      obtain ⟨_, ⟨hw⟩, hsub⟩ := exists_of_forall₂ h hf
      have hword := hsub (List.mem_append_left _ hw.word_mem)
      simp [hword]
    | @union u v w hv hw =>
      rcases List.mem_cons.mp hn with rfl | hn
      · simp
      · obtain ⟨p, hp, hname⟩ := List.mem_filterMap.mp hn
        obtain ⟨x, hx, hsub⟩ := hw.exists_payloadWords hp
        cases hx with
        | void => cases hname
        | field hx =>
          cases hname
          have hword := hsub hx.word_mem
          simp [hword]
    | _ => cases hn
  · exact h.mention_mem hn

/-- The names in a definition that is read from a text are names. -/
theorem isName_of_mem_names {text : String} {spec : Spec} (h : parse text = .ok spec) {d : Definition}
    (hd : d ∈ spec.definitions) {n : String} (hn : n ∈ d.names) : IsName n := by
  obtain ⟨_, ⟨ws, hws, rfl⟩, -, htokens⟩ := exists_words_of_parse h
  obtain ⟨_, ⟨hw⟩, hsub⟩ := exists_of_forall₂ hws hd
  exact htokens (word n) (hsub (List.mem_append_left _ (hw.word_mem hn)))

/-- The names of the definitions that are read from a text are names. -/
theorem isName_of_parse {text : String} {spec : Spec} (h : parse text = .ok spec) {d : Definition}
    (hd : d ∈ spec.definitions) : IsName d.name :=
  isName_of_mem_names h hd (List.mem_append_left _ (List.mem_append_left _ List.mem_cons_self))

end XdrSchema.Spec
