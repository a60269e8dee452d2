import XdrSchema.Proofs.Spec.Node
import XdrSchema.Proofs.Spec.Source

/-! The places in a specification that is read from a text. Main statement: `located_of_parse`, they are those of the
tokens that its parts are written with. -/
namespace XdrSchema.Spec

open Concrete (Lexeme Ordered Splits Token)
open Concrete.Pattern (Tree)

/-! ### Rows -/

section Rows

variable {n : Node} {ns ms : List Node} {ts us : List Token}

theorem Row.before (h : Row ns ts) (us : List Token) : Row ns (us ++ ts) := by
  cases h with
  | nil => exact .nil
  | cons before h hrow =>
    rw [← List.append_assoc]
    exact .cons (us ++ before) h hrow

theorem Row.append (h : Row ns ts) (hms : Row ms us) : Row (ns ++ ms) (ts ++ us) := by
  induction ns generalizing ts with
  | nil => exact hms.before ts
  | cons n ns ih =>
    cases h with
    | cons before h hrow =>
      rw [List.append_assoc, List.append_assoc]
      exact .cons before h (ih hrow)

theorem Row.after (h : Row ns ts) (us : List Token) : Row ns (ts ++ us) := by
  have hnil : Row [] us := .nil
  have happend := h.append hnil
  rwa [List.append_nil] at happend

theorem Lies.row (h : Lies n ts) : Row [n] ts := by
  have hnil : Row [] [] := .nil
  have hrow := Row.cons [] h hnil
  rwa [List.append_nil] at hrow

/-- Items that are built one by one, with the parts that they have. -/
theorem row_many {α β : Type} {p : Concrete.Pattern} {g : p.Tree → α} {R : α → β → Prop} {f : β → Node}
    {ds : List p.Tree} {bs : List β} (h : List.Forall₂ R (ds.map g) bs) (hclean : Clean (Tree.yield (p := p.many) ds))
    (hR : ∀ d b, R (g d) b → Clean d.yield → Row [f b] d.yield) : Row (bs.map f) (Tree.yield (p := p.many) ds) := by
  rw [List.forall₂_map_left_iff] at h
  induction h with
  | nil => exact .nil
  | cons hb _ ih =>
    obtain ⟨hd, hds⟩ := List.forall_mem_append.mp hclean
    exact (hR _ _ hb hd).append (ih hds)

end Rows

/-! ### Places from the first token to the last -/

section Ends

variable {t first last : Token} {ts us : List Token}

theorem head?_append (h : ts.head? = some t) (us : List Token) : (ts ++ us).head? = some t := by
  rw [List.head?_append, h, Option.some_or]

theorem getLast?_append {α : Type} {us : List α} {t : α} (h : us.getLast? = some t) (ts : List α) :
    (ts ++ us).getLast? = some t := by
  rw [List.getLast?_append, h, Option.some_or]

theorem spans_of (hfirst : ts.head? = some first) (hlast : us.getLast? = some last) :
    Spans (first.span.cover last.span) (ts ++ us) :=
  ⟨first, head?_append hfirst us, last, getLast?_append hlast ts, rfl⟩

theorem spans_self (t : Token) : Spans t.span [t] := ⟨t, rfl, t, rfl, rfl⟩

theorem head?_typeSpecifier (d : Concrete.Grammar.typeSpecifier.Tree) :
    d.yield.head? = some (Concrete.Grammar.typeToken d) := by
  rcases d with (t | t) | (⟨t, u | u⟩ | t) | (t | t) | (⟨t, u⟩ | t) | t | t | t | t <;> rfl

end Ends

/-! ### Values and declarations -/

theorem lies_value {d : Concrete.Grammar.value.Tree} {v : Value} (h : valueOf (Concrete.Grammar.valueOf d) = .ok v)
    (hd : Clean d.yield) : Lies (.value v) d.yield := by
  have hwords : Node.Words (.value v) (d.yield.map Token.lexeme) := by
    rw [writes_value h hd]
    exact .value
  have hplace : ∃ t, d.yield = [t] ∧ t.text = v.text ∧ t.span = v.span := by
    cases d with
    | inl t =>
      obtain ⟨n, -, rfl⟩ := valueOf_number_eq_ok_iff.mp h
      exact ⟨t.val, rfl, rfl, rfl⟩
    | inr t =>
      cases h
      exact ⟨t.val, rfl, rfl, rfl⟩
  obtain ⟨t, hyield, htext, hspan⟩ := hplace
  rw [hyield] at hwords ⊢
  refine .mk hwords ?_ ?_ (.other (by simp)) .nil
  · change Spans v.span [t]
    exact hspan ▸ spans_self t
  · rintro _ ⟨⟩
    exact ⟨t, List.mem_singleton_self t, htext, hspan⟩

theorem row_lengthSuffix {d : Concrete.Grammar.lengthSuffix.Tree} {v : Value}
    (h : valueOf (Concrete.Grammar.valueOf d.2.1) = .ok v) (hd : Clean d.yield) : Row [.value v] d.yield := by
  have hvalue := (List.forall_mem_append.mp (List.forall_mem_append.mp hd).2).1
  exact ((lies_value h hvalue).row.after _).before _

theorem row_boundSuffix {d : Concrete.Grammar.boundSuffix.Tree} {v : Option Value}
    (h : boundOf (Concrete.Grammar.boundOf d.2.1) = .ok v) (hd : Clean d.yield) :
    Row (v.toList.map .value) d.yield := by
  obtain ⟨less, n | n, greater⟩ := d
  · obtain ⟨u, hu, h⟩ := bind_eq_ok_iff.mp h
    cases h
    have hvalue := (List.forall_mem_append.mp (List.forall_mem_append.mp hd).2).1
    exact ((lies_value hu hvalue).row.after _).before _
  · cases h
    exact .nil

theorem lies_field {f : Field Ty} {ts : List Token} (hwords : PayloadWords (.field f) (ts.map Token.lexeme))
    (hspan : Spans f.span ts) (hname : ∃ t ∈ ts, t.text = f.name ∧ t.span = f.nameSpan)
    (hrow : Row (f.type.bound?.toList.map .value) ts) : Lies (.field f) ts := by
  refine .mk (.field (declarationWords_of hwords)) hspan ?_ (.other (by simp)) hrow
  rintro _ ⟨⟩
  exact hname

theorem lies_void {span : Span} {ts : List Token} (hwords : PayloadWords (.void span) (ts.map Token.lexeme))
    (hspan : Spans span ts) : Lies (.void span) ts := by
  have hvoid : Node.Words (.void span) (ts.map Token.lexeme) := by
    generalize ts.map Token.lexeme = w at hwords
    cases hwords
    exact .void
  exact .mk hvoid hspan nofun (.other (by simp)) .nil

/-- The last token of a length or a bound. -/
theorem getLast?_suffix {o c : Concrete.Mark} {q : Concrete.Pattern}
    (s : ((Concrete.Grammar.mark o).seq (q.seq (Concrete.Grammar.mark c))).Tree) :
    s.yield.getLast? = some s.2.2.val :=
  getLast?_append (getLast?_append rfl _) _

/-- A field whose type goes on after its name, with a length or a bound. -/
theorem lies_suffixed {o c : Concrete.Mark} {q : Concrete.Pattern} {f : Field Ty} {ts : List Token} {first name : Token}
    {s : ((Concrete.Grammar.mark o).seq (q.seq (Concrete.Grammar.mark c))).Tree}
    (hwords : PayloadWords (.field f) ((ts ++ name :: s.yield).map Token.lexeme)) (hfirst : ts.head? = some first)
    (hspan : f.span = first.span.cover s.2.2.val.span) (hname : name.text = f.name ∧ name.span = f.nameSpan)
    (hrow : Row (f.type.bound?.toList.map .value) s.yield) : Lies (.field f) (ts ++ name :: s.yield) := by
  have hlast : (name :: s.yield).getLast? = some s.2.2.val := getLast?_append (getLast?_suffix s) [name]
  refine lies_field hwords (hspan ▸ spans_of hfirst hlast) ?_ ((hrow.before [name]).before ts)
  exact ⟨name, List.mem_append_right ts List.mem_cons_self, hname⟩

theorem lies_payload {d : Concrete.Grammar.declaration.Tree} {p : Payload}
    (h : payloadOf (Concrete.Grammar.declarationOf d) = .ok p) (hd : Clean d.yield) :
    Lies (.ofPayload p) d.yield := by
  have hwords := payloadWords_of h hd
  rcases d with ⟨b, name⟩ | ⟨b, name, s⟩ | ⟨b, name, s⟩ | ⟨t, name, s⟩ | ⟨t, name, s⟩ | ⟨t, name, s⟩ |
    ⟨b, star, name⟩ | t
  · obtain ⟨ty, hty, h⟩ := bind_eq_ok_iff.mp h
    cases hty
    cases h
    exact lies_field hwords (spans_of (head?_typeSpecifier b) rfl)
      ⟨name.val, List.mem_append_right _ List.mem_cons_self, rfl, rfl⟩ .nil
  · obtain ⟨ty, hty, h⟩ := bind_eq_ok_iff.mp h
    obtain ⟨n, hn, hty⟩ := bind_eq_ok_iff.mp hty
    cases hty
    cases h
    have hs := (List.forall_mem_append.mp (List.forall_mem_append.mp hd).2).2
    exact lies_suffixed hwords (head?_typeSpecifier b) rfl ⟨rfl, rfl⟩ (row_lengthSuffix hn hs)
  · obtain ⟨ty, hty, h⟩ := bind_eq_ok_iff.mp h
    obtain ⟨n, hn, hty⟩ := bind_eq_ok_iff.mp hty
    cases hty
    cases h
    have hs := (List.forall_mem_append.mp (List.forall_mem_append.mp hd).2).2
    exact lies_suffixed hwords (head?_typeSpecifier b) rfl ⟨rfl, rfl⟩ (row_boundSuffix hn hs)
  · obtain ⟨ty, hty, h⟩ := bind_eq_ok_iff.mp h
    obtain ⟨n, hn, hty⟩ := bind_eq_ok_iff.mp hty
    cases hty
    cases h
    have hs := (List.forall_mem_append.mp (List.forall_mem_append.mp hd).2).2
    exact lies_suffixed hwords rfl rfl ⟨rfl, rfl⟩ (row_lengthSuffix hn hs)
  · obtain ⟨ty, hty, h⟩ := bind_eq_ok_iff.mp h
    obtain ⟨n, hn, hty⟩ := bind_eq_ok_iff.mp hty
    cases hty
    cases h
    have hs := (List.forall_mem_append.mp (List.forall_mem_append.mp hd).2).2
    exact lies_suffixed hwords rfl rfl ⟨rfl, rfl⟩ (row_boundSuffix hn hs)
  · obtain ⟨ty, hty, h⟩ := bind_eq_ok_iff.mp h
    obtain ⟨n, hn, hty⟩ := bind_eq_ok_iff.mp hty
    cases hty
    cases h
    have hs := (List.forall_mem_append.mp (List.forall_mem_append.mp hd).2).2
    exact lies_suffixed hwords rfl rfl ⟨rfl, rfl⟩ (row_boundSuffix hn hs)
  · obtain ⟨ty, hty, h⟩ := bind_eq_ok_iff.mp h
    cases hty
    cases h
    exact lies_field hwords (spans_of (head?_typeSpecifier b) rfl)
      ⟨name.val, List.mem_append_right _ (List.mem_append_right _ List.mem_cons_self), rfl, rfl⟩ .nil
  · cases h
    exact lies_void hwords (spans_self t.val)

theorem lies_discriminant {d : Concrete.Grammar.declaration.Tree} {owner : String} {f : Field (Base String)}
    (h : discriminantOf owner (Concrete.Grammar.declarationOf d) = .ok f) (hd : Clean d.yield) :
    Lies (.discriminant f) d.yield := by
  obtain ⟨w, hw, hwords⟩ := discriminantWords_of h hd
  have hnode : Node.Words (.discriminant f) (d.yield.map Token.lexeme) := hwords ▸ .discriminant hw
  rcases d with ⟨b, name⟩ | d | d | d | d | d | d | d
  · cases h
    refine .mk hnode (spans_of (head?_typeSpecifier b) rfl) ?_ (.other (by simp)) .nil
    rintro _ ⟨⟩
    exact ⟨name.val, List.mem_append_right _ List.mem_cons_self, rfl, rfl⟩
  all_goals cases h

/-! ### Lists of parts -/

theorem row_fields {d : Concrete.Grammar.structBody.Tree} {owner : String} {fields : List (Field Ty)}
    (h : fieldsOf owner [] (Concrete.Grammar.fieldsOf d) = .ok fields) (hd : Clean d.yield) :
    Row (fields.map .field) d.yield := by
  obtain ⟨openBrace, ⟨first, others⟩, closeBrace⟩ := d
  have hfields : List.Forall₂ (fun d f => payloadOf d = .ok (.field f))
      ((first :: others).map fun e => Concrete.Grammar.declarationOf e.1) fields := forall₂_of_fieldsOf h
  have hclean := (List.forall_mem_append.mp (List.forall_mem_append.mp hd).2).1
  have hrow := row_many (f := .field) hfields hclean fun e f hf he =>
    (lies_payload hf (List.forall_mem_append.mp he).1).row.after _
  exact (hrow.after _).before _

theorem lies_member {d : Concrete.Grammar.enumMember.Tree} {m : Member}
    (h : memberOf (Concrete.Grammar.memberOf d) = .ok m) (hd : Clean d.yield) : Lies (.member m) d.yield := by
  have hwords : Node.Words (.member m) (d.yield.map Token.lexeme) := by
    rw [writes_member h hd]
    exact .member
  obtain ⟨name, equals, v⟩ := d
  obtain ⟨n, hn, h⟩ := bind_eq_ok_iff.mp h
  cases h
  have hv := (List.forall_mem_append.mp (List.forall_mem_append.mp hd).2).2
  refine .mk hwords (spans_self name.val) ?_ (.other (by simp)) ((lies_value hn hv).row.before [equals.val])
  rintro _ ⟨⟩
  exact ⟨name.val, List.mem_singleton_self _, rfl, rfl⟩

theorem row_members {d : Concrete.Grammar.enumBody.Tree} {ms : List Member}
    (h : (Concrete.Grammar.membersOf d).mapM memberOf = .ok ms) (hd : Clean d.yield) :
    Row (ms.map .member) d.yield := by
  obtain ⟨openBrace, first, others, closeBrace⟩ := d
  obtain ⟨m, ms, hm, hms, rfl⟩ := List.forall₂_cons_left_iff.mp (mapM_eq_ok_iff.mp h)
  obtain ⟨hfirst, htail⟩ := List.forall_mem_append.mp (List.forall_mem_append.mp hd).2
  have hothers := row_many (f := .member) hms (List.forall_mem_append.mp htail).1 fun e m hm he =>
    (lies_member hm (List.forall_mem_append.mp he).2).row.before _
  exact ((lies_member hm hfirst).row.append (hothers.after _)).before _

theorem row_labels {d : Concrete.Grammar.caseLabel.some.Tree} {vs : List Value}
    (h : (Concrete.Grammar.labelOf d.1 :: List.map Concrete.Grammar.labelOf d.2).mapM valueOf = .ok vs)
    (hd : Clean d.yield) : Row (vs.map .value) d.yield := by
  obtain ⟨first, others⟩ := d
  have hvalues : List.Forall₂ (fun c v => valueOf c = .ok v) ((first :: others).map Concrete.Grammar.labelOf) vs :=
    mapM_eq_ok_iff.mp h
  exact row_many (f := .value) hvalues hd fun e v hv he =>
    ((lies_value hv (List.forall_mem_append.mp (List.forall_mem_append.mp he).2).1).row.after _).before _

/-! ### Unions -/

theorem lies_arm {d : Concrete.Grammar.caseArm.Tree} {vs : List Value} {p : Payload}
    (hvs : (Concrete.Grammar.labelOf d.1.1 :: List.map Concrete.Grammar.labelOf d.1.2).mapM valueOf = .ok vs)
    (hp : payloadOf (Concrete.Grammar.declarationOf d.2.1) = .ok p) (hd : Clean d.yield) :
    Lies (.arm ⟨vs, p, d.1.1.1.val.span.cover d.2.2.val.span⟩) d.yield := by
  obtain ⟨labels, d, semicolon⟩ := d
  obtain ⟨hlabels, hfield⟩ := List.forall_mem_append.mp hd
  have hpayload := (List.forall_mem_append.mp hfield).1
  have hwords : Writes (p := Concrete.Grammar.caseArm) (labels, d, semicolon)
      (vs.flatMap labelWords ++ (d.yield.map Token.lexeme ++ [mark .semicolon])) :=
    (labelWords_of hvs).seq (Writes.seq (fun _ => rfl) (writes_mark semicolon))
  refine .mk ?_ ⟨labels.1.1.val, rfl, semicolon.val, getLast?_append (getLast?_append rfl _) _, rfl⟩ nofun
    (.other (by simp)) ?_
  · rw [hwords hd]
    exact .arm (payloadWords_of hp hpayload)
  · exact (row_labels hvs hlabels).append ((lies_payload hp hpayload).row.after _)

/-- The arms that are built lie in a row, with the default arm among them or before them. -/
theorem row_arms {owner : String} {ds : List Concrete.Grammar.arm.Tree} {before : Option Payload}
    {seen : List String} {result : List Arm × Option Payload}
    (h : armsOf owner before seen (ds.map Concrete.Grammar.armOf) = .ok result)
    (hclean : Clean (Tree.yield (p := Concrete.Grammar.arm.many) ds)) :
    ∃ default as bs, result.1 = as ++ bs ∧ Row (as.map .arm ++ (default.toList.map .ofPayload ++ bs.map .arm))
      (Tree.yield (p := Concrete.Grammar.arm.many) ds) ∧
      result.2 = default.or before ∧ (before.isSome → default = none) := by
  induction ds generalizing before seen result with
  | nil =>
    cases h
    exact ⟨none, [], [], rfl, .nil, rfl, fun _ => rfl⟩
  | cons e ds ih =>
    obtain ⟨he, hds⟩ := List.forall_mem_append.mp hclean
    rcases e with d | ⟨first, colon, d, semicolon⟩
    · obtain ⟨vs, hvs, h⟩ := bind_eq_ok_iff.mp h
      obtain ⟨payload, hpayload, h⟩ := bind_eq_ok_iff.mp h
      obtain ⟨seen', -, h⟩ := bind_eq_ok_iff.mp h
      obtain ⟨rest, hrest, h⟩ := bind_eq_ok_iff.mp h
      cases h
      obtain ⟨default, as, bs, harms, hrow, hdefault, hbefore⟩ := ih hrest hds
      refine ⟨default, _ :: as, bs, congrArg _ harms, ?_, hdefault, hbefore⟩
      exact (lies_arm hvs hpayload he).row.append hrow
    · change (if before.isSome then _ else _) = _ at h
      split at h
      · cases h
      · next hnone =>
        obtain ⟨payload, hpayload, h⟩ := bind_eq_ok_iff.mp h
        obtain ⟨seen', -, h⟩ := bind_eq_ok_iff.mp h
        obtain ⟨default, as, bs, harms, hrow, hdefault, hbefore⟩ := ih h hds
        obtain rfl := hbefore rfl
        have hd := (List.forall_mem_append.mp (List.forall_mem_append.mp (List.forall_mem_append.mp he).2).2).1
        have hfirst : Row [.ofPayload payload] _ :=
          ((((lies_payload hpayload hd).row.after [semicolon.val]).before [colon.val]).before [first.val])
        refine ⟨some payload, [], as ++ bs, harms, ?_, ?_, fun hsome => (hnone hsome).elim⟩
        · rw [List.map_append]
          exact hfirst.append hrow
        · rw [hdefault]
          rfl

theorem row_union {d : Concrete.Grammar.unionBody.Tree} {name : String} {u : Union} {span : Span}
    (h : unionOf name (Concrete.Grammar.declarationOf d.2.2.1)
      (Concrete.Grammar.armOf d.2.2.2.2.2.1.1 :: List.map Concrete.Grammar.armOf d.2.2.2.2.2.1.2) span = .ok u)
    (hd : Clean d.yield) : ∃ as bs, u.arms = as ++ bs ∧
      Row (.discriminant u.discriminant :: (as.map .arm ++ (u.default.toList.map .ofPayload ++ bs.map .arm)))
        d.yield := by
  obtain ⟨first, openParen, switch, closeParen, openBrace, ⟨arm, arms⟩, closeBrace⟩ := d
  obtain ⟨f, hf, hu⟩ := bind_eq_ok_iff.mp h
  obtain ⟨⟨as, default⟩, has, hu⟩ := bind_eq_ok_iff.mp hu
  dsimp only at hu
  split at hu
  · cases hu
  cases hu
  obtain ⟨hswitch, htail⟩ := List.forall_mem_append.mp (List.forall_mem_append.mp (List.forall_mem_append.mp hd).2).2
  have harms : Clean (Tree.yield (p := Concrete.Grammar.arm.many) (arm :: arms)) :=
    (List.forall_mem_append.mp (List.forall_mem_append.mp (List.forall_mem_append.mp htail).2).2).1
  obtain ⟨default', as', bs', heq, hrow, hdefault, -⟩ := row_arms has harms
  obtain rfl : default = default' := by rw [show default = _ from hdefault, Option.or_none]
  refine ⟨as', bs', heq, ?_⟩
  have hbody := (lies_discriminant hf hswitch).row.append (((hrow.after [closeBrace.val]).before [openBrace.val]).before
    [closeParen.val])
  exact (hbody.before [openParen.val]).before [first.val]

/-! ### Definitions -/

theorem lies_definition {e : Concrete.Grammar.definition.Tree} {x : Definition}
    (h : definitionOf (Concrete.Grammar.definitionOf e) = .ok x) (he : Clean e.yield) :
    Lies (.definition x) e.yield := by
  have hwords := Node.Words.definition (definitionWords_of h he)
  rcases e with ⟨first, name, equals, v, last⟩ | ⟨first, d, last⟩ | ⟨first, name, body, last⟩ |
    ⟨first, name, body, last⟩ | ⟨first, name, body, last⟩
  · obtain ⟨n, hn, h⟩ := bind_eq_ok_iff.mp h
    cases h
    have hv := (List.forall_mem_append.mp (List.forall_mem_append.mp (List.forall_mem_append.mp
      (List.forall_mem_append.mp he).2).2).2).1
    refine .mk hwords ⟨first.val, rfl, last.val, ?_, rfl⟩ ?_ (.other (by simp)) ?_
    · exact getLast?_append (getLast?_append (getLast?_append (getLast?_append rfl _) _) _) _
    · rintro _ ⟨⟩
      exact ⟨name.val, List.mem_append_right _ List.mem_cons_self, rfl, rfl⟩
    · exact ((((lies_value hn hv).row.after [last.val]).before [equals.val]).before [name.val]).before [first.val]
  · obtain ⟨p, hp, h⟩ := bind_eq_ok_iff.mp h
    cases p with
    | void => cases h
    | field f =>
      cases h
      have hd := (List.forall_mem_append.mp (List.forall_mem_append.mp he).2).1
      obtain ⟨-, -, hwritten, horder, hrow⟩ := lies_payload hp hd
      obtain ⟨t, ht, htext, hspan⟩ := hwritten (f.name, f.nameSpan) rfl
      refine .mk hwords ⟨first.val, rfl, last.val, getLast?_append (getLast?_append rfl _) _, rfl⟩ ?_
        (.other (by simp)) ?_
      · rintro _ ⟨⟩
        exact ⟨t, List.mem_append_right _ (List.mem_append_left _ ht), htext, hspan⟩
      · cases horder
        exact (hrow.after [last.val]).before [first.val]
  · obtain ⟨ms, hms, h⟩ := bind_eq_ok_iff.mp h
    cases h
    have hbody := (List.forall_mem_append.mp (List.forall_mem_append.mp (List.forall_mem_append.mp he).2).2).1
    refine .mk hwords ⟨first.val, rfl, last.val, ?_, rfl⟩ ?_ (.other (by simp)) ?_
    · exact getLast?_append (getLast?_append (getLast?_append rfl _) _) _
    · rintro _ ⟨⟩
      exact ⟨name.val, List.mem_append_right _ List.mem_cons_self, rfl, rfl⟩
    · exact (((row_members hms hbody).after [last.val]).before [name.val]).before [first.val]
  · obtain ⟨fields, hfields, h⟩ := bind_eq_ok_iff.mp h
    cases h
    have hbody := (List.forall_mem_append.mp (List.forall_mem_append.mp (List.forall_mem_append.mp he).2).2).1
    refine .mk hwords ⟨first.val, rfl, last.val, ?_, rfl⟩ ?_ (.other (by simp)) ?_
    · exact getLast?_append (getLast?_append (getLast?_append rfl _) _) _
    · rintro _ ⟨⟩
      exact ⟨name.val, List.mem_append_right _ List.mem_cons_self, rfl, rfl⟩
    · exact (((row_fields hfields hbody).after [last.val]).before [name.val]).before [first.val]
  · obtain ⟨u, hu, h⟩ := bind_eq_ok_iff.mp h
    cases h
    have hbody := (List.forall_mem_append.mp (List.forall_mem_append.mp (List.forall_mem_append.mp he).2).2).1
    obtain ⟨as, bs, harms, hrow⟩ := row_union hu hbody
    refine .mk hwords ⟨first.val, rfl, last.val, ?_, rfl⟩ ?_ (.union harms) ?_
    · exact getLast?_append (getLast?_append (getLast?_append rfl _) _) _
    · rintro _ ⟨⟩
      exact ⟨name.val, List.mem_append_right _ List.mem_cons_self, rfl, rfl⟩
    · exact ((hrow.after [last.val]).before [name.val]).before [first.val]

theorem row_definitions {e : Concrete.Grammar.specification.Tree} {spec : Spec}
    (h : ofTree (Concrete.Grammar.meaning e) = .ok spec) (he : Clean e.yield) :
    Row (spec.definitions.map .definition) e.yield := by
  obtain ⟨ds, hds, h⟩ := bind_eq_ok_iff.mp h
  cases h
  exact row_many (f := .definition) (mapM_eq_ok_iff.mp hds) he fun _ _ hx he => (lies_definition hx he).row

/-- From the first definition to the last. -/
theorem exists_last {ds : List Concrete.Grammar.definition.Tree} {xs : List Definition}
    (h : List.Forall₂ (fun d x => Spans x.span d.yield) ds xs) (hne : xs ≠ []) :
    ∃ x ∈ xs.getLast?, ∃ first last : Token, last ∈ (Tree.yield (p := Concrete.Grammar.specification) ds).getLast? ∧
      x.span = first.span.cover last.span := by
  induction h with
  | nil => exact (hne rfl).elim
  | @cons d x ds xs hd _ ih =>
    by_cases hxs : xs = []
    · subst hxs
      rename_i hds
      cases hds
      obtain ⟨first, -, last, hlast, heq⟩ := hd
      refine ⟨x, rfl, first, last, ?_, heq⟩
      exact (congrArg List.getLast? (List.append_nil _)).trans hlast
    · obtain ⟨y, hy, first, last, hlast, heq⟩ := ih hxs
      exact ⟨y, getLast?_append hy [x], first, last, getLast?_append hlast d.yield, heq⟩

theorem spans_program {e : Concrete.Grammar.specification.Tree} {spec : Spec}
    (h : ofTree (Concrete.Grammar.meaning e) = .ok spec) (he : Clean e.yield) {s : Span} (hs : spec.span? = some s) :
    Spans s e.yield := by
  obtain ⟨xs, hxs, h⟩ := bind_eq_ok_iff.mp h
  cases h
  have hspans : List.Forall₂ (fun d x => Spans x.span d.yield) e xs := by
    have hbuilt := List.forall₂_map_left_iff.mp (mapM_eq_ok_iff.mp hxs)
    refine ((List.forall₂_and_left _ _).mpr ⟨(clean_many e).mp he, hbuilt⟩).imp fun d x hd => ?_
    obtain ⟨-, hspan, -⟩ := lies_definition hd.2 hd.1
    exact hspan
  cases hspans with
  | nil => cases hs
  | @cons d x ds xs hd hds =>
    obtain ⟨y, hy, _, last, hlast, hyspan⟩ := exists_last (.cons hd hds) (List.cons_ne_nil x xs)
    obtain ⟨first, hfirst, _, _, hxspan⟩ := hd
    have hs : s = x.span.cover y.span := by
      rw [Spec.span?, show (x :: xs).getLast? = some y from hy] at hs
      exact (Option.some.inj hs).symm
    refine ⟨first, head?_append hfirst _, last, hlast, ?_⟩
    rw [hs, hxspan, hyspan]
    rfl

/-! ### The places in a text -/

/-- The part is a definition of the specification or is in one. -/
def Has (spec : Spec) (n : Node) : Prop := ∃ d ∈ spec.definitions, Node.Reaches (.definition d) n

/-- What the places in a specification say of the text that it is read from. -/
structure Located (text : String) (ts : List Token) (spec : Spec) : Prop where
  splits : Splits .start text.toList ts
  /-- A place goes from the first to the last of the tokens that its part is written with. -/
  spans : ∀ n, spec.Has n → ∃ us, us <:+: ts ∧ n.Words (us.map Token.lexeme) ∧ Spans n.span (n.own us)
  /-- What stands at the place of a name is that name, and what stands at the place of a value is how it is
  written. -/
  written : ∀ n, spec.Has n → ∀ s place, n.written? = some (s, place) →
    stretch text place = s ∧ place.Inside n.span
  inside : ∀ n, spec.Has n → (∀ m, n ≠ .member m) → ∀ c ∈ n.children, c.span.Inside n.span
  members : ∀ m, spec.Has (.member m) → m.span.Before m.value.span
  siblings : ∀ n, spec.Has n → ∃ order, n.Arranged order ∧ order.Pairwise fun a b => a.span.Before b.span
  definitions : spec.definitions.Pairwise fun a b => a.span.Before b.span
  program : ∀ s, spec.span? = some s → Spans s ts ∧ ∀ d ∈ spec.definitions, d.span.Inside s

theorem Has.exists_lies {spec : Spec} {n : Node} {ts : List Token} (h : spec.Has n)
    (hrow : Row (spec.definitions.map .definition) ts) : ∃ us, us <:+: ts ∧ Lies n us := by
  obtain ⟨d, hd, hreaches⟩ := h
  obtain ⟨mid, hmid, hlies⟩ := hrow.exists_of_mem (List.mem_map_of_mem hd)
  obtain ⟨us, hus, hn⟩ := hlies.exists_of_reaches hreaches
  exact ⟨us, hus.trans hmid, hn⟩

theorem stretch_of_mem {text : String} {ts : List Token} (h : Splits .start text.toList ts) {t : Token} (ht : t ∈ ts) :
    stretch text t.span = t.text := by
  obtain ⟨before, after, rfl⟩ := List.append_of_mem ht
  obtain ⟨front, rest, hstands, -⟩ := h.stands
  exact hstands.stretch

/-- The places in a specification that is read from a text are where its parts stand in it. -/
theorem located_of_parse {text : String} {spec : Spec} (h : parse text = .ok spec) : ∃ ts, Located text ts spec := by
  obtain ⟨tree, htree, h⟩ := bind_eq_ok_iff.mp h
  obtain ⟨e, hsplits, rfl⟩ := Concrete.parse_eq_ok_iff.mp htree
  have hclean : Clean e.yield := hsplits.spelled
  have hordered : Ordered e.yield := hsplits.ordered
  have hrow := row_definitions h hclean
  refine ⟨e.yield, hsplits, fun n hn => ?_, fun n hn s place hs => ?_, fun n hn hmember c hc => ?_, fun m hm => ?_,
    fun n hn => ?_, ?_, fun s hs => ⟨spans_program h hclean hs, fun d hd => ?_⟩⟩
  · obtain ⟨us, hus, hwords, hspan, -⟩ := hn.exists_lies hrow
    exact ⟨us, hus, hwords, hspan⟩
  · obtain ⟨us, hus, -, hspan, hwritten, -⟩ := hn.exists_lies hrow
    obtain ⟨t, ht, rfl, rfl⟩ := hwritten (s, place) hs
    have hown := (n.own_infix us).trans hus
    exact ⟨stretch_of_mem hsplits (hown.subset ht), hspan.inside (hordered.sublist hown.sublist) ht ht⟩
  · obtain ⟨us, hus, hlies⟩ := hn.exists_lies hrow
    exact hlies.inside (hordered.sublist hus.sublist) hmember hc
  · obtain ⟨us, hus, hlies⟩ := hm.exists_lies hrow
    exact hlies.before_value (hordered.sublist hus.sublist)
  · obtain ⟨us, hus, -, -, -, horder, hchildren⟩ := hn.exists_lies hrow
    exact ⟨_, horder, hchildren.pairwise (hordered.sublist ((n.inner_infix us).trans hus).sublist)⟩
  · have hpairwise := hrow.pairwise hordered
    rwa [List.pairwise_map] at hpairwise
  · obtain ⟨us, hus, hlies⟩ := Has.exists_lies ⟨d, hd, .refl⟩ hrow
    obtain ⟨first, hfirst, last, hlast, hspan⟩ := hlies.exists_tokens
    change d.span = _ at hspan
    rw [hspan]
    exact (spans_program h hclean hs).inside hordered (hus.subset hfirst) (hus.subset hlast)

theorem located_of_parse_sample : ∃ spec, parse "const A = 5;\nenum E { B = A };" = .ok spec ∧
    spec.definitions.map (·.nameSpan) = [⟨1, 7, 1, 8⟩, ⟨2, 6, 2, 7⟩] ∧
    ∃ ts, Located "const A = 5;\nenum E { B = A };" ts spec := by
  have hplaces : (parse "const A = 5;\nenum E { B = A };").toOption.map (·.definitions.map (·.nameSpan)) =
      some [⟨1, 7, 1, 8⟩, ⟨2, 6, 2, 7⟩] := by decide +kernel
  obtain ⟨spec, hspec, hplaces⟩ := Option.map_eq_some_iff.mp hplaces
  have h := toOption_eq_some_iff.mp hspec
  exact ⟨spec, h, hplaces, located_of_parse h⟩

end XdrSchema.Spec
