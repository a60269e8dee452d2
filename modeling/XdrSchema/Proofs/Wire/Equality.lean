import XdrSchema.Proofs.Schema.Resolve
import XdrSchema.Proofs.Wire.Pieces
import XdrSchema.Proofs.Wire.RoundTrip

/-! Equality of decoded values. Values are equal if and only if they are of one type and their bytes are
equal as numbers and otherwise byte by byte: a NaN is equal to nothing, and zeros are equal whatever
their sign. -/
namespace XdrSchema.Wire

open Schema (Ref Ty Definition Union)
open Number (Double)

/-- Pieces that count as equal. -/
def Piece.Same (p q : Piece) : Prop := ¬ p.IsNaN ∧ ¬ q.IsNaN ∧ p.Alike q

open Piece

theorem same_plain {a b : List UInt8} : Same (plain a) (plain b) ↔ a = b := by
  constructor
  · rintro ⟨-, -, h⟩
    cases h
    rfl
  · rintro rfl
    exact ⟨id, id, .refl _⟩

theorem same_word {n w w' : Nat} (hw : w < wordCount n) (hw' : w' < wordCount n) :
    Same (plain (wordBytes n w)) (plain (wordBytes n w')) ↔ w = w' := by
  rw [same_plain]
  constructor
  · intro h
    rw [← wordOf_wordBytes_of_lt hw, h, wordOf_wordBytes_of_lt hw']
  · rintro rfl
    rfl

theorem same_single {w w' : Nat} (hw : w < wordCount 4) (hw' : w' < wordCount 4) :
    Same (single w) (single w') ↔ (Double.ofSingle w).sameNumber (.ofSingle w') = true := by
  rw [Double.sameNumber_ofSingle hw hw']
  refine and_congr_right fun _ => and_congr_right fun _ => ⟨fun h => ?_, ?_⟩
  · cases h with
    | refl => exact .inl rfl
    | singles h h' => exact .inr ⟨h, h'⟩
  · rintro (rfl | ⟨h, h'⟩)
    · exact .refl _
    · exact .singles h h'

theorem same_double {w w' : Nat} :
    Same (double w) (double w') ↔ Double.sameNumber ⟨w⟩ ⟨w'⟩ = true := by
  rw [Double.sameNumber_iff]
  refine and_congr_right fun _ => and_congr_right fun _ => ⟨fun h => ?_, ?_⟩
  · cases h with
    | refl => exact .inl rfl
    | doubles h h' => exact .inr ⟨h, h'⟩
  · rintro (h | ⟨h, h'⟩)
    · cases h
      exact .refl _
    · exact .doubles h h'

/-! ### Comparing from the front -/

/-- The rows of pieces are the same if and only if `same` holds, and whether they are can be told from the
fronts of longer rows. -/
structure Agrees (same : Prop) (ps qs : List Piece) : Prop where
  pieces : same → List.Forall₂ Same ps qs
  split : ∀ ps' qs', List.Forall₂ Same (ps ++ ps') (qs ++ qs') → same ∧ List.Forall₂ Same ps' qs'

section Agrees

variable {a b : Prop} {p q : Piece} {ps qs ps' qs' : List Piece}

theorem Agrees.congr (h : Agrees a ps qs) (hab : a ↔ b) : Agrees b ps qs :=
  propext hab ▸ h

theorem agrees_nil : Agrees True [] [] := ⟨fun _ => .nil, fun _ _ h => ⟨trivial, h⟩⟩

theorem agrees_piece : Agrees (Same p q) [p] [q] :=
  ⟨fun h => .cons h .nil, fun _ _ h => List.forall₂_cons.mp h⟩

theorem agrees_of_differ (hpieces : ¬ Same p q) (h : ¬ a) : Agrees a (p :: ps) (q :: qs) :=
  ⟨fun ha => absurd ha h, fun _ _ hall => absurd (List.forall₂_cons.mp hall).1 hpieces⟩

/-- What follows is compared only if the fronts are the same. -/
theorem Agrees.append (h : Agrees a ps qs) (h' : a → Agrees b ps' qs') :
    Agrees (a ∧ b) (ps ++ ps') (qs ++ qs') := by
  refine ⟨fun ⟨ha, hb⟩ => List.rel_append (h.pieces ha) ((h' ha).pieces hb), fun rest rest' hall => ?_⟩
  rw [List.append_assoc, List.append_assoc] at hall
  obtain ⟨ha, hall⟩ := h.split _ _ hall
  obtain ⟨hb, hall⟩ := (h' ha).split _ _ hall
  exact ⟨⟨ha, hb⟩, hall⟩

theorem agrees_cons (h : Same p q → Agrees b ps qs) : Agrees (Same p q ∧ b) (p :: ps) (q :: qs) :=
  agrees_piece.append h

theorem Agrees.iff (h : Agrees a ps qs) : a ↔ List.Forall₂ Same ps qs := by
  refine ⟨h.pieces, fun hall => (h.split [] [] ?_).1⟩
  rwa [List.append_nil, List.append_nil]

end Agrees

/-! ### Values of one type -/

variable {v w : Value} {ps qs : List Piece}

theorem agrees_primitive {k : Primitive} (hv : MakesPrimitive k v ps) (hw : MakesPrimitive k w qs) :
    Agrees (v.same w = true) ps qs := by
  have hsigned {n a b : Nat} (ha : a < wordCount n) (hb : b < wordCount n) :
      Same (plain (wordBytes n a)) (plain (wordBytes n b)) ↔
        (Value.int (signed n a)).same (.int (signed n b)) = true := by
    rw [same_word ha hb, Value.same, Value.equalsInt, decide_eq_true_iff]
    refine ⟨fun h => by rw [h], fun h => ?_⟩
    rw [← unsigned_signed ha, ← h, unsigned_signed hb]
  have hunsigned {n a b : Nat} (ha : a < wordCount n) (hb : b < wordCount n) :
      Same (plain (wordBytes n a)) (plain (wordBytes n b)) ↔
        (Value.int a).same (.int b) = true := by
    rw [same_word ha hb, Value.same, Value.equalsInt, decide_eq_true_iff, Int.natCast_inj, eq_comm]
  cases hv with
  | int ha =>
    cases hw with
    | int hb => exact agrees_piece.congr (hsigned ha hb)
  | unsignedInt ha =>
    cases hw with
    | unsignedInt hb => exact agrees_piece.congr (hunsigned ha hb)
  | hyper ha =>
    cases hw with
    | hyper hb => exact agrees_piece.congr (hsigned ha hb)
  | unsignedHyper ha =>
    cases hw with
    | unsignedHyper hb => exact agrees_piece.congr (hunsigned ha hb)
  | float ha =>
    cases hw with
    | float hb => exact agrees_piece.congr (same_single ha hb)
  | double ha =>
    cases hw with
    | double hb => exact agrees_piece.congr same_double
  | bool a =>
    cases hw with
    | bool b =>
      have hbits (c : Bool) : c.toNat < wordCount 4 := by cases c <;> decide
      refine agrees_piece.congr ((same_word (hbits a) (hbits b)).trans ?_)
      cases a <;> cases b <;> decide

theorem discriminantOf_inj {u : Union} {x y : Nat} (hx : x < wordCount 4) (hy : y < wordCount 4)
    (h : discriminantOf u x = discriminantOf u y) : x = y := by
  unfold discriminantOf at h
  split at h
  · exact Int.natCast_inj.mp h
  · rw [← unsigned_signed hx, h, unsigned_signed hy]

section Types

variable {visit visit' : String → Value → List Piece → Prop}

theorem not_absent_of_base (hvisit : ∀ name v ps, visit name v ps → v ≠ .absent) {b : Base Ref}
    (hv : MakesBase visit b v ps) : v ≠ .absent := by
  cases b with
  | primitive k => cases hv <;> exact nofun
  | named r => exact hvisit r.name v ps hv

theorem same_absent_eq_false (h : v ≠ .absent) :
    Value.absent.same v = false ∧ v.same .absent = false := by
  cases v <;> first | exact absurd rfl h | exact ⟨rfl, rfl⟩

theorem agrees_items {item item' : Value → List Piece → Prop}
    (h : ∀ v w ps qs, item v ps → item' w qs → Agrees (v.same w = true) ps qs) {vs ws : List Value}
    (hlen : vs.length = ws.length) (hvs : MakesItems item vs ps) (hws : MakesItems item' ws qs) :
    Agrees (Value.sameAll vs ws = true) ps qs := by
  induction hvs generalizing ws qs with
  | nil =>
    cases hws with
    | nil => exact agrees_nil.congr (iff_of_true trivial rfl)
    | cons => cases hlen
  | cons hv _ ih =>
    cases hws with
    | nil => cases hlen
    | cons hw hws =>
      refine ((h _ _ _ _ hv hw).append fun _ => ih (Nat.succ.inj hlen) hws).congr ?_
      rw [Value.sameAll, Bool.and_eq_true]

theorem length_eq_of_sameAll {vs ws : List Value} (h : Value.sameAll vs ws = true) :
    vs.length = ws.length := by
  induction vs generalizing ws with
  | nil =>
    cases ws with
    | nil => rfl
    | cons w ws => cases h
  | cons v vs ih =>
    cases ws with
    | nil => cases h
    | cons w ws =>
      rw [Value.sameAll, Bool.and_eq_true] at h
      rw [List.length_cons, List.length_cons, ih h.2]

/-- Data with its padding determines the data once the lengths are equal. -/
theorem padded_inj {a b : List UInt8} (hlen : a.length = b.length) :
    Encode.padded a = Encode.padded b ↔ a = b := by
  refine ⟨fun h => ?_, fun h => by rw [h]⟩
  unfold Encode.padded at h
  exact List.append_inj_left h hlen

variable (hbase : ∀ b v w ps qs, MakesBase visit b v ps → MakesBase visit' b w qs →
    Agrees (v.same w = true) ps qs)
  (habsent : ∀ name v ps, visit name v ps → v ≠ .absent)
  (habsent' : ∀ name v ps, visit' name v ps → v ≠ .absent)

include hbase habsent habsent'

theorem agrees_type {t : Ty} (hv : MakesType visit t v ps) (hw : MakesType visit' t w qs) :
    Agrees (v.same w = true) ps qs := by
  have hfits {n : Option Nat} {k : Nat} (h : Fits n k) : k < wordCount 4 := Decoder.lt_wordCount_iff.mpr h.2
  have hdata {n n' : Option Nat} {a b : List UInt8} (ha : Fits n a.length) (hb : Fits n' b.length) :
      Agrees ((Value.bytes a).same (.bytes b) = true)
        [plain (wordBytes 4 a.length), plain (Encode.padded a)]
        [plain (wordBytes 4 b.length), plain (Encode.padded b)] := by
    refine (agrees_cons fun _ => agrees_piece).congr ?_
    rw [same_word (hfits ha) (hfits hb), same_plain, Value.same, decide_eq_true_iff]
    refine ⟨fun ⟨hlen, h⟩ => (padded_inj hlen).mp h, ?_⟩
    rintro rfl
    exact ⟨rfl, rfl⟩
  cases hv with
  | plain hv =>
    cases hw with
    | plain hw => exact hbase _ v w ps qs hv hw
  | array hlen hvs =>
    cases hw with
    | array hlen' hws =>
      exact agrees_items (hbase _) (hlen.trans hlen'.symm) hvs hws
  | @vector b n vs ps hfit hvs =>
    cases hw with
    | @vector _ _ ws qs hfit' hws =>
      have hcount := same_word (hfits hfit) (hfits hfit')
      refine (agrees_cons fun h => agrees_items (hbase b) (hcount.mp h) hvs hws).congr ?_
      rw [hcount, Value.same]
      exact and_iff_right_of_imp length_eq_of_sameAll
  | absent =>
    cases hw with
    | absent => exact agrees_piece.congr (iff_of_true (same_plain.mpr rfl) rfl)
    | present hw =>
      have hfalse := (same_absent_eq_false (not_absent_of_base habsent' hw)).1
      exact agrees_of_differ (by rw [same_plain]; decide) (by rw [hfalse]; decide)
  | present hv =>
    cases hw with
    | absent =>
      have hfalse := (same_absent_eq_false (not_absent_of_base habsent hv)).2
      exact agrees_of_differ (by rw [same_plain]; decide) (by rw [hfalse]; decide)
    | present hw =>
      refine (agrees_cons fun _ => hbase _ v w _ _ hv hw).congr ?_
      rw [same_plain]
      exact and_iff_right rfl
  | fixedBytes hlen =>
    cases hw with
    | fixedBytes hlen' =>
      refine agrees_piece.congr ?_
      rw [same_plain, padded_inj (hlen.trans hlen'.symm), Value.same, decide_eq_true_iff]
  | bytes hfit =>
    cases hw with
    | bytes hfit' => exact hdata hfit hfit'
  | string hfit =>
    cases hw with
    | string hfit' => exact hdata hfit hfit'

omit hbase habsent habsent' in
theorem names_of_makesFields {fs : List Schema.Field} {vs : List (String × Value)}
    (h : MakesFields visit fs vs ps) : vs.map (·.1) = fs.map (·.name) := by
  induction h with
  | nil => rfl
  | cons _ _ ih => rw [List.map_cons, List.map_cons, ih]

omit hbase habsent habsent' in
theorem sameFields_cons_of_notMem {name : String} {vs ws : List (String × Value)}
    (h : name ∉ vs.map (·.1)) :
    Value.sameFields vs ((name, w) :: ws) = Value.sameFields vs ws := by
  induction vs with
  | nil => rfl
  | cons x vs ih =>
    rw [List.map_cons, List.mem_cons, not_or] at h
    have hne : (x.1 == name) = false := beq_false_of_ne (Ne.symm h.1)
    rw [Value.sameFields, Value.sameFields, ih h.2, List.lookup_cons, hne]

/-- Fields are looked up by name; as no name occurs twice, each is compared with its counterpart. -/
theorem agrees_fields {fs : List Schema.Field} (hnames : (fs.map (·.name)).Nodup)
    {vs ws : List (String × Value)} (hvs : MakesFields visit fs vs ps)
    (hws : MakesFields visit' fs ws qs) : Agrees (Value.sameFields vs ws = true) ps qs := by
  induction hvs generalizing ws qs with
  | nil =>
    cases hws with
    | nil => exact agrees_nil.congr (iff_of_true trivial rfl)
  | @cons f fs v vs ps rest hv hvs ih =>
    cases hws with
    | @cons _ _ w ws qs rest' hw hws =>
      rw [List.map_cons, List.nodup_cons] at hnames
      have hfirst := agrees_type hbase habsent habsent' hv hw
      refine (hfirst.append fun _ => ih hnames.2 hws).congr ?_
      have hnew : f.name ∉ vs.map (·.1) := by rw [names_of_makesFields hvs]; exact hnames.1
      rw [Value.sameFields, sameFields_cons_of_notMem hnew, List.lookup_cons, beq_self_eq_true,
        Bool.and_eq_true]

theorem agrees_payload {f : Option Schema.Field} (hv : MakesPayload visit f v ps)
    (hw : MakesPayload visit' f w qs) : Agrees (v.same w = true) ps qs := by
  cases hv with
  | void =>
    cases hw with
    | void => exact agrees_nil.congr (iff_of_true trivial rfl)
  | field hv =>
    cases hw with
    | field hw => exact agrees_type hbase habsent habsent' hv hw

theorem agrees_definition {name : String} {d : Definition} (hd : d.Proper)
    (hv : MakesDefinition visit name d v ps) (hw : MakesDefinition visit' name d w qs) :
    Agrees (v.same w = true) ps qs := by
  cases hv with
  | typedef hv =>
    cases hw with
    | typedef hw =>
      refine (agrees_type hbase habsent habsent' hv hw).congr ?_
      rw [Value.same, decide_eq_true rfl, Bool.true_and]
  | struct hvs =>
    cases hw with
    | struct hws =>
      refine (agrees_fields hbase habsent habsent' hd hvs hws).congr ?_
      have hlen := congrArg List.length ((names_of_makesFields hvs).trans (names_of_makesFields hws).symm)
      rw [List.length_map, List.length_map] at hlen
      rw [Value.same, decide_eq_true rfl, decide_eq_true hlen, Bool.true_and, Bool.true_and]
  | @enum labels label a ha hlabel =>
    cases hw with
    | @enum _ label' b hb hlabel' =>
      refine agrees_piece.congr ((same_word ha hb).trans ⟨?_, fun h => ?_⟩)
      · rintro rfl
        cases hlabel.symm.trans hlabel'
        simp [Value.same, Value.equalsInt]
      · rw [Value.same, Bool.and_eq_true, Value.same, Value.equalsInt, decide_eq_true_iff] at h
        rw [← unsigned_signed ha, ← h.2, unsigned_signed hb]
  | @union u a x v ps hx harm hv =>
    cases hw with
    | @union _ b y w qs hy harm' hw =>
      have hword := same_word hx hy
      have hpayload (h : x = y) : Agrees (v.same w = true) ps qs := by
        subst h
        cases harm.symm.trans harm'
        exact agrees_payload hbase habsent habsent' hv hw
      refine (agrees_cons fun h => hpayload (hword.mp h)).congr ?_
      rw [hword, Value.same, decide_eq_true rfl, Bool.true_and, Bool.and_eq_true, Bool.and_eq_true,
        decide_eq_true_iff, Value.same, Value.equalsInt, decide_eq_true_iff]
      constructor
      · rintro ⟨rfl, hsame⟩
        cases harm.symm.trans harm'
        exact ⟨⟨rfl, rfl⟩, hsame⟩
      · rintro ⟨⟨-, hdisc⟩, hsame⟩
        exact ⟨discriminantOf_inj hx hy hdisc.symm, hsame⟩

end Types

/-! ### Values of a schema -/

variable {s : Schema} {m n : Nat} {name name' : String}

theorem not_absent_of_makes (h : Makes s m name v ps) : v ≠ .absent := by
  cases m with
  | zero => cases h
  | succ m =>
    obtain ⟨d, -, hd⟩ := h
    cases hd <;> exact nofun

theorem agrees_makes (hs : s.WellFormed) (hv : Makes s m name v ps) (hw : Makes s n name w qs) :
    Agrees (v.same w = true) ps qs := by
  induction m generalizing name v w ps qs n with
  | zero => cases hv
  | succ m ih =>
    cases n with
    | zero => cases hw
    | succ n =>
      obtain ⟨d, hd, hv⟩ := hv
      obtain ⟨d', hd', hw⟩ := hw
      cases hd.symm.trans hd'
      refine agrees_definition (fun b x y rs ts hx hy => ?_) (fun _ _ _ => not_absent_of_makes)
        (fun _ _ _ => not_absent_of_makes) (hs.proper name d hd) hv hw
      cases b with
      | primitive k => exact agrees_primitive hx hy
      | named r => exact ih hx hy

/-- A value says which type it is of. -/
theorem name_eq_of_same (hv : Makes s m name v ps) (hw : Makes s n name' w qs)
    (h : v.same w = true) : name = name' := by
  cases m with
  | zero => cases hv
  | succ m =>
    cases n with
    | zero => cases hw
    | succ n =>
      obtain ⟨d, -, hv⟩ := hv
      obtain ⟨d', -, hw⟩ := hw
      cases hv <;> cases hw <;> simp_all [Value.same]

/-- The pieces of the bytes that a value of a named type was decoded from. -/
structure IsCut (s : Schema) (name : String) (bytes : List UInt8) (v : Value) (ps : List Piece) :
    Prop where
  makes : ∃ levels, Makes s levels name v ps
  joined : joined ps = bytes

theorem forall₂_same_iff : List.Forall₂ Same ps qs ↔
    (∀ p ∈ ps, ¬ p.IsNaN) ∧ (∀ q ∈ qs, ¬ q.IsNaN) ∧ List.Forall₂ Alike ps qs := by
  induction ps generalizing qs with
  | nil =>
    rw [List.forall₂_nil_left_iff, List.forall₂_nil_left_iff]
    refine ⟨?_, fun h => h.2.2⟩
    rintro rfl
    exact ⟨nofun, nofun, rfl⟩
  | cons p ps ih =>
    cases qs with
    | nil => exact ⟨nofun, fun h => nomatch h.2.2⟩
    | cons q qs =>
      rw [List.forall₂_cons, List.forall₂_cons, List.forall_mem_cons, List.forall_mem_cons, ih, Same]
      tauto

namespace Codec

variable {source : String} {limit limit' : Int} {bytes bytes' : List UInt8}

/-- Decoded values are equal if and only if they are of one type, no floating-point word of theirs is a
NaN, and their bytes are equal but for the signs of floating-point zeros. -/
theorem same_iff_alike (h : (Schema.analyzeText source).result = .ok s)
    (hv : (ofSchema s limit).decode name bytes = .ok v)
    (hw : (ofSchema s limit').decode name' bytes' = .ok w) :
    (∃ ps, IsCut s name bytes v ps) ∧ (∃ qs, IsCut s name' bytes' w qs) ∧
      ∀ ps qs, IsCut s name bytes v ps → IsCut s name' bytes' w qs →
        (v.same w = true ↔ name = name' ∧ (∀ p ∈ ps, ¬ p.IsNaN) ∧ (∀ q ∈ qs, ¬ q.IsNaN) ∧
          List.Forall₂ Alike ps qs) := by
  have hs := Schema.wellFormed_of_analyzeText h
  refine ⟨?_, ?_, fun ps qs hps hqs => ?_⟩
  · obtain ⟨ps, hps, hjoined⟩ := cut_of_decode hv
    exact ⟨ps, ⟨_, hps⟩, hjoined⟩
  · obtain ⟨qs, hqs, hjoined⟩ := cut_of_decode hw
    exact ⟨qs, ⟨_, hqs⟩, hjoined⟩
  · obtain ⟨m, hps⟩ := hps.makes
    obtain ⟨n, hqs⟩ := hqs.makes
    rw [← forall₂_same_iff]
    constructor
    · intro hsame
      obtain rfl := name_eq_of_same hps hqs hsame
      exact ⟨rfl, (agrees_makes hs hps hqs).iff.mp hsame⟩
    · rintro ⟨rfl, hall⟩
      exact (agrees_makes hs hps hqs).iff.mpr hall

/-- The sample bytes with a positive zero in place of the negative one. -/
def unsignedBytes : List UInt8 := sampleBytes.set 16 0

theorem same_iff_alike_sample : unsignedBytes ≠ sampleBytes ∧
    ∃ ps qs, joined ps = sampleBytes ∧ joined qs = unsignedBytes ∧ List.Forall₂ Alike ps qs := by
  have hsame : (match (ofSchema Schema.sampleSchema 4).decode "L" unsignedBytes with
      | .ok w => sampleValue.same w
      | .error _ => false) = true := by
    decide +kernel
  refine ⟨by decide, ?_⟩
  split at hsame
  · next w hw =>
    obtain ⟨⟨ps, hps⟩, ⟨qs, hqs⟩, hiff⟩ :=
      same_iff_alike Schema.analyzeText_sampleText decode_sampleBytes hw
    exact ⟨ps, qs, hps.joined, hqs.joined, ((hiff ps qs hps hqs).mp hsame).2.2.2⟩
  · cases hsame

end Codec

end XdrSchema.Wire
