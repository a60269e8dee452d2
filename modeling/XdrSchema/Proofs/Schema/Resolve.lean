import XdrSchema.Proofs.Schema.Scope
import XdrSchema.Compile

/-! The schema of every accepted text is well formed. -/
namespace XdrSchema.Schema

open Resolve Scope

variable {symbols : List Symbol}

/-- A type among the symbols that can be resolved under its name. -/
structure Pending (symbols : List Symbol) (x : TypeKind × Spec.Definition) : Prop where
  symbol : Refers symbols ⟨x.2.name, x.1⟩
  kind : kindOf? x.2 = some x.1
  proper : x.2.Proper
  members : DistinctMembers x.2

/-- Resolving a name finishes it. While it is being resolved it is not fresh, so that nothing else
finishes it. -/
theorem gives_visit (fresh : List (TypeKind × Spec.Definition))
    (hdistinct : (fresh.map (·.2.name)).Nodup) (hpending : ∀ x ∈ fresh, Pending symbols x)
    (path : List String) (name : String) (span : Span) (base : List (String × Definition)) :
    Gives symbols (fresh.map (·.2.name)) base (visit symbols fresh path name span)
      fun _ done => name ∈ names done := by
  rw [visit]
  intro p u p' hbase hsound hends
  obtain ⟨p₀, p₁, hget, hbody⟩ := ends_bind.mp hends
  obtain ⟨rfl, rfl⟩ := ends_get.mp hget
  split at hbody
  · next hdone =>
    obtain ⟨-, rfl⟩ := ends_pure.mp hbody
    exact ⟨List.suffix_rfl, hsound, fun n hn => .inl hn, lookup_isSome_iff_mem.mp hdone⟩
  · next hnew =>
    rw [lookup_isSome_iff_mem] at hnew
    split at hbody
    · exact (not_ends_throw hbody).elim
    · next k d hfind =>
      have hmem := List.mem_of_find?_eq_some hfind
      have hname : d.name = name := by simpa using List.find?_some hfind
      have hrest : ∀ x ∈ fresh.eraseP (·.2.name = name), x ∈ fresh :=
        fun x hx => List.mem_of_mem_eraseP hx
      have herase := map_eraseP_key (fun x : TypeKind × Spec.Definition => x.2.name) fresh name
      have hdistinct' := herase ▸ hdistinct.erase name
      have hgone := herase ▸ hdistinct.not_mem_erase (a := name)
      have hd := hpending _ hmem
      obtain ⟨r, p₂, hdefinition, hfinish⟩ := ends_bind.mp hbody
      rw [finish, ends_modify] at hfinish
      subst hfinish
      have hvisits : Visits ⟨symbols, fun n s =>
          visit symbols (fresh.eraseP (·.2.name = name)) (path ++ [name]) n s⟩
          ((fresh.eraseP (·.2.name = name)).map (·.2.name)) := fun n s b =>
        gives_visit _ hdistinct' (fun x hx => hpending x (hrest x hx)) (path ++ [name]) n s b
      obtain ⟨hsuffix, hsound', hnames, hkind, hproper, hmembers⟩ :=
        gives_definition hvisits d hd.proper hd.members _ _ _ hbase hsound hdefinition
      have hkind' : k = r.kind := by
        rw [hd.kind] at hkind
        exact Option.some.inj hkind
      have hnew' : name ∉ names p₂.done := fun h => (hnames name h).elim hnew hgone
      refine ⟨hsuffix.trans (List.suffix_cons _ _), .cons hnew' ⟨?_, hproper, hmembers⟩ hsound', ?_,
        List.mem_cons_self⟩
      · rw [← hkind', ← hname]
        exact hd.symbol
      · intro n hn
        rcases List.mem_cons.mp hn with rfl | hn
        · exact .inr (List.mem_map.mpr ⟨_, hmem, hname⟩)
        · apply (hnames n hn).imp_right
          intro h
          obtain ⟨x, hx, rfl⟩ := List.mem_map.mp h
          exact List.mem_map_of_mem (hrest x hx)
termination_by fresh.length
decreasing_by
  exact length_eraseP_key_lt (List.mem_map.mpr ⟨_, hmem, hname⟩)

/-! ### The symbols of a specification -/

theorem checkDistinct_eq_ok_iff {seen rest : List Symbol} : Symbol.checkDistinct seen rest = .ok () ↔
    (rest.map (·.name)).Nodup ∧ ∀ x ∈ rest, ∀ earlier ∈ seen, earlier.name ≠ x.name := by
  induction rest generalizing seen with
  | nil => simp [Symbol.checkDistinct, pure, Except.pure]
  | cons x rest ih =>
    rw [Symbol.checkDistinct, List.map_cons, List.nodup_cons, List.forall_mem_cons]
    cases hfind : Symbol.find? seen x.name with
    | some previous =>
      have hprevious := List.mem_of_find?_eq_some hfind
      have hname : previous.name = x.name := by simpa using List.find?_some hfind
      exact ⟨nofun, fun h => absurd hname (h.2.1 previous hprevious)⟩
    | none =>
      have hx : ∀ earlier ∈ seen, earlier.name ≠ x.name := fun earlier hearlier heq =>
        List.find?_eq_none.mp hfind earlier hearlier (by simpa using heq)
      simp only [ih, List.forall_mem_append, List.forall_mem_singleton, List.mem_map, not_exists,
        not_and]
      constructor
      · rintro ⟨hnodup, hnew⟩
        exact ⟨⟨fun y hy heq => (hnew y hy).2 heq.symm, hnodup⟩, hx, fun y hy => (hnew y hy).1⟩
      · rintro ⟨⟨hne, hnodup⟩, -, hnew⟩
        exact ⟨hnodup, fun y hy => ⟨hnew y hy, fun heq => hne y hy heq.symm⟩⟩

theorem failsWith_checkDistinct {E : SpecError → Prop} (h : ∀ name previous span, E ⟨.redefined name previous, span⟩)
    (seen rest : List Symbol) : FailsWith E (Symbol.checkDistinct seen rest) := by
  induction rest generalizing seen with
  | nil => exact failsWith_ok ()
  | cons x rest ih =>
    rw [Symbol.checkDistinct]
    split
    · exact failsWith_error (h _ _ _)
    · exact ih _

/-- A type among the symbols of a specification is one of its definitions, under its name. -/
theorem of_mem_ofSpec {spec : Spec} {x : Symbol} {k : TypeKind} {d : Spec.Definition}
    (hx : x ∈ Symbol.ofSpec spec) (htype : x.type? = some (k, d)) :
    d ∈ spec.definitions ∧ x.name = d.name ∧ x.kind = .type k ∧ kindOf? d = some k := by
  rcases List.mem_append.mp hx with hx | hx
  · simp only [Symbol.builtins, List.mem_cons, List.not_mem_nil, or_false] at hx
    rcases hx with rfl | rfl <;> cases htype
  · obtain ⟨d', hd', hx⟩ := List.mem_flatMap.mp hx
    obtain ⟨name, body, span, nameSpan⟩ := d'
    cases body with
    | const v =>
      rw [List.mem_singleton.mp hx] at htype
      cases htype
    | enum members =>
      rcases List.mem_cons.mp hx with rfl | hx
      · cases htype
        exact ⟨hd', rfl, rfl, rfl⟩
      · obtain ⟨m, -, rfl⟩ := List.mem_map.mp hx
        cases htype
    | typedef _ | struct _ | union _ =>
      rw [List.mem_singleton.mp hx] at htype ⊢
      cases htype
      exact ⟨hd', rfl, rfl, rfl⟩

theorem distinctMembers_of_mem {spec : Spec}
    (hdistinct : ((Symbol.ofSpec spec).map (·.name)).Nodup) {d : Spec.Definition}
    (hd : d ∈ spec.definitions) : DistinctMembers d := by
  obtain ⟨name, body, span, nameSpan⟩ := d
  cases body with
  | enum members =>
    rw [Symbol.ofSpec, List.map_append, List.map_flatMap] at hdistinct
    have hall := (List.nodup_append.mp hdistinct).2.1
    have hnodup := (List.nodup_cons.mp ((List.nodup_flatMap.mp hall).1 _ hd)).2
    change (members.map (·.name)).Nodup
    simpa [Function.comp_def] using hnodup
  | _ => trivial

theorem sublist_map_filterMap {α β γ : Type} {f : α → Option β} {g : β → γ} {h : α → γ}
    {l : List α} (heq : ∀ a ∈ l, ∀ b, f a = some b → g b = h a) :
    ((l.filterMap f).map g).Sublist (l.map h) := by
  induction l with
  | nil => exact List.Sublist.refl _
  | cons a rest ih =>
    have hrest := ih fun a' ha' => heq a' (List.mem_cons_of_mem _ ha')
    cases hfa : f a with
    | none =>
      rw [List.filterMap_cons_none hfa]
      exact hrest.cons _
    | some b =>
      rw [List.filterMap_cons_some hfa, List.map_cons, List.map_cons,
        heq a List.mem_cons_self b hfa]
      exact hrest.cons_cons _

theorem pending_of_mem_types {spec : Spec} (hproper : ∀ d ∈ spec.definitions, d.Proper)
    (hdistinct : ((Symbol.ofSpec spec).map (·.name)).Nodup) :
    ∀ x ∈ Symbol.types (Symbol.ofSpec spec), Pending (Symbol.ofSpec spec) x := by
  rintro ⟨k, d⟩ hx
  obtain ⟨y, hy, htype⟩ := List.mem_filterMap.mp hx
  obtain ⟨hd, hname, hkind, hkind'⟩ := of_mem_ofSpec hy htype
  refine ⟨⟨y, ?_, hkind⟩, hkind', hproper d hd, distinctMembers_of_mem hdistinct hd⟩
  rw [← hname]
  exact (find?_eq_some_iff_of_nodup hdistinct).mpr ⟨hy, rfl⟩

theorem nodup_types {spec : Spec} (hdistinct : ((Symbol.ofSpec spec).map (·.name)).Nodup) :
    ((Symbol.types (Symbol.ofSpec spec)).map (·.2.name)).Nodup :=
  hdistinct.sublist (sublist_map_filterMap fun _ hx _ htype => (of_mem_ofSpec hx htype).2.1.symm)

/-! ### All types -/

theorem gives_forM {types pending : List (TypeKind × Spec.Definition)}
    (hdistinct : (types.map (·.2.name)).Nodup) (hpending : ∀ x ∈ types, Pending symbols x)
    (base : List (String × Definition)) :
    Gives symbols (types.map (·.2.name)) base
      (pending.forM fun x => visit symbols types [] x.2.name x.2.nameSpan)
      fun _ done => ∀ x ∈ pending, x.2.name ∈ names done := by
  induction pending generalizing base with
  | nil => exact gives_pure fun _ _ => by simp
  | cons x rest ih =>
    change Gives symbols _ base (visit symbols types [] x.2.name x.2.nameSpan >>= fun _ =>
      rest.forM fun x => visit symbols types [] x.2.name x.2.nameSpan) _
    refine (gives_visit types hdistinct hpending [] x.2.name x.2.nameSpan base).bind
      fun _ done _ hx => (ih done).mono fun _ done' hdone' hrest => ?_
    rw [List.forall_mem_cons]
    exact ⟨(hdone'.map (·.1)).subset hx, hrest⟩

/-- How many definitions were finished before that of a name. -/
def rank : List (String × Definition) → String → Nat
  | [], _ => 0
  | (other, _) :: rest, name => if other = name then rest.length else rank rest name

theorem rank_lt {done : List (String × Definition)} {name : String} (h : name ∈ names done) :
    rank done name < done.length := by
  induction done with
  | nil => cases h
  | cons e rest ih =>
    rw [rank, List.length_cons]
    split
    · omega
    · next hne =>
      have := ih ((List.mem_cons.mp h).resolve_left fun heq => hne heq.symm)
      omega

theorem rank_eq_of_suffix {before done : List (String × Definition)} (h : before <:+ done)
    (hdistinct : (names done).Nodup) {name : String} (hname : name ∈ names before) :
    rank done name = rank before name := by
  obtain ⟨first, rfl⟩ := h
  induction first with
  | nil => rfl
  | cons e first ih =>
    obtain ⟨hnew, hdistinct⟩ := List.nodup_cons.mp hdistinct
    have hne : e.1 ≠ name := by
      rintro rfl
      exact hnew (by simp [names] at hname ⊢; exact .inr hname)
    rw [List.cons_append, rank, if_neg hne]
    exact ih hdistinct

/-! ### The schema -/

theorem inOrder_cons (x : TypeKind × Spec.Definition) (types : List (TypeKind × Spec.Definition))
    (done : List (String × Definition)) :
    inOrder (x :: types) done =
      ((done.lookup x.2.name).map fun r => (x.2.name, r)).toList ++ inOrder types done := by
  unfold inOrder
  cases h : done.lookup x.2.name with
  | none => simp [h]
  | some r => simp [h]

theorem lookup_inOrder {types : List (TypeKind × Spec.Definition)}
    {done : List (String × Definition)} {name : String} {r : Definition} :
    (inOrder types done).lookup name = some r ↔
      name ∈ types.map (·.2.name) ∧ done.lookup name = some r := by
  induction types with
  | nil => simp [inOrder]
  | cons x rest ih =>
    rw [inOrder_cons, List.map_cons, List.mem_cons]
    cases hx : done.lookup x.2.name with
    | none =>
      have hne : done.lookup name = some r → name ≠ x.2.name := by
        rintro h rfl
        rw [hx] at h
        cases h
      rw [Option.map_none, Option.toList_none, List.nil_append, ih, and_congr_left]
      exact fun h => (or_iff_right (hne h)).symm
    | some r' =>
      rw [Option.map_some, Option.toList_some, List.singleton_append, List.lookup_cons]
      by_cases heq : name = x.2.name
      · subst heq
        simp [hx]
      · rw [beq_eq_false_iff_ne.mpr heq, or_iff_right heq]
        exact ih

/-- The definitions in order of a specification all of whose types are done. -/
theorem map_fst_inOrder {types : List (TypeKind × Spec.Definition)}
    {done : List (String × Definition)} (hdone : ∀ x ∈ types, x.2.name ∈ names done) :
    (inOrder types done).map (·.1) = types.map (·.2.name) := by
  induction types with
  | nil => rfl
  | cons x rest ih =>
    rw [List.forall_mem_cons] at hdone
    obtain ⟨r, hr⟩ := Option.isSome_iff_exists.mp (lookup_isSome_iff_mem.mpr hdone.1)
    rw [inOrder_cons, hr, List.map_append, ih hdone.2]
    rfl

theorem type?_of_kind {x : Symbol} {k : TypeKind} (h : x.kind = .type k) :
    ∃ d, x.type? = some (k, d) := by
  obtain ⟨name, span, meaning⟩ := x
  cases meaning <;> cases h
  exact ⟨_, rfl⟩

/-- The symbol of a type is that of one of the types. -/
theorem mem_types_of_kind {spec : Spec} {name : String} {x : Symbol} {k : TypeKind}
    (hfind : Symbol.find? (Symbol.ofSpec spec) name = some x) (hkind : x.kind = .type k) :
    name ∈ (Symbol.types (Symbol.ofSpec spec)).map (·.2.name) := by
  obtain ⟨d, hd⟩ := type?_of_kind hkind
  have hx := List.mem_of_find?_eq_some hfind
  have hname : x.name = name := by simpa using List.find?_some hfind
  rw [← hname, (of_mem_ofSpec hx hd).2.1]
  exact List.mem_map_of_mem (f := fun x : TypeKind × Spec.Definition => x.2.name)
    (List.mem_filterMap.mpr ⟨x, hx, hd⟩)

/-- What a reference refers to is done with the types. -/
theorem lookup_of_refers {spec : Spec} {done : List (String × Definition)}
    (hsound : Sound (Symbol.ofSpec spec) done)
    (hall : ∀ x ∈ Symbol.types (Symbol.ofSpec spec), x.2.name ∈ names done) {r : Ref}
    (hr : Refers (Symbol.ofSpec spec) r) :
    ∃ d, (inOrder (Symbol.types (Symbol.ofSpec spec)) done).lookup r.name = some d ∧
      d.kind = r.kind := by
  have hmem : r.name ∈ (Symbol.types (Symbol.ofSpec spec)).map (·.2.name) := by
    obtain ⟨x, hfind, hkind⟩ := hr
    exact mem_types_of_kind hfind hkind
  obtain ⟨y, hy, hyname⟩ := List.mem_map.mp hmem
  obtain ⟨d, hd⟩ := Option.isSome_iff_exists.mp (lookup_isSome_iff_mem.mpr (hyname ▸ hall y hy))
  obtain ⟨_, -, hfinished⟩ := hsound.finished hd
  exact ⟨d, lookup_inOrder.mpr ⟨hmem, hd⟩, hfinished.symbol.kind_eq hr⟩

/-- Sound progress in which exactly the types are done makes a well formed schema. -/
theorem wellFormed_of_sound {spec : Spec} {done : List (String × Definition)}
    (hdistinct : ((Symbol.ofSpec spec).map (·.name)).Nodup)
    (hsound : Sound (Symbol.ofSpec spec) done)
    (hall : ∀ x ∈ Symbol.types (Symbol.ofSpec spec), x.2.name ∈ names done)
    (honly : ∀ n ∈ names done, n ∈ (Symbol.types (Symbol.ofSpec spec)).map (·.2.name)) :
    WellFormed ⟨Symbol.ofSpec spec, inOrder (Symbol.types (Symbol.ofSpec spec)) done⟩ := by
  set types := Symbol.types (Symbol.ofSpec spec) with htypes
  have hnames : (inOrder types done).map (·.1) = types.map (·.2.name) := map_fst_inOrder hall
  have hfinished {name : String} {d : Definition} (hd : (inOrder types done).lookup name = some d) :=
    hsound.finished (lookup_inOrder.mp hd).2
  have hlength : done.length ≤ (inOrder types done).length := by
    have hle := (List.subperm_of_subset hsound.nodup honly).length_le
    rwa [← hnames, names, List.length_map, List.length_map] at hle
  constructor
  case distinct =>
    change ((inOrder types done).map (·.1)).Nodup
    rw [hnames]
    exact nodup_types hdistinct
  case symbol =>
    intro name d hd
    obtain ⟨_, -, h⟩ := hfinished hd
    exact h.symbol
  case defined =>
    intro name x k hfind hkind
    change name ∈ (inOrder types done).map (·.1)
    rw [hnames]
    exact mem_types_of_kind hfind hkind
  case proper =>
    intro name d hd
    obtain ⟨_, -, h⟩ := hfinished hd
    exact h.proper
  case resolved =>
    intro name d hd t ht
    obtain ⟨_, -, h⟩ := hfinished hd
    have hsettled := h.members t ht
    exact ⟨hsettled.bound, fun r hr => lookup_of_refers hsound hall (hsettled.target r hr)⟩
  case ranked =>
    refine ⟨rank done, fun name hname => ?_, ?_⟩
    · change name ∈ (inOrder types done).map (·.1) at hname
      rw [hnames] at hname
      obtain ⟨x, hx, rfl⟩ := List.mem_map.mp hname
      exact Nat.lt_of_lt_of_le (rank_lt (hall x hx)) hlength
    · rintro outer inner ⟨d, hd, t, ht, r, hr, rfl⟩
      obtain ⟨before, hbefore, h⟩ := hfinished hd
      have hinner := (h.members t ht).direct r hr
      rw [rank_eq_of_suffix hbefore hsound.nodup (List.mem_cons_self : outer ∈ _),
        rank_eq_of_suffix ((List.suffix_cons _ _).trans hbefore) hsound.nodup hinner, rank, if_pos rfl]
      exact rank_lt hinner

/-- The schema is made of sound progress in which all types are done. -/
theorem gives_schema {types : List (TypeKind × Spec.Definition)}
    {base : List (String × Definition)} (hall : ∀ x ∈ types, x.2.name ∈ names base)
    (fresh : List String) :
    Gives symbols fresh base (do return Schema.mk symbols (inOrder types (← get).done))
      fun s done => ∃ done', done' <:+ done ∧ s = ⟨symbols, inOrder types done'⟩ ∧
        Sound symbols done' ∧ ∀ x ∈ types, x.2.name ∈ names done' := by
  refine (gives_get (Q := fun p done => p.done = done ∧ Sound symbols done)
    fun p _ hp => ⟨rfl, hp⟩).bind fun p done hdone hp => gives_pure fun done' hdone' => ?_
  obtain ⟨rfl, hsound⟩ := hp
  exact ⟨p.done, hdone', rfl, hsound, fun x hx => (hdone.map (·.1)).subset (hall x hx)⟩

/-- The progress of an analysis stays sound, and all types are done in the end. -/
theorem gives_build {spec : Spec} (hproper : ∀ d ∈ spec.definitions, d.Proper) :
    Gives (Symbol.ofSpec spec) ((Symbol.types (Symbol.ofSpec spec)).map (·.2.name)) [] (build spec)
      fun s done => ((Symbol.ofSpec spec).map (·.name)).Nodup ∧ ∃ done', done' <:+ done ∧
        s = ⟨Symbol.ofSpec spec, inOrder (Symbol.types (Symbol.ofSpec spec)) done'⟩ ∧
        Sound (Symbol.ofSpec spec) done' ∧
        ∀ x ∈ Symbol.types (Symbol.ofSpec spec), x.2.name ∈ names done' := by
  set symbols := Symbol.ofSpec spec
  unfold build
  dsimp only
  refine (gives_lift (Q := fun _ _ => (symbols.map (·.name)).Nodup) fun _ h _ _ =>
    (checkDistinct_eq_ok_iff.mp h).1).bind fun _ _ _ hdistinct => ?_
  refine (gives_lift (Q := fun _ _ => True) fun _ _ _ _ => trivial).bind fun _ base _ _ => ?_
  refine (gives_forM (nodup_types hdistinct) (pending_of_mem_types hproper hdistinct)
    base).bind fun _ done _ hall => ?_
  split
  · refine gives_warn.bind fun _ done' hdone' _ => ?_
    exact (gives_schema (fun x hx => (hdone'.map (·.1)).subset (hall x hx)) _).mono
      fun _ _ _ h => ⟨hdistinct, h⟩
  · exact (gives_schema hall _).mono fun _ _ _ h => ⟨hdistinct, h⟩

theorem wellFormed_of_build {spec : Spec} (hproper : ∀ d ∈ spec.definitions, d.Proper)
    {s : Schema} {p : Progress} (h : Ends (build spec) ⟨[], []⟩ s p) : s.WellFormed := by
  obtain ⟨-, -, honly, hdistinct, done', hdone', rfl, hsound, hall⟩ :=
    gives_build hproper _ _ _ List.nil_suffix .nil h
  apply wellFormed_of_sound hdistinct hsound hall
  intro n hn
  exact (honly n ((hdone'.map (·.1)).subset hn)).resolve_left List.not_mem_nil

/-- The schema of an accepted text is well formed. -/
theorem wellFormed_of_analyzeText {source : String} {s : Schema}
    (h : (analyzeText source).result = .ok s) : s.WellFormed := by
  unfold analyzeText at h
  split at h
  · cases h
  · next spec hspec =>
    have hends : Ends (build spec) ⟨[], []⟩ s ((build spec).run.run ⟨[], []⟩).2 :=
      Prod.ext h rfl
    exact wellFormed_of_build (Spec.proper_of_parse hspec) hends

/-! ### A small schema -/

/-- The schema with the symbols of a text and the given types. -/
def withTypes (source : String) (types : List (String × Definition)) : Schema :=
  ⟨((analyzeText source).result.toOption.map (·.symbols)).getD [], types⟩

/-- A text that has these types is accepted with that schema. -/
theorem analyzeText_eq_ok {source : String} {types : List (String × Definition)}
    (h : (analyzeText source).result.toOption.map (·.types) = some types) :
    (analyzeText source).result = .ok (withTypes source types) := by
  unfold withTypes
  cases hresult : (analyzeText source).result with
  | error e =>
    rw [hresult] at h
    cases h
  | ok s =>
    rw [hresult] at h
    obtain ⟨symbols, types⟩ := s
    cases h
    rfl

/-- A specification with a definition of every kind and a recursive one. -/
def sampleText : String :=
  "const N = 3; enum K \x7b A = 0, B = 1 \x7d; typedef opaque Blob<6>; " ++
    "union U switch (K k) \x7b case A: int n; default: Blob b; \x7d; " ++
    "struct L \x7b U u; float weights[N]; L *next; \x7d;"

def sampleArm : Arm := ⟨"A", [⟨0, some "A"⟩], some ⟨"n", .plain (.primitive .int)⟩⟩

def sampleUnion : Union :=
  ⟨"k", .named ⟨"K", .enum⟩, .enum "K", [sampleArm],
    some ⟨"Default", [], some ⟨"b", .plain (.named ⟨"Blob", .typedef⟩)⟩⟩⟩

def sampleTypes : List (String × Definition) :=
  [("K", .enum [("A", 0), ("B", 1)]), ("Blob", .typedef (.bytes (some 6))), ("U", .union sampleUnion),
    ("L", .struct [⟨"u", .plain (.named ⟨"U", .union⟩)⟩, ⟨"weights", .array (.primitive .float) 3⟩,
      ⟨"next", .optional (.named ⟨"L", .struct⟩)⟩])]

def sampleSchema : Schema :=
  ⟨((analyzeText sampleText).result.toOption.map (·.symbols)).getD [], sampleTypes⟩

theorem analyzeText_sampleText : (analyzeText sampleText).result = .ok sampleSchema := by
  have htypes : (analyzeText sampleText).result.toOption.map (·.types) = some sampleTypes := by decide +kernel
  exact analyzeText_eq_ok htypes

end XdrSchema.Schema
