import SizedTypes.Proofs.Infer.Uses.Groups

/-!
# Groups as they are planned

While the bindings of a group are checked, each of them is declared as its plan says. Once the
group is complete its definitions account for the uses of them, if the variable is defined at most
once.
-/

set_option autoImplicit false

namespace SizedTypes.Infer

open Surface (Bind)
open SizedTypes.Core

variable {x : Int} {U : Uses} {E : External} {c : Context} {s s₀ s₁ s' : State}

/-! ## Plans -/

/-- What the plan of a recursive group has declared `x` as, after the bindings `bs`: what it was,
or what the plan says about the binding that defines it. -/
inductive Plan.Entry (x : Int) (plan : Plan) (bs : List Bind) (before : Option VarType) :
    Option VarType → Prop
  | outer (hbs : ∀ b ∈ bs, b.name.id ≠ x) (hsigs : plan.signatures.find? x = none) :
    Entry x plan bs before before
  | signed {b : Bind} {sc : Schema} (hb : b ∈ bs) (hx : b.name.id = x) (hsig : b.signature ≠ none)
      (hfind : plan.signatures.find? x = some sc) : Entry x plan bs before (some (.known sc))
  | mono {b : Bind} {t : Ty} (hb : b ∈ bs) (hx : b.name.id = x) (hmono : plan.mono = true)
      (hsigs : plan.signatures.find? x = none) :
    Entry x plan bs before (some (.known (.mono t)))
  | general {b : Bind} {token : Int} {n : Name} {t : Ty} (hb : b ∈ bs) (hx : b.name.id = x)
      (hsig : b.signature = none) (hmono : plan.mono = false)
      (hfind : plan.general.find? x = some (token, t)) :
    Entry x plan bs before (some (.inGroup token n t))

theorem returns_planDeclare_recursive {plan plan' : Plan} {n : Name} {v : VarType}
    (h : Returns (plan.declare true n v) c s plan' s') :
    plan' = { plan with declared := plan.declared + 1 } ∧ s' = s.push (n, v) := by
  rw [Plan.declare, if_pos rfl, declare, returns_modify_bind, returns_pure] at h
  exact h

/-- One more binding of a group that has at most one for `x`. -/
theorem Plan.Entry.add {plan plan' : Plan} {bs : List Bind} {b : Bind} {v : VarType}
    {before current : Option VarType} (h : plan.Entry x bs before current)
    (hplanned : Planned plan b plan' v) (honce : b.name.id = x → ∀ b' ∈ bs, b'.name.id ≠ x) :
    plan'.Entry x (bs ++ [b]) before (if x = b.name.id then some v else current) := by
  by_cases hx : b.name.id = x
  · have hsigs : plan.signatures.find? x = none := by
      cases h with
      | outer _ hsigs => exact hsigs
      | signed hb hx' => exact absurd hx' (honce hx _ hb)
      | mono _ _ _ hsigs => exact hsigs
      | general hb hx' => exact absurd hx' (honce hx _ hb)
    have hb : b ∈ bs ++ [b] := List.mem_append_right _ (List.mem_singleton_self b)
    rw [if_pos hx.symm]
    cases hplanned with
    | signed sc hsig =>
      exact .signed hb hx hsig (by rw [Table.find?_insert, if_pos hx.symm])
    | mono v hsig hmono => exact .mono hb hx hmono hsigs
    | general v hsig hmono =>
      exact .general hb hx hsig hmono (by rw [Table.find?_insert, if_pos hx.symm])
  · -- the tables have what they had for `x`
    have hmono : plan'.mono = plan.mono := by cases hplanned <;> rfl
    have hsigs : plan'.signatures.find? x = plan.signatures.find? x := by
      cases hplanned with
      | signed sc => exact (Table.find?_insert ..).trans (if_neg (Ne.symm hx))
      | mono => rfl
      | general => rfl
    have hgeneral : plan'.general.find? x = plan.general.find? x := by
      cases hplanned with
      | signed => rfl
      | mono => rfl
      | general v => exact (Table.find?_insert ..).trans (if_neg (Ne.symm hx))
    rw [if_neg (Ne.symm hx)]
    cases h with
    | outer hbs hnone =>
      refine .outer (List.forall_mem_append.mpr ⟨hbs, ?_⟩) (hsigs.trans hnone)
      exact List.forall_mem_singleton.mpr hx
    | signed hb hx' hsig hfind =>
      exact .signed (List.mem_append_left _ hb) hx' hsig (hsigs.trans hfind)
    | mono hb hx' hmono' hnone =>
      exact .mono (List.mem_append_left _ hb) hx' (hmono.trans hmono') (hsigs.trans hnone)
    | general hb hx' hsig hmono' hfind =>
      exact .general (List.mem_append_left _ hb) hx' hsig (hmono.trans hmono') (hgeneral.trans hfind)

theorem Plan.Entry.declared {plan : Plan} {bs : List Bind} {before current : Option VarType}
    (h : plan.Entry x bs before current) (k : Nat) :
    Plan.Entry x { plan with declared := k } bs before current := by
  cases h with
  | outer hbs hsigs => exact .outer hbs hsigs
  | signed hb hx hsig hfind => exact .signed hb hx hsig hfind
  | mono hb hx hmono hsigs => exact .mono hb hx hmono hsigs
  | general hb hx hsig hmono hfind => exact .general hb hx hsig hmono hfind

theorem tidy_push_planned (hs : Tidy s) {plan plan' : Plan} {b : Bind} {v : VarType}
    (h : Planned plan b plan' v) : Tidy (s.push (b.name, v)) := by
  show Tidy (s.pushAll [(b.name, v)])
  refine hs.pushAll (List.forall_mem_singleton.mpr fun token n t heq => ?_)
  cases h with
  | signed => cases heq
  | mono => cases heq
  | general v =>
    cases heq
    rfl

theorem entry_planAll (bs : List Bind) {binds : List Bind} {plan plan' : Plan} {before : Option VarType}
    (h : Returns (binds.foldlM (fun plan b => plan.add true b) plan) c s plan' s')
    (honce : ((bs ++ binds).map fun b => b.name.id).count x ≤ 1) (hs : Tidy s)
    (hentry : plan.Entry x bs before (s.typeOf c.external x)) :
    Tidy s' ∧ plan'.Entry x (bs ++ binds) before (s'.typeOf c.external x) := by
  induction binds generalizing bs plan s with
  | nil =>
    obtain ⟨rfl, rfl⟩ := returns_pure.mp h
    rw [List.append_nil]
    exact ⟨hs, hentry⟩
  | cons b binds ih =>
    rw [List.foldlM_cons, returns_bind] at h
    obtain ⟨plan₁, s₁, hb, h⟩ := h
    obtain ⟨c', s₀, plan₀, v, hframe, hplanned, hdeclare⟩ := returns_planAdd hb
    obtain ⟨rfl, rfl⟩ := returns_planDeclare_recursive hdeclare
    have hfirst : b.name.id = x → ∀ b' ∈ bs, b'.name.id ≠ x := by
      intro hx b' hb' hx'
      have hbefore : 0 < (bs.map fun b => b.name.id).count x :=
        List.count_pos_iff.mpr (List.mem_map.mpr ⟨b', hb', hx'⟩)
      rw [List.map_append, List.count_append, List.map_cons, hx, List.count_cons_self] at honce
      omega
    have hadded := hentry.add hplanned hfirst
    rw [List.append_cons] at honce ⊢
    refine ih _ h honce (tidy_push_planned (hs.of_vars hframe.vars) hplanned) ?_
    rw [typeOf_push, typeOf_of_vars hframe.vars]
    exact hadded.declared _

/-- Bindings that are not recursive are not declared. -/
theorem vars_planAll {binds : List Bind} {plan plan' : Plan}
    (h : Returns (binds.foldlM (fun plan b => plan.add false b) plan) c s plan' s') :
    s'.vars = s.vars := by
  induction binds generalizing plan s with
  | nil =>
    obtain ⟨rfl, rfl⟩ := returns_pure.mp h
    rfl
  | cons b binds ih =>
    rw [List.foldlM_cons, returns_bind] at h
    obtain ⟨plan₁, s₁, hb, h⟩ := h
    obtain ⟨c', s₀, plan₀, v, hframe, -, hdeclare⟩ := returns_planAdd hb
    rw [Plan.declare, if_neg Bool.false_ne_true, returns_pure] at hdeclare
    rw [ih h, hdeclare.2, hframe.vars]

theorem returns_planGroup {top recursive : Bool} {binds : List Bind} {plan : Plan}
    (h : Returns (planGroup top recursive binds) c s plan s') : ∃ s₁ mono, s₁.vars = s.vars ∧
      Returns (binds.foldlM (fun plan b => plan.add recursive b) { mono }) c s₁ plan s' := by
  unfold planGroup at h
  rw [returns_read_bind] at h
  dsimp only at h
  rw [returns_bind] at h
  obtain ⟨⟨⟩, s₁, htrace, h⟩ := h
  exact ⟨s₁, _, ((framed_trace _).step htrace).vars, h⟩

theorem entry_planGroup {top : Bool} {binds : List Bind} {plan : Plan}
    (h : Returns (planGroup top true binds) c s plan s') (hs : Tidy s)
    (honce : (binds.map fun b => b.name.id).count x ≤ 1) :
    Tidy s' ∧ plan.Entry x binds (s.typeOf c.external x) (s'.typeOf c.external x) := by
  obtain ⟨s₁, mono, hvars, h⟩ := returns_planGroup h
  refine entry_planAll [] h honce (hs.of_vars hvars) ?_
  rw [typeOf_of_vars hvars]
  exact .outer (List.forall_mem_nil _) rfl

/-! ## Complete groups -/

/-- The bindings of a group to generalize have these definitions. -/
structure GeneralUses (x : Int) (plan : Plan) (binds : List Bind) (U : Uses) (ds : List Decl) :
    Prop where
  names : ds.map Decl.name = (binds.filter plan.generalizes).map Bind.name
  bodies : ∀ d ∈ ds, ∃ e, d.body = some e ∧ termUses x U e

/-- The other bindings of a group have these definitions, with the schemas of their signatures or
without parameters. -/
structure OtherUses (x : Int) (plan : Plan) (binds : List Bind) (U : Uses) (ds : List Decl) :
    Prop where
  names : ds.map Decl.name = (binds.filter fun b => !plan.generalizes b).map Bind.name
  schemas : ∀ d ∈ ds, (plan.signatures.find? d.name.id = some d.schema) ∨
    plan.signatures.find? d.name.id = none ∧ ∃ t, d.schema = .mono t
  accounted : ∀ d ∈ ds, Accounted x U d.mentions

theorem lookup_tokens (m : Table Int (Int × Ty)) (x : Int) :
    (m.map fun e => (e.1, e.2.1)).lookup x = (m.find? x).map Prod.fst := by
  induction m with
  | nil => rfl
  | cons e m ih =>
    rw [List.map_cons, List.lookup_cons, Table.find?, ih]
    by_cases hx : x = e.1
    · rw [if_pos hx, beq_iff_eq.mpr hx]
      rfl
    · rw [if_neg hx, beq_eq_false_iff_ne.mpr hx]

theorem nil_of_uses_token {t : Int} {passed : List Passed} (h : s.uses E x (some t) passed) :
    passed = [] := by
  obtain ⟨v, -, hu⟩ := h
  cases v with
  | known sc => cases hu.1
  | inGroup token n t => exact hu.2

theorem accounted_generalizeGroup {plan : Plan} {binds : List Bind} {general : Infer (List Decl)}
    {gs : List Decl} (h : Returns (generalizeGroup plan general) c s gs s') (hs : Tidy s)
    (hgeneral : Covered x general (GeneralUses x plan binds)) :
    (plan.general = [] ∧ gs = [] ∨ gs.map Decl.name = (binds.filter plan.generalizes).map Bind.name) ∧
    ∀ d ∈ gs, Accounted x (fun token passed => headUses x gs token passed ∨
      s.uses c.external x token passed ∧ ∀ t, token = some t →
        (plan.general.find? x).map Prod.fst = some t →
        ∀ b ∈ binds, plan.generalizes b = true → b.name.id ≠ x) d.mentions := by
  unfold generalizeGroup at h
  split at h
  · rename_i hnil
    obtain ⟨rfl, -⟩ := returns_pure.mp h
    exact ⟨Or.inl ⟨List.isEmpty_iff.mp hnil, rfl⟩, List.forall_mem_nil _⟩
  · have hcollect : Covered x (collectGoals (do
        let ds ← general
        simplifyStore false
        return ds)) fun U r => GeneralUses x plan binds U r.1 :=
      covered_collectGoals (hgeneral.bind fun _ =>
        .andThen (framed_simplifyStore _).scoped fun _ => .pure fun _ h => h)
    obtain ⟨⟨ds, goals⟩, s₁, hds, h⟩ := returns_bind.mp h
    have hds := hcollect.covers hds hs
    obtain ⟨hnames, haccounted⟩ := accounted_generalize h hds.bodies fun _ _ => nil_of_uses_token
    refine ⟨Or.inr (hnames.trans hds.names), fun d hd => ?_⟩
    refine (haccounted d hd).imp (fun _ hm => hm) fun token passed hu => Or.inr ?_
    refine hu.imp_right fun ⟨hu, hkept⟩ => ⟨hu, fun t ht hfind b hb hgen hx => ?_⟩
    refine hkept t ht ((lookup_tokens ..).trans hfind) ?_
    have hmem : b.name ∈ ds.map Decl.name := by
      rw [hds.names]
      exact List.mem_map_of_mem (List.mem_filter.mpr ⟨hb, hgen⟩)
    obtain ⟨d', hd', hname⟩ := List.mem_map.mp hmem
    exact List.mem_map.mpr ⟨d', hd', by rw [hname, hx]⟩

/-- Among definitions of which at most one is of `x`, there is only that one. -/
theorem eq_of_count_le_one {ds : List Decl} (h : (ds.map fun d => d.name.id).count x ≤ 1)
    {d d' : Decl} (hd : d ∈ ds) (hd' : d' ∈ ds) (hx : d.name.id = x) (hx' : d'.name.id = x) :
    d = d' := by
  have hpos : ∀ {e : Decl} {es : List Decl}, e ∈ es → e.name.id = x →
      0 < (es.map fun d => d.name.id).count x := fun he hxe =>
    List.count_pos_iff.mpr (List.mem_map.mpr ⟨_, he, hxe⟩)
  induction ds with
  | nil => cases hd
  | cons e es ih =>
    rw [List.map_cons, List.count_cons] at h
    by_cases hxe : e.name.id = x
    · -- no other definition is of `x`
      have hnone : ∀ {e' : Decl}, e'.name.id = x → e' ∈ e :: es → e' = e := fun hxe' he' =>
        (List.mem_cons.mp he').resolve_right fun he' => by
          have := hpos he' hxe'
          simp [hxe] at h
          omega
      rw [hnone hx hd, hnone hx' hd']
    · have hrest : ∀ {e' : Decl}, e'.name.id = x → e' ∈ e :: es → e' ∈ es := fun hxe' he' =>
        (List.mem_cons.mp he').resolve_left fun heq => hxe (heq ▸ hxe')
      exact ih (by omega) (hrest hx hd) (hrest hx' hd')

/-- A group keeps the only definition of `x`. -/
theorem headUses_inOrder {binds : List Bind} {ds : List Decl}
    (honce : (ds.map fun d => d.name.id).count x ≤ 1)
    (hbinds : ∀ d ∈ ds, ∃ b ∈ binds, b.name = d.name) {token : Option Int} {passed : List Passed}
    (h : headUses x ds token passed) : headUses x (inOrder binds ds) token passed := by
  obtain ⟨d, hd, hx, hu⟩ := h
  refine ⟨d, ?_, hx, hu⟩
  obtain ⟨b, hb, hname⟩ := hbinds d hd
  refine List.mem_filterMap.mpr ⟨b, hb, ?_⟩
  have hkey : d.name.id ∈ (ds.map fun d => (d.name.id, d)).map Prod.fst := by
    rw [List.map_map]
    exact List.mem_map.mpr ⟨d, hd, rfl⟩
  obtain ⟨d', hfind, hmem⟩ := Table.exists_find?_ofList hkey
  obtain ⟨d'', hd'', heq⟩ := List.mem_map.mp hmem
  obtain ⟨hid, rfl⟩ := Prod.mk.inj heq
  rw [hname, hfind, eq_of_count_le_one honce hd hd'' hx (hid.trans hx)]

/-- A group accounts for its uses if each definition does, up to uses of the definitions. -/
theorem accounted_inOrder {binds : List Bind} {ds : List Decl}
    (honce : (ds.map fun d => d.name.id).count x ≤ 1)
    (hbinds : ∀ d ∈ ds, ∃ b ∈ binds, b.name = d.name)
    (h : ∀ d ∈ ds, Accounted x (fun token passed => headUses x ds token passed ∨ U token passed)
      d.mentions) : Accounted x U (mentionsDecls (inOrder binds ds)) := by
  intro n token passed hm hn
  rw [mentionsDecls_eq] at hm
  obtain ⟨d, hd, hm⟩ := List.mem_flatMap.mp hm
  have hsub : d.mentions ⊆ mentionsDecls (inOrder binds ds) := by
    rw [mentionsDecls_eq]
    exact fun m hm => List.mem_flatMap.mpr ⟨d, hd, hm⟩
  rcases h d (mem_of_mem_inOrder hd) n token passed hm hn with hbound | hhead | hu
  · exact Or.inl (boundUses_mono hsub hbound)
  · exact Or.inl (boundUses_of_headUses (headUses_inOrder honce hbinds hhead))
  · exact Or.inr hu

/-- A use of a planned variable belongs to one of the definitions that are not generalized, was
possible before, or is a place-holder for a binding to generalize. -/
theorem Plan.Entry.uses {plan : Plan} {binds : List Bind} {os : List Decl}
    (h : plan.Entry x binds (s.typeOf E x) (s₁.typeOf E x)) (hos : OtherUses x plan binds U os)
    {token : Option Int} {passed : List Passed} (hu : s₁.uses E x token passed) :
    headUses x os token passed ∨ s.uses E x token passed ∨
      ∃ t, token = some t ∧ (plan.general.find? x).map Prod.fst = some t ∧
        ∃ b ∈ binds, plan.generalizes b = true ∧ b.name.id = x := by
  obtain ⟨v, hv, hu⟩ := hu
  rw [hv] at h
  have hother : ∀ b ∈ binds, b.name.id = x → plan.generalizes b = false →
      ∃ d ∈ os, d.name.id = x := by
    intro b hb hx hgen
    have hmem : b.name ∈ os.map Decl.name := by
      rw [hos.names]
      exact List.mem_map_of_mem (List.mem_filter.mpr ⟨hb, by rw [hgen]; rfl⟩)
    obtain ⟨d, hd, hname⟩ := List.mem_map.mp hmem
    exact ⟨d, hd, hname ▸ hx⟩
  generalize hbefore : s.typeOf E x = before at h
  cases h with
  | outer => exact Or.inr (Or.inl ⟨v, hbefore, hu⟩)
  | @signed b sc hb hx hsig hfind =>
    have hgen : plan.generalizes b = false := by
      rw [Plan.generalizes, Option.isNone_eq_false_iff.mpr (Option.isSome_iff_ne_none.mpr hsig)]
      rfl
    obtain ⟨d, hd, hdx⟩ := hother b hb hx hgen
    have hschema := hos.schemas d hd
    rw [hdx, hfind] at hschema
    obtain ⟨rfl⟩ : sc = d.schema := by simpa using hschema
    exact Or.inl ⟨d, hd, hdx, hu⟩
  | @mono b t hb hx hmono hsigs =>
    have hgen : plan.generalizes b = false := by
      rw [Plan.generalizes, hmono]
      simp
    obtain ⟨d, hd, hdx⟩ := hother b hb hx hgen
    have hschema := hos.schemas d hd
    rw [hdx, hsigs] at hschema
    obtain ⟨t', ht'⟩ : ∃ t', d.schema = .mono t' := by simpa using hschema
    refine Or.inl ⟨d, hd, hdx, ?_⟩
    rw [ht']
    exact hu
  | @general b token' n t hb hx hsig hmono hfind =>
    refine Or.inr (Or.inr ⟨token', hu.1, by rw [hfind]; rfl, b, hb, ?_, hx⟩)
    rw [Plan.generalizes, hsig, hmono]
    rfl

/-- The definitions of a group have the names of its bindings. -/
theorem group_once {plan : Plan} {binds : List Bind} {gs os ds : List Decl}
    (hgs : plan.general = [] ∧ gs = [] ∨
      gs.map Decl.name = (binds.filter plan.generalizes).map Bind.name)
    (hos : OtherUses x plan binds U os) (hperm : ds.Perm (gs ++ os))
    (honce : (binds.map fun b => b.name.id).count x ≤ 1) :
    (ds.map fun d => d.name.id).count x ≤ 1 ∧ ∀ d ∈ ds, ∃ b ∈ binds, b.name = d.name := by
  have hids : ∀ es : List Decl, (es.map fun d => d.name.id) = (es.map Decl.name).map Name.id :=
    fun es => (List.map_map ..).symm
  have hparts := List.filter_append_perm plan.generalizes binds
  refine ⟨?_, fun d hd => ?_⟩
  · calc (ds.map fun d => d.name.id).count x
        = (gs.map fun d => d.name.id).count x + (os.map fun d => d.name.id).count x := by
          rw [(hperm.map _).count_eq, List.map_append, List.count_append]
      _ ≤ (((binds.filter plan.generalizes).map Bind.name).map Name.id).count x +
            (((binds.filter fun b => !plan.generalizes b).map Bind.name).map Name.id).count x := by
          rw [hids gs, hids os, hos.names]
          rcases hgs with ⟨-, rfl⟩ | hgs
          · exact Nat.add_le_add_right (Nat.zero_le _) _
          · rw [hgs]
      _ = (binds.map fun b => b.name.id).count x := by
          rw [List.map_map, List.map_map, ← List.count_append, ← List.map_append]
          exact (hparts.map _).count_eq x
      _ ≤ 1 := honce
  · have hname : d.name ∈ binds.map Bind.name := by
      rcases List.mem_append.mp (hperm.mem_iff.mp hd) with hd | hd
      · rcases hgs with ⟨-, rfl⟩ | hgs
        · cases hd
        · have hmem := List.mem_map_of_mem (f := Decl.name) hd
          rw [hgs] at hmem
          exact List.map_subset _ (List.filter_subset_self ..) hmem
      · have hmem := List.mem_map_of_mem (f := Decl.name) hd
        rw [hos.names] at hmem
        exact List.map_subset _ (List.filter_subset_self ..) hmem
    exact List.mem_map.mp hname

theorem accounted_checkGroup {top recursive : Bool} {binds : List Bind} {plan : Plan}
    {general others : Infer (List Decl)} {out : List Decl}
    (hplan : Returns (planGroup top recursive binds) c s plan s₁)
    (h : Returns (checkGroup plan recursive binds general others) c s₁ out s') (hs : Tidy s)
    (honce : (binds.map fun b => b.name.id).count x ≤ 1)
    (hgeneral : Covered x general (GeneralUses x plan binds))
    (hothers : Covered x others (OtherUses x plan binds)) :
    Accounted x (s.uses c.external x) (mentionsDecls out) := by
  obtain ⟨rfl, gs, s₂, os, s₃, hgs, hos, -, rfl⟩ | ⟨rfl, os, s₂, gs, s₃, hos, hgs, -, rfl⟩ :=
    returns_checkGroup h
  · obtain ⟨hs₁, hentry⟩ := entry_planGroup hplan hs honce
    have hvars := ((scoped_generalizeGroup hgeneral.toScoped).step hgs hs₁.sorted).vars
    have hs₂ : Tidy (s₂.pushAll (gs.map declVar)) := (hs₁.of_vars hvars).pushAll fun v hv token n t heq => by
      obtain ⟨d, -, rfl⟩ := List.mem_map.mp hv
      cases heq
    have hos := hothers.covers hos hs₂
    obtain ⟨hnames, hgs⟩ := accounted_generalizeGroup hgs hs₁ hgeneral
    obtain ⟨honce, hbinds⟩ := group_once hnames hos (List.Perm.refl _) honce
    refine accounted_inOrder honce hbinds (List.forall_mem_append.mpr ⟨fun d hd => ?_, fun d hd => ?_⟩)
    · refine (hgs d hd).imp (fun _ hm => hm) fun token passed hu => Or.inr ?_
      rcases hu with hhead | ⟨hu, hkept⟩
      · exact Or.inl (headUses_mono (List.subset_append_left ..) hhead)
      · rcases hentry.uses hos hu with hhead | hu | ⟨t, ht, hfind, b, hb, hgen, hx⟩
        · exact Or.inl (headUses_mono (List.subset_append_right ..) hhead)
        · exact Or.inr hu
        · exact absurd hx (hkept t ht hfind b hb hgen)
    · refine (hos.accounted d hd).imp (fun _ hm => hm) fun token passed hu => Or.inr ?_
      obtain ⟨v, hv, hu⟩ := hu
      rcases typeOf_pushAll (E := c.external) s₂ (gs.map declVar) x with
        ⟨w, hw, hx, htype⟩ | ⟨hnone, htype⟩
      · obtain ⟨d', hd', rfl⟩ := List.mem_map.mp hw
        obtain rfl := Option.some.inj (hv.symm.trans htype)
        exact Or.inl ⟨d', List.mem_append_left _ hd', hx, hu⟩
      · rw [hv, typeOf_of_vars hvars] at htype
        rcases hentry.uses hos ⟨v, htype.symm, hu⟩ with hhead | hu | ⟨t, -, hfind, b, hb, hgen, hx⟩
        · exact Or.inl (headUses_mono (List.subset_append_right ..) hhead)
        · exact Or.inr hu
        · -- the definition of a binding to generalize is declared by now
          rcases hnames with ⟨hempty, -⟩ | hnames
          · rw [hempty] at hfind
            cases hfind
          · have hmem : b.name ∈ gs.map Decl.name := by
              rw [hnames]
              exact List.mem_map_of_mem (List.mem_filter.mpr ⟨hb, hgen⟩)
            obtain ⟨d', hd', hname⟩ := List.mem_map.mp hmem
            exact absurd ((congrArg Name.id hname).trans hx) (hnone _ (List.mem_map_of_mem hd'))
  · obtain ⟨s₀, mono, hvars, hplan⟩ := returns_planGroup hplan
    have hvars₁ : s₁.vars = s.vars := (vars_planAll hplan).trans hvars
    have hs₁ := hs.of_vars hvars₁
    have hvars₂ := (hothers.step hos hs₁.sorted).vars
    have hos := hothers.covers hos hs₁
    obtain ⟨hnames, hgs⟩ := accounted_generalizeGroup hgs (hs₁.of_vars hvars₂) hgeneral
    obtain ⟨honce, hbinds⟩ := group_once hnames hos List.perm_append_comm honce
    refine accounted_inOrder honce hbinds (List.forall_mem_append.mpr ⟨fun d hd => ?_, fun d hd => ?_⟩)
    · refine (hos.accounted d hd).imp (fun _ hm => hm) fun token passed hu => Or.inr (Or.inr ?_)
      rwa [uses_of_vars hvars₁] at hu
    · refine (hgs d hd).imp (fun _ hm => hm) fun token passed hu => Or.inr ?_
      rw [uses_of_vars hvars₂, uses_of_vars hvars₁] at hu
      exact hu.imp (headUses_mono (List.subset_append_right ..)) And.left

end SizedTypes.Infer
