import SizedTypes.Proofs.Infer.Generalize.Minimal
import SizedTypes.Proofs.Infer.Mirror
import SizedTypes.Proofs.Infer.Params.Declarations
import SizedTypes.Proofs.Infer.RecursiveCalls

/-!
# Types of recursive calls

While a group is checked its members have types without parameters. When a call within the group is
closed for its caller, three maps meet: the parameters that the callee's variables became, the types
that the call passes for them, and the parameters and fixed types of the caller. The schema of the
callee at the types passed is the type that the callee had before, closed for the caller, and the
same goes for its predicates. This needs parameters that have been drawn for the callee alone.
-/

set_option autoImplicit false

namespace SizedTypes

variable {K : Set Int}

/-! ## Parameters of their own -/

/-- `k` draws from the counter give out ids that are not among `K`, each of them once. -/
structure Unused (K : Set Int) (next : Int) (k : Nat) : Prop where
  wrap : Unwrapped next k
  apart : Disjoint K (drawn next k)

/-- The ids that come later differ from those that have been drawn as well. -/
theorem Unused.rest {next : Int} {j k : Nat} (h : Unused K next (j + k)) :
    Unused (K ∪ drawn next j) (Word.next^[j] next) k where
  wrap := h.wrap.rest
  apart := Set.disjoint_union_left.mpr
    ⟨h.apart.mono_right (by rw [drawn_add]; exact Set.subset_union_right), h.wrap.disjoint⟩

/-- No id below the counter is drawn. -/
theorem Unwrapped.unused {next : Int} {k : Nat} (h : Unwrapped next k) :
    Unused {i | i < next} next k where
  wrap := h
  apart := Set.disjoint_left.mpr fun _ hlt hmem => absurd hlt (not_lt.mpr (h.mem_drawn hmem).1)

namespace Infer

open SizedTypes.Core (Decl Term)

variable {ds out : List Decl} {goals : List Goal} {group : List (Int × Int)} {c : Context}
  {s s' : State} {g : Generalization}

/-- What has nothing to do with the solver returns with any other one as well. -/
theorem Steady.returns_asking {α : Type} {act : Infer α} {a : α} (h : Steady act) (S : Solver)
    (ha : Returns act c s a s') : Returns act (c.asking S) s a s' := by
  have hrecord := h.exec_record c s
  have hunder := h.exec_under c s S s.queries s.cancelled
  rw [← hrecord] at hunder
  exact hunder.trans ha

theorem nodup_params_of_draw {cl cl' : Closing} (h : Returns cl.draw c s cl' s')
    (hwrap : Unwrapped s.nextTypeVar cl'.params.length) : (cl'.params.map Param.id).Nodup := by
  unfold Closing.draw at h
  simp only [returns_bind, returns_get, returns_set, returns_pure] at h
  obtain ⟨_, _, ⟨rfl, rfl⟩, ⟨⟩, _, rfl, rfl, rfl⟩ := h
  have hroom : _ + ((quantifyVars cl.vars _).1.length : Int) ≤ Word.maxValue := hwrap.2
  rw [length_quantifyVars] at hroom
  exact nodup_freshParams hwrap.1 (by omega)

/-- The parameters of each closing of a group have different ids, none of which has been drawn
before. -/
theorem unused_of_draws {cls cls' : List Closing}
    (h : Returns (cls.mapM Closing.draw) c s cls' s') :
    ∃ k, Drew k s s' ∧ (Unused K s.nextTypeVar k → ∀ cl ∈ cls',
      (cl.params.map Param.id).Nodup ∧ ∀ p ∈ cl.params, p.id ∉ K) := by
  induction cls generalizing cls' s K with
  | nil =>
    obtain ⟨rfl, rfl⟩ := returns_mapM_nil.mp h
    exact ⟨0, ⟨rfl, rfl⟩, fun _ => List.forall_mem_nil _⟩
  | cons cl cls ih =>
    obtain ⟨cl', s₁, rest, hcl, hrest, rfl⟩ := returns_mapM_cons.mp h
    obtain ⟨hfirst, hids⟩ := drew_draw hcl
    obtain ⟨k, hdrew, hrest⟩ := ih (K := K ∪ drawn s.nextTypeVar cl'.params.length) hrest
    refine ⟨_, hfirst.trans hdrew, fun hunused => List.forall_mem_cons.mpr ⟨⟨?_, ?_⟩, ?_⟩⟩
    · exact nodup_params_of_draw hcl (hunused.wrap.of_le (Nat.le_add_right ..))
    · refine fun p hp hK => Set.disjoint_left.mp hunused.apart hK ?_
      rw [drawn_add]
      exact Or.inl (hids p hp)
    · rw [hfirst.next] at hrest
      intro cl hcl
      obtain ⟨hnodup, hnew⟩ := hrest hunused.rest cl hcl
      exact ⟨hnodup, fun p hp hK => hnew p hp (Or.inl hK)⟩

/-- Once the goals of a group are simplified, the types of its bindings and what is left of its
goals have their parameters among those that were around and ids that have been drawn. -/
theorem paramsIn_of_runsFrom (h : g.RunsFrom ds goals group c s)
    (hdefault : Returns (defaultVars (g.ambiguous ds goals group) (g.here ds goals group)) c
      { g.selected with goals := g.selected.goals ++ (g.startGoals goals).filter fun e =>
        !e.prop.mentions (g.candidates ds goals group) } ⟨⟩ g.defaulted)
    (hc : c.external.ParamsIn K) (hs : s.ParamsIn K) (hds : ∀ d ∈ ds, d.schema.ParamsIn K)
    (hgoals : GoalsIn K goals) : ∃ k, Drew k s g.simplified ∧
      (∀ t ∈ g.bodies ds, t.ParamsIn (K ∪ drawn s.nextTypeVar k)) ∧
      GoalsIn (K ∪ drawn s.nextTypeVar k) g.left := by
  -- none of the stages asks the solver
  have hc : (c.asking .localRules).ParamsIn K := ⟨hc, Solver.confined_localRules⟩
  obtain ⟨k₁, hdrew₁, hs₁, -⟩ := draws_solveSelectors.step
    (steady_solveSelectors.returns_asking _ h.selectors) hc hs
  have hK₁ : K ⊆ K ∪ drawn s.nextTypeVar k₁ := Set.subset_union_left
  have hstart : GoalsIn (K ∪ drawn s.nextTypeVar k₁) (g.startGoals goals) :=
    List.forall_mem_map.mpr fun e he => hs₁.subst.apply ((hgoals e he).mono hK₁)
  have hbodies : ∀ t ∈ g.startBodies ds, t.ParamsIn (K ∪ drawn s.nextTypeVar k₁) :=
    List.forall_mem_map.mpr fun d hd => hs₁.subst.apply ((hds d hd).body.mono hK₁)
  obtain ⟨k₂, hdrew₂, hs₂, -⟩ := (draws_defaultVars ..).step
    ((steady_defaultVars ..).returns_asking _ hdefault) (hc.mono hK₁)
    { hs₁ with
      goals := List.forall_mem_append.mpr
        ⟨hs₁.goals, fun e he => hstart e (List.mem_filter.mp he).1⟩ }
  have hK₂ : K ∪ drawn s.nextTypeVar k₁ ⊆
      K ∪ drawn s.nextTypeVar k₁ ∪ drawn g.selected.nextTypeVar k₂ := Set.subset_union_left
  obtain ⟨k₃, hdrew₃, hs₃, hleft⟩ := (draws_simplifyGoals fun e he =>
    (hstart e (List.mem_filter.mp he).1).mono hK₂).step
      ((steady_simplifyGoals _).returns_asking _ h.simplify) (hc.mono (hK₁.trans hK₂)) hs₂
  have hids : K ∪ drawn s.nextTypeVar k₁ ∪ drawn g.selected.nextTypeVar k₂ ∪
      drawn g.defaulted.nextTypeVar k₃ = K ∪ drawn s.nextTypeVar (k₁ + k₂ + k₃) := by
    rw [hdrew₂.next, hdrew₁.next, ← Function.iterate_add_apply, Nat.add_comm k₂ k₁, drawn_add,
      drawn_add, Set.union_assoc, Set.union_assoc, Set.union_assoc]
  rw [hids] at hs₃ hleft
  refine ⟨_, (hdrew₁.trans ⟨hdrew₂.draws, hdrew₂.next⟩).trans hdrew₃, ?_, hleft⟩
  refine List.forall_mem_map.mpr fun t ht => hs₃.subst.apply ((hbodies t ht).mono ?_)
  rw [← hids]
  exact hK₂.trans Set.subset_union_left

/-- A run of `generalize` from a state with parameters among `K` draws the parameters of each
binding for it alone: its type and its predicates mention none of them. -/
theorem fresh_of_generalize (h : Returns (generalize ds goals group) c s out s')
    (hc : c.external.ParamsIn K) (hs : s.ParamsIn K) (hds : ∀ d ∈ ds, d.schema.ParamsIn K)
    (hgoals : GoalsIn K goals) (hunused : Unused K s.nextTypeVar (s'.draws - s.draws)) :
    ∃ g : Generalization, g.RunsFrom ds goals group c s ∧ out = g.result ds group ∧
      s'.subst = g.simplified.subst ∧
      ∀ e ∈ g.entries ds, e.1.1.Fresh (e.1.2 :: e.1.1.props) := by
  obtain ⟨g, hrun, hout, hdefault, events, rfl⟩ := stores_generalize h
  refine ⟨g, hrun, hout, rfl, fun e he => ?_⟩
  obtain ⟨k, hdrew, hbodies, hleft⟩ := paramsIn_of_runsFrom hrun hdefault hc hs hds hgoals
  obtain ⟨outer, hdraw⟩ := hrun.draw
  obtain ⟨j, hdrew', hnew⟩ := unused_of_draws (K := K ∪ drawn s.nextTypeVar k) hdraw
  have hdraws : g.drawn.draws - s.draws = k + j := by
    rw [hdrew'.draws, hdrew.draws]
    omega
  rw [hdraws] at hunused
  obtain ⟨hnodup, hnew⟩ := hnew (hdrew.next ▸ hunused.rest) e.1.1 (Generalization.mem_closings he)
  have hparams : ∀ t ∈ e.1.2 :: e.1.1.props, t.ParamsIn (K ∪ drawn s.nextTypeVar k) := by
    refine List.forall_mem_cons.mpr ⟨hbodies _ (List.of_mem_zip (List.of_mem_zip he).1).2, ?_⟩
    intro p hp
    have hgroup := hrun.mem_group_props (Generalization.mem_closings he) hp
    obtain ⟨l, hl, rfl⟩ := List.mem_map.mp hgroup
    exact hleft l (List.mem_filter.mp hl).1
  refine ⟨hnodup, fun t ht i hi hmem => ?_⟩
  obtain ⟨p, hp, rfl⟩ := List.mem_map.mp hmem
  rw [← Ty.paramIds_eq_shape] at hi
  obtain ⟨q, hq, heq⟩ := List.mem_map.mp hi
  exact hnew p hp (heq ▸ (hparams t ht).mem q hq)

/-! ## Variables at closed types -/

theorem bindings_subset_extendOrSkip (θ : Subst) (v : TyVar) (t : Ty) :
    θ.bindings ⊆ (θ.extendOrSkip v t).bindings := by
  unfold Subst.extendOrSkip
  split
  · rename_i hext
    rcases Subst.extend_eq_ok hext with ⟨rfl, -, -⟩ | hext
    · exact List.Subset.refl _
    · rw [hext.eq]
      exact List.subset_cons_self ..
  · exact List.Subset.refl _

/-- A variable can be fixed at the closed type for its kind, unless it is bound already. -/
theorem exists_binding_closedFor {θ : Subst} {v : TyVar} {t : Ty} (ht : closedFor v.kind = some t) :
    ∃ b ∈ (θ.extendOrSkip v t).bindings, b.1.id = v.id := by
  by_cases hbound : ∃ b ∈ θ.bindings, b.1.id = v.id
  · obtain ⟨b, hb, hid⟩ := hbound
    exact ⟨b, bindings_subset_extendOrSkip θ v t hb, hid⟩
  · have hlookup : θ.lookup v.id = none :=
      Subst.lookup_eq_none_iff.mpr fun b hb hid => hbound ⟨b, hb, hid⟩
    have hparams : t.params = [] := by
      unfold closedFor at ht
      split at ht <;> cases ht <;> rfl
    obtain ⟨θ', hext⟩ := Subst.extend_isOk (t := t) hlookup
      (by simp [apply_closedFor ht, varIds_closedFor ht]) (by simp [apply_closedFor ht, hparams])
    rw [Subst.extendOrSkip, hext]
    rcases Subst.extend_eq_ok hext with ⟨-, -, hshape⟩ | hext
    · have hvars := varIds_closedFor ht
      rw [apply_closedFor ht] at hshape
      rw [Ty.varIds_eq_shape, hshape] at hvars
      cases hvars
    · rw [hext.eq]
      exact ⟨_, List.mem_cons_self .., rfl⟩

/-- Each variable for whose kind there is a closed type gets fixed. -/
theorem exists_binding_fix {vs : List TyVar} {θ : Subst} {v : TyVar} {t : Ty}
    (ht : closedFor v.kind = some t) (hv : v ∈ vs ∨ ∃ b ∈ θ.bindings, b.1.id = v.id) :
    ∃ b ∈ (vs.foldl (fun s v => match closedFor v.kind with
      | some t => s.extendOrSkip v t
      | none => s) θ).bindings, b.1.id = v.id := by
  induction vs generalizing θ with
  | nil => exact hv.resolve_left List.not_mem_nil
  | cons w ws ih =>
    rw [List.foldl_cons]
    refine ih ?_
    rcases hv with hv | ⟨b, hb, hid⟩
    · rcases List.mem_cons.mp hv with rfl | hv
      · rw [ht]
        exact Or.inr (exists_binding_closedFor ht)
      · exact Or.inl hv
    · refine Or.inr ⟨b, ?_, hid⟩
      split
      · exact bindings_subset_extendOrSkip _ _ _ hb
      · exact hb

theorem triangular_fix {vs : List TyVar} {θ : Subst} (h : θ.Triangular) :
    (vs.foldl (fun s v => match closedFor v.kind with
      | some t => s.extendOrSkip v t
      | none => s) θ).Triangular := by
  induction vs generalizing θ with
  | nil => exact h
  | cons v vs ih =>
    rw [List.foldl_cons]
    refine ih ?_
    split
    · exact Subst.triangular_extendOrSkip h ..
    · exact h

/-- A variable of the group over which a binding does not abstract has the closed type for its
kind. -/
theorem Closing.image_others {body : Ty} {seeds : List Ty} {vars : List TyVar} {props : List Ty}
    (hnodup : (vars.map TyVar.id).Nodup) {v : TyVar} (hv : v ∈ vars)
    (hown : v.id ∉ ownIds body seeds vars props) {t : Ty} (ht : closedFor v.kind = some t) :
    (Closing.of body seeds vars props).others.image v.id = t.shape := by
  have htriangular : (Closing.of body seeds vars props).others.Triangular := by
    rw [Closing.of, List.partition_eq_filter_filter]
    exact triangular_fix Subst.triangular_empty
  obtain ⟨b, hb, hid⟩ : ∃ b ∈ (Closing.of body seeds vars props).others.bindings,
      b.1.id = v.id := by
    rw [Closing.of, List.partition_eq_filter_filter]
    exact exists_binding_fix ht (Or.inl (List.mem_filter.mpr ⟨hv, by simpa using hown⟩))
  obtain ⟨hmem, -, hclosed⟩ := Closing.mem_bindings_others hb
  obtain rfl := List.inj_on_of_nodup_map hnodup hmem hv hid
  obtain rfl := Option.some.inj (hclosed.symm.trans ht)
  rw [htriangular.solves b hb]
  refine Shape.subst_eq_self fun i hi => ?_
  rw [← Ty.varIds_eq_shape, varIds_closedFor ht] at hi
  cases hi

/-! ## Closed types -/

theorem Closing.shape_close_congr {cl : Closing} {θ : Subst} {t u : Ty}
    (h : (θ.apply t).shape = (θ.apply u).shape) :
    (cl.close θ t).shape = (cl.close θ u).shape := by
  rw [Closing.close, Closing.close, Ty.shape_quantify, Ty.shape_quantify, Subst.shape_apply, h,
    ← Subst.shape_apply]

/-- The type of an entry is that of its definition, brought up to date. -/
theorem Generalization.body_of_entry {e : (Closing × Ty) × Decl} (he : e ∈ g.entries ds) :
    e.1.2 = g.simplified.subst.apply (g.selected.subst.apply e.2.schema.body) := by
  obtain ⟨n, hn, rfl⟩ := List.mem_iff_getElem.mp he
  simp only [Generalization.entries, List.getElem_zip, Generalization.bodies,
    Generalization.startBodies, List.getElem_map]

namespace Generalization.RunsFrom

variable (h : g.RunsFrom ds goals group c s) (hs : s.subst.Triangular)

include h hs

theorem triangular_simplified : g.simplified.subst.Triangular :=
  h.bindsConstants.triangular (h.triangular_selected hs)

/-- What the group quantifies is not bound. -/
theorem lookup_vars {v : TyVar} (hv : v ∈ g.vars ds goals group) :
    g.simplified.subst.lookup v.id = none := by
  obtain ⟨t, ht, hvt⟩ := Ty.mem_freeVars (List.mem_filter.mp hv).1
  have hvt : v.id ∈ t.varIds := List.mem_map_of_mem hvt
  rcases List.mem_append.mp ht with ht | ht
  · obtain ⟨b, -, rfl⟩ := List.mem_map.mp ht
    exact (h.triangular_simplified hs).lookup_of_mem_varIds hvt
  · exact h.lookup_props hs ht hvt

/-- The type of a member is closed alike before and after the group is simplified. -/
theorem shape_close_body {cl : Closing} (d : Decl) :
    (cl.close g.simplified.subst
        (g.simplified.subst.apply (g.selected.subst.apply d.schema.body))).shape =
      (cl.close g.simplified.subst d.schema.body).shape := by
  have hsolves := (h.triangular_simplified hs).solves
  refine Closing.shape_close_congr ?_
  calc (g.simplified.subst.apply (g.simplified.subst.apply
          (g.selected.subst.apply d.schema.body))).shape
    _ = (g.simplified.subst.apply (g.selected.subst.apply d.schema.body)).shape :=
      (h.triangular_simplified hs).apply_apply _
    _ = (g.selected.subst.apply d.schema.body).shape.subst g.simplified.subst.image :=
      Subst.shape_apply ..
    _ = d.schema.body.shape.subst g.simplified.subst.image :=
      (h.bindsConstants.solves hsolves).shape_apply _
    _ = (g.simplified.subst.apply d.schema.body).shape := (Subst.shape_apply ..).symm

/-- A binding puts its own parameters in place of the variables over which it abstracts. -/
theorem shape_close_own {e : (Closing × Ty) × Decl} (he : e ∈ g.entries ds) {v : TyVar}
    (hv : v ∈ e.1.1.vars) : ∃ p ∈ e.1.1.params,
      (e.1.1.close g.simplified.subst (.free v)).shape = .param p.id := by
  obtain ⟨hdrawn, -⟩ := h.closing_of_entry he
  obtain ⟨p, hp, hfind⟩ := hdrawn.find? hv
  have hgroup := h.mem_vars (mem_closings he) hv
  have hothers : e.1.1.others.lookup v.id = none :=
    h.lookup_others (mem_closings he) fun w hw heq =>
      List.inj_on_of_nodup_map nodup_vars hw hgroup heq ▸ hv
  refine ⟨p, hp, ?_⟩
  rw [Closing.shape_close, Ty.shape_free, Shape.subst_var, Closing.image,
    Subst.image_eq_var (h.lookup_vars hs hgroup), Shape.subst_var, Subst.image_eq_var hothers,
    Shape.bind_var, hfind, Option.map_some, Option.getD_some]

/-- It puts closed types in place of the other variables of the group. -/
theorem shape_close_fixed {e : (Closing × Ty) × Decl} (he : e ∈ g.entries ds) {v : TyVar}
    (hgroup : v ∈ g.vars ds goals group) (hv : v ∉ e.1.1.vars) {t : Ty}
    (ht : closedFor v.kind = some t) :
    (e.1.1.close g.simplified.subst (.free v)).shape = t.shape := by
  obtain ⟨-, hof⟩ := h.closing_of_entry he
  have himage : e.1.1.others.image v.id = t.shape := by
    rw [hof] at hv ⊢
    exact Closing.image_others nodup_vars hgroup
      (fun hown => hv (Closing.mem_vars_of.mpr ⟨hgroup, hown⟩)) ht
  rw [Closing.shape_close, Ty.shape_free, Shape.subst_var, Closing.image,
    Subst.image_eq_var (h.lookup_vars hs hgroup), Shape.subst_var, himage]
  refine Shape.subst_eq_self fun i hi => ?_
  rw [← Ty.varIds_eq_shape, varIds_closedFor ht] at hi
  cases hi

omit hs in
/-- A name of the group stands for one of its members. -/
theorem exists_entry_of_name {id : Int} (hid : id ∈ ds.map fun d => d.name.id) :
    ∃ e ∈ g.entries ds, e.2.name.id = id ∧ g.closingOf ds id = some e.1.1 := by
  have hkeys : ((ds.map fun d => d.name.id).zip g.closings).map Prod.fst =
      ds.map fun d => d.name.id :=
    List.map_fst_zip (by rw [List.length_map, h.length_closings])
  obtain ⟨callee, hfind, hmem⟩ := Table.exists_find?_ofList (hkeys.symm ▸ hid)
  obtain ⟨n, hn, heq⟩ := List.mem_iff_getElem.mp hmem
  rw [List.getElem_zip, List.getElem_map] at heq
  obtain ⟨hname, hcallee⟩ := Prod.mk.inj heq
  simp only [List.length_zip, List.length_map, lt_inf_iff] at hn
  have hbodies : n < (g.bodies ds).length := by
    rw [length_bodies]
    exact hn.1
  refine ⟨((g.closings[n], (g.bodies ds)[n]), ds[n]), List.mem_iff_getElem.mpr ⟨n, ?_, ?_⟩,
    hname, ?_⟩
  · simp only [entries, List.length_zip]
    omega
  · simp only [entries, List.getElem_zip]
  · rw [hcallee]
    exact hfind

/-- What the group does not quantify in the type of a member is closed to itself. -/
theorem image_of_body {e e' : (Closing × Ty) × Decl} (he : e ∈ g.entries ds)
    (he' : e' ∈ g.entries ds) {i : Int} (hi : i ∈ e'.1.2.varIds)
    (hown : ∀ v ∈ e'.1.1.vars, v.id ≠ i) : e.1.1.image g.simplified.subst i = .var i := by
  have hvars : ∀ v ∈ g.vars ds goals group, v.id ≠ i := by
    rintro v hv rfl
    refine hown v ?_ rfl
    rw [(h.closing_of_entry he').2]
    exact Closing.mem_vars_of.mpr ⟨hv, mem_ownIds hv hi⟩
  have hlookup : g.simplified.subst.lookup i = none := by
    obtain ⟨b, -, heq⟩ := List.mem_map.mp (List.of_mem_zip (List.of_mem_zip he').1).2
    rw [← heq] at hi
    exact (h.triangular_simplified hs).lookup_of_mem_varIds hi
  exact Closing.image_eq_var hlookup
    (h.lookup_others (mem_closings he) fun v hv heq => absurd heq (hvars v hv))
    (h.find?_byVar (mem_closings he) fun v hv => hvars v (h.mem_vars (mem_closings he) hv))

/-- Likewise for its predicates. -/
theorem image_of_props {e e' : (Closing × Ty) × Decl} (he : e ∈ g.entries ds)
    (he' : e' ∈ g.entries ds) {p : Ty} (hp : p ∈ e'.1.1.props) {i : Int} (hi : i ∈ p.varIds)
    (hown : ∀ v ∈ e'.1.1.vars, v.id ≠ i) : e.1.1.image g.simplified.subst i = .var i := by
  refine h.image_eq_var hs (mem_closings he) (h.mem_group_props (mem_closings he') hp) hi ?_
  rintro v hv rfl
  exact hown v (h.mem_vars_of_mem_props (mem_closings he') hp hv hi) rfl

end Generalization.RunsFrom

/-! ## Calls within a group -/

/-- In the definition of a member of a group, each placeholder of a member becomes a call of it.
The types that the call passes are parameters of the caller and fixed closed types, as its variables
are the caller's or not. At these types the schema of the callee is the type that the callee had
while the group was checked, closed for the caller, with the predicates closed for the caller. -/
theorem recursiveUse_types (h : Returns (generalize ds goals group) c s out s')
    (hs : s.subst.Triangular) (hc : c.external.ParamsIn K) (hK : s.ParamsIn K)
    (hds : ∀ d ∈ ds, d.schema.ParamsIn K) (hgoals : GoalsIn K goals)
    (hunused : Unused K s.nextTypeVar (s'.draws - s.draws)) :
    ∃ g : Generalization, g.RunsFrom ds goals group c s ∧ out = g.result ds group ∧
      ∀ caller ∈ g.entries ds, ∀ n token, group.lookup n.id = some token →
        n.id ∈ ds.map (fun d => d.name.id) →
        ∃ callee ∈ g.entries ds, callee.2.name.id = n.id ∧
          let close := caller.1.1.close s'.subst
          let sc := (g.closed ds group callee).schema
          let args := callee.1.1.vars.map fun v => close (.free v)
          recursiveUse group (g.closingOf ds) close n token =
            some ((Term.var n).instantiated args sc.props.length) ∧
          (∀ v ∈ callee.1.1.vars,
            (v ∈ caller.1.1.vars → ∃ p ∈ (g.closed ds group caller).schema.params,
              (close (.free v)).same (.bound p) = true) ∧
            (v ∉ caller.1.1.vars → ∀ t, closedFor v.kind = some t →
              (close (.free v)).same t = true)) ∧
          (sc.instantiate args).2.same (close callee.2.schema.body) = true ∧
          List.Forall₂ (fun q p => q.same (close p) = true) (sc.instantiate args).1
            callee.1.1.props := by
  obtain ⟨g, hrun, hout, hsubst, hfresh⟩ := fresh_of_generalize h hc hK hds hgoals hunused
  refine ⟨g, hrun, hout, fun caller hcaller n token htoken hname => ?_⟩
  obtain ⟨callee, hcallee, hid, hfind⟩ := hrun.exists_entry_of_name hname
  have hdrawn := (hrun.closing_of_entry hcallee).1
  have horder := (hrun.vars_of_entry hcallee).1
  obtain ⟨hnodup, hnone⟩ := hfresh callee hcallee
  rw [hsubst]
  refine ⟨callee, hcallee, hid, ?_, fun v hv => ⟨fun hown => ?_, fun hown t ht => ?_⟩, ?_, ?_⟩
  · have hlen : (g.closed ds group callee).schema.props.length = callee.1.1.props.length :=
      List.length_map _
    rw [recursiveUse, htoken, hfind, hlen]
    exact if_pos (beq_self_eq_true _)
  · obtain ⟨p, hp, hshape⟩ := hrun.shape_close_own hs hcaller hown
    exact ⟨p, hp, (Ty.same_iff_shape ..).mpr hshape⟩
  · rw [Ty.same_iff_shape]
    exact hrun.shape_close_fixed hs hcaller (hrun.mem_vars (Generalization.mem_closings hcallee) hv)
      hown ht
  · rw [Ty.same_iff_shape, ← hrun.shape_close_body hs callee.2,
      ← Generalization.body_of_entry hcallee]
    refine Closing.shape_instantiate_quantify hdrawn horder ⟨hnodup, ?_⟩ fun i hi hown =>
      hrun.image_of_body hs hcaller hcallee hi hown
    exact List.forall_mem_singleton.mpr (hnone _ (List.mem_cons_self ..))
  · refine List.forall₂_map_left_iff.mpr (List.forall₂_map_left_iff.mpr ?_)
    refine List.forall₂_same.mpr fun p hp => (Ty.same_iff_shape ..).mpr ?_
    refine Closing.shape_instantiate_quantify hdrawn horder ⟨hnodup, ?_⟩ fun i hi hown =>
      hrun.image_of_props hs hcaller hcallee hp hi hown
    exact List.forall_mem_singleton.mpr (hnone p (List.mem_cons_of_mem _ hp))

/-! The call of `g` at the empty tuple again. -/

def drawsTwo : Bool :=
  match (generalize [callsLiteral, takesLiteral] [fiveGoal] [(10, 1), (11, 2)]).exec
    emptyContext noVars with
  | (.ok _, s') => s'.draws == 2
  | _ => false

/-- Called from `f` as well as from itself, `g` has the type that it had before, closed for the
caller. -/
theorem recursiveUse_types_takesLiteral : ∃ out s',
    Returns (generalize [callsLiteral, takesLiteral] [fiveGoal] [(10, 1), (11, 2)]) emptyContext
      noVars out s' ∧ Unused {i | i < 5} 5 s'.draws ∧
    ∃ g : Generalization, out = g.result [callsLiteral, takesLiteral] [(10, 1), (11, 2)] ∧
      ∀ caller ∈ g.entries [callsLiteral, takesLiteral],
        ∃ callee ∈ g.entries [callsLiteral, takesLiteral], callee.2.name.id = 11 ∧ ∃ args,
          ((g.closed [callsLiteral, takesLiteral] [(10, 1), (11, 2)] callee).schema.instantiate
            args).2.same (caller.1.1.close s'.subst callee.2.schema.body) = true := by
  have h : drawsTwo = true := by decide +kernel
  unfold drawsTwo at h
  split at h
  · rename_i out s' heq
    have hunused : Unused {i | i < 5} 5 s'.draws := by
      rw [beq_iff_eq.mp h]
      exact Unwrapped.unused (by decide)
    have hexternal : emptyContext.external.ParamsIn {i | i < 5} := by
      constructor <;> exact List.forall_mem_nil _
    have hstate : noVars.ParamsIn {i | i < 5} := by
      constructor <;> exact List.forall_mem_nil _
    have hds : ∀ d ∈ [callsLiteral, takesLiteral], d.schema.ParamsIn {i | i < 5} := by
      simp [callsLiteral, takesLiteral, Decl.schema, Schema.paramsIn_mono]
    have hgoals : GoalsIn {i | i < 5} [fiveGoal] := by
      simp [GoalsIn, fiveGoal, Ty.cls]
    obtain ⟨g, -, hout, hall⟩ :=
      recursiveUse_types heq Subst.triangular_empty hexternal hstate hds hgoals hunused
    refine ⟨out, s', heq, hunused, g, hout, fun caller hcaller => ?_⟩
    obtain ⟨callee, hcallee, hid, -, -, hbody, -⟩ := hall caller hcaller takesLiteral.name 2 rfl
      (by decide)
    exact ⟨callee, hcallee, hid, _, hbody⟩
  · cases h

end Infer
end SizedTypes
