import SizedTypes.Proofs.Infer.Frame.Recursion
import SizedTypes.Proofs.Infer.Goals.Settled
import SizedTypes.Proofs.Infer.Heads
import SizedTypes.Proofs.Infer.InForce
import SizedTypes.Proofs.Infer.Uses.Groups

/-!
# Generalization is minimal, closed and loses no goal

Each parameter of a generalized schema occurs in its body or its predicates, and the variables left
in it are variables of the environment. What simplification leaves of the goals of the group is a
predicate of one of its schemas if it is about a variable that the group may quantify, and goes to
the enclosing group otherwise.
-/

set_option autoImplicit false

namespace SizedTypes

namespace Ty

theorem nodup_dedupVars (seen : List Int) (vs : List TyVar) :
    ((dedupVars seen vs).map TyVar.id).Nodup ∧ ∀ v ∈ dedupVars seen vs, v.id ∉ seen := by
  induction vs generalizing seen with
  | nil => exact ⟨List.nodup_nil, List.forall_mem_nil _⟩
  | cons v vs ih =>
    rw [dedupVars]
    split
    · exact ih seen
    · rename_i hnew
      obtain ⟨hnodup, hseen⟩ := ih (v.id :: seen)
      refine ⟨?_, List.forall_mem_cons.mpr ⟨by simpa using hnew, fun w hw => ?_⟩⟩
      · rw [List.map_cons, List.nodup_cons]
        refine ⟨fun hmem => ?_, hnodup⟩
        obtain ⟨w, hw, heq⟩ := List.mem_map.mp hmem
        exact hseen w hw (heq ▸ List.mem_cons_self ..)
      · exact fun hmem => hseen w hw (List.mem_cons_of_mem _ hmem)

end Ty

namespace Infer

open SizedTypes.Core (Decl Term)

/-! ## Connected variables -/

/-- The connected variables are the fewest that connected predicates do not lead out of. -/
theorem connectedVars_subset {fixed : List Int} {fuel : Nat} {ids : List Int} {ps : List Ty}
    {all : List Int} (hids : ids ⊆ all)
    (hall : ∀ p ∈ ps, p.mentions all = true → ∀ i ∈ p.varIds, i ∉ fixed → i ∈ all) :
    connectedVars fixed fuel ids ps ⊆ all := by
  induction fuel generalizing ids ps with
  | zero => exact hids
  | succ fuel ih =>
    rw [connectedVars, List.partition_eq_filter_filter]
    split
    · exact hids
    · rename_i near far _ hsplit
      obtain ⟨rfl, rfl⟩ := Prod.mk.inj hsplit
      refine ih (List.append_subset.mpr ⟨hids, fun i hi => ?_⟩) fun p hp =>
        hall p (List.mem_filter.mp hp).1
      obtain ⟨hi, hfixed⟩ := List.mem_filter.mp hi
      obtain ⟨p, hp, hi⟩ := Ty.mem_freeIds.mp hi
      obtain ⟨hp, hnear⟩ := List.mem_filter.mp hp
      refine hall p hp ?_ i hi (by simpa using hfixed)
      obtain ⟨j, hj, hmem⟩ := List.any_eq_true.mp hnear
      exact List.any_eq_true.mpr ⟨j, hj, List.contains_iff_mem.mpr
        (hids (List.contains_iff_mem.mp hmem))⟩

variable {body : Ty} {seeds : List Ty} {vars : List TyVar} {props : List Ty}

/-- A binding abstracts over no fewer variables if it starts from those of more predicates. -/
theorem ownIds_subset : ownIds body [] vars props ⊆ ownIds body seeds vars props := by
  refine connectedVars_subset (fun i hi => mem_connectedVars ?_) fun p hp hmentions i hi hfixed =>
    mem_connectedVars_of_mentions (Nat.lt_succ_self _) hp hmentions hi hfixed
  obtain ⟨hi, hfixed⟩ := List.mem_filter.mp hi
  obtain ⟨t, ht, hi⟩ := Ty.mem_freeIds.mp hi
  refine List.mem_filter.mpr ⟨Ty.mem_freeIds.mpr ⟨t, ?_, hi⟩, hfixed⟩
  exact List.mem_singleton.mp ht ▸ List.mem_cons_self ..

/-- Each variable over which a binding abstracts occurs in its type or in a predicate that it
keeps. -/
theorem occurs_of_mem_ownIds (hseeds : seeds ⊆ props) {i : Int}
    (hi : i ∈ ownIds body seeds vars props) : i ∈ body.varIds ∨
      ∃ p ∈ props.filter (Ty.mentions (ownIds body seeds vars props)), i ∈ p.varIds := by
  have hall : ownIds body seeds vars props ⊆ Ty.freeIds (body :: props) := by
    refine connectedVars_subset (fun j hj => ?_) fun p hp _ j hj _ =>
      Ty.mem_freeIds.mpr ⟨p, List.mem_cons_of_mem _ hp, hj⟩
    obtain ⟨t, ht, hj⟩ := Ty.mem_freeIds.mp (List.mem_filter.mp hj).1
    refine Ty.mem_freeIds.mpr ⟨t, ?_, hj⟩
    rcases List.mem_cons.mp ht with rfl | ht
    · exact List.mem_cons_self ..
    · exact List.mem_cons_of_mem _ (hseeds ht)
  obtain ⟨t, ht, hit⟩ := Ty.mem_freeIds.mp (hall hi)
  rcases List.mem_cons.mp ht with rfl | ht
  · exact Or.inl hit
  · refine Or.inr ⟨t, List.mem_filter.mpr ⟨ht, ?_⟩, hit⟩
    exact List.any_eq_true.mpr ⟨i, hit, List.contains_iff_mem.mpr hi⟩

/-- A binding abstracts over the variables of the predicates that it starts from. -/
theorem mem_ownIds_of_mem_seeds {p : Ty} (hp : p ∈ seeds) {v : TyVar} (hv : v ∈ vars)
    (hvp : v.id ∈ p.varIds) : v.id ∈ ownIds body seeds vars props := by
  refine mem_connectedVars (List.mem_filter.mpr ⟨?_, ?_⟩)
  · exact Ty.mem_freeIds.mpr ⟨p, List.mem_cons_of_mem _ hp, hvp⟩
  · simp only [Bool.not_eq_true', List.contains_eq_mem, decide_eq_false_iff_not, List.mem_filter,
      not_and, not_not]
    exact fun _ => List.mem_map_of_mem hv

/-! ## Parameters of a closing -/

/-- Each parameter of a closing stands for one of its variables. -/
theorem Closing.Drawn.exists_var {cl : Closing} (h : cl.Drawn)
    (hnodup : (cl.vars.map TyVar.id).Nodup) {p : Param} (hp : p ∈ cl.params) :
    ∃ v ∈ cl.vars, cl.byVar.find? v.id = some p := by
  obtain ⟨next, heq⟩ := h
  obtain ⟨hparams, hby⟩ := Prod.mk.inj heq
  rw [hparams] at hp
  rw [hby]
  exact exists_find?_of_mem_quantifyVars hnodup hp

/-! ## Schemas of a group -/

variable {ds out : List Decl} {goals : List Goal} {group : List (Int × Int)} {c : Context}
  {s s' : State} {g : Generalization}

namespace Generalization

/-- The closings of a group, each with the type and the definition of its binding. -/
def entries (g : Generalization) (ds : List Decl) : List ((Closing × Ty) × Decl) :=
  (g.closings.zip (g.bodies ds)).zip ds

/-- The closed definition of an entry. -/
def closed (g : Generalization) (ds : List Decl) (group : List (Int × Int))
    (e : (Closing × Ty) × Decl) : Decl :=
  closeDecl g.simplified.subst group (g.closingOf ds) e.1.1 e.1.2 e.2

/-- A goal is kept: by one of the bindings if it is about a candidate, in a store otherwise. -/
def keeps (g : Generalization) (ds : List Decl) (goals : List Goal) (group : List (Int × Int))
    (stored : List Goal) (l : Goal) : Prop :=
  (l.prop.mentions (g.candidates ds goals group) = false ∧ l ∈ stored) ∨
    l.prop.mentions (g.candidates ds goals group) = true ∧
      ∃ e ∈ g.entries ds, l.prop ∈ e.1.1.props

theorem mem_result {d : Decl} : d ∈ g.result ds group ↔
    ∃ e ∈ g.entries ds, g.closed ds group e = d := List.mem_map

theorem orphans_subset : g.orphans ds goals group ⊆ g.props ds goals group := fun _ hp =>
  (List.mem_filter.mp hp).1

theorem nodup_vars : ((g.vars ds goals group).map TyVar.id).Nodup :=
  (Ty.nodup_dedupVars ..).1.sublist (List.filter_sublist.map _)

theorem mem_closings {e : (Closing × Ty) × Decl} (he : e ∈ g.entries ds) : e.1.1 ∈ g.closings :=
  (List.of_mem_zip (List.of_mem_zip he).1).1

namespace RunsFrom

variable (h : g.RunsFrom ds goals group c s)

include h

theorem closing_of_entry {e : (Closing × Ty) × Decl} (he : e ∈ g.entries ds) : e.1.1.Drawn ∧
    e.1.1 = { Closing.of e.1.2 (g.orphans ds goals group) (g.vars ds goals group)
      (g.props ds goals group) with params := e.1.1.params, byVar := e.1.1.byVar } :=
  List.forall₂_zip h.forall₂.flip (List.of_mem_zip he).1

/-- The variables of a binding are in the order of their parameters, and no two have one id. -/
theorem vars_of_entry {e : (Closing × Ty) × Decl} (he : e ∈ g.entries ds) :
    paramOrder e.1.1.vars = e.1.1.vars ∧ (e.1.1.vars.map TyVar.id).Nodup := by
  obtain ⟨-, hof⟩ := h.closing_of_entry he
  rw [hof, Closing.of, List.partition_eq_filter_filter]
  refine ⟨paramOrder_paramOrder _, ?_⟩
  rw [((perm_paramOrder _).map TyVar.id).nodup_iff]
  exact nodup_vars.sublist (List.filter_sublist.map _)

theorem exists_entry_of_body {b : Ty} (hb : b ∈ g.bodies ds) : ∃ e ∈ g.entries ds, e.1.2 = b := by
  obtain ⟨n, hn, rfl⟩ := List.mem_iff_getElem.mp hb
  have hds : n < ds.length := length_bodies (g := g) ▸ hn
  have hcl : n < g.closings.length := h.length_closings ▸ hds
  refine ⟨((g.closings[n], (g.bodies ds)[n]), ds[n]), List.mem_iff_getElem.mpr ⟨n, ?_, ?_⟩, rfl⟩
  · simp only [entries, List.length_zip]
    omega
  · simp only [entries, List.getElem_zip]

/-- Each parameter occurs in the body or in a predicate of its schema. -/
theorem occurs {e : (Closing × Ty) × Decl} (he : e ∈ g.entries ds) {p : Param}
    (hp : p ∈ (g.closed ds group e).schema.params) :
    ∃ t ∈ (g.closed ds group e).schema.body :: (g.closed ds group e).schema.props,
      p ∈ t.params := by
  obtain ⟨hdrawn, hof⟩ := h.closing_of_entry he
  obtain ⟨-, hnodup⟩ := h.vars_of_entry he
  obtain ⟨v, hv, hfind⟩ := hdrawn.exists_var hnodup hp
  have hprops : e.1.1.props = (g.props ds goals group).filter (Ty.mentions (ownIds e.1.2
      (g.orphans ds goals group) (g.vars ds goals group) (g.props ds goals group))) := by
    rw [hof, Closing.of]
  have hown := (Closing.mem_vars_of.mp (hof ▸ hv)).2
  have hmem : ∀ {t : Ty}, v.id ∈ t.varIds → p ∈ (t.quantify e.1.1.byVar).params := by
    intro t ht
    obtain ⟨w, hw, heq⟩ := List.mem_map.mp ht
    exact Ty.mem_params_quantify (heq ▸ hfind) hw
  rcases occurs_of_mem_ownIds orphans_subset hown with hbody | ⟨t, ht, hvt⟩
  · exact ⟨_, List.mem_cons_self .., hmem hbody⟩
  · exact ⟨_, List.mem_cons_of_mem _ (List.mem_map_of_mem (hprops ▸ ht)), hmem hvt⟩

/-! ## Variables that are left -/

theorem bindsConstants : Subst.Reaches Subst.ToConstant g.selected.subst g.simplified.subst := by
  obtain ⟨_, hdefault⟩ := h.defaults
  exact (bindsConstants_of_defaultVars hdefault).reaches.trans
    (bindsConstants_of_simplifyGoals h.simplify).reaches

theorem triangular_selected (hs : s.subst.Triangular) : g.selected.subst.Triangular :=
  (framed_solveSelectors.step h.selectors).triangular hs

theorem triangular_defaulted (hs : s.subst.Triangular) : g.defaulted.subst.Triangular := by
  obtain ⟨_, hdefault⟩ := h.defaults
  exact (bindsConstants_of_defaultVars hdefault).reaches.triangular (h.triangular_selected hs)

/-- The group quantifies each variable of its predicates that the environment does not hold. -/
theorem exists_mem_vars_of_props (hs : s.subst.Triangular) {p : Ty}
    (hp : p ∈ g.props ds goals group) {i : Int} (hi : i ∈ p.varIds)
    (henv : i ∉ environmentIds group g.selected) : ∃ v ∈ g.vars ds goals group, v.id = i := by
  have hlookup := h.lookup_props hs hp hi
  obtain ⟨v, hv, rfl⟩ := Ty.exists_mem_freeVars (List.mem_append_right (g.bodies ds) hp) hi
  refine ⟨v, List.mem_filter.mpr ⟨hv, List.contains_iff_mem.mpr ?_⟩, rfl⟩
  -- the variable comes from a goal of the group
  obtain ⟨l, hl, rfl⟩ := List.mem_map.mp hp
  have hleft : v.id ∈ goalIds g.simplified.subst g.left := by
    refine List.mem_flatMap.mpr ⟨l, (List.mem_filter.mp hl).1, ?_⟩
    rw [Ty.varIds_eq_shape, Subst.shape_apply, Shape.mem_vars_subst]
    exact ⟨v.id, Ty.varIds_eq_shape l.prop ▸ hi, by simp [Subst.image_eq_var hlookup]⟩
  have hgoals := mem_goalIds_of_simplifyGoals h.simplify (h.triangular_defaulted hs) hleft
  obtain ⟨e, he, hi⟩ := List.mem_flatMap.mp hgoals
  obtain ⟨_, hdefault⟩ := h.defaults
  have hstart := (List.mem_filter.mp he).1
  obtain ⟨e₀, -, rfl⟩ := List.mem_map.mp hstart
  have hmem := (bindsConstants_of_defaultVars hdefault).reaches.varIds _ hi
  rw [Ty.varIds_eq_shape, (h.triangular_selected hs).apply_apply, ← Ty.varIds_eq_shape] at hmem
  refine mem_candidates.mpr ⟨⟨_, List.mem_append_right _ (List.mem_map_of_mem hstart), hmem⟩, henv⟩

/-- The environment holds the variables over which no parameter is put. -/
theorem held (hs : s.subst.Triangular) {e : (Closing × Ty) × Decl} (he : e ∈ g.entries ds) {t : Ty}
    (ht : t ∈ e.1.2 :: e.1.1.props) {i : Int} (hi : i ∈ t.varIds)
    (hby : e.1.1.byVar.find? i = none) : i ∈ environmentIds group g.selected := by
  obtain ⟨hdrawn, hof⟩ := h.closing_of_entry he
  by_contra henv
  have hvars : ∃ v ∈ e.1.1.vars, v.id = i := by
    rcases List.mem_cons.mp ht with rfl | ht
    · obtain ⟨v, hv, rfl⟩ := h.exists_mem_vars hs (List.of_mem_zip (List.of_mem_zip he).1).2 hi henv
      refine ⟨v, ?_, rfl⟩
      rw [hof]
      exact Closing.mem_vars_of.mpr ⟨hv, mem_ownIds hv hi⟩
    · obtain ⟨v, hv, rfl⟩ :=
        h.exists_mem_vars_of_props hs (h.mem_group_props (mem_closings he) ht) hi henv
      exact ⟨v, h.mem_vars_of_mem_props (mem_closings he) ht hv hi, rfl⟩
  obtain ⟨v, hv, rfl⟩ := hvars
  obtain ⟨p, -, hfind⟩ := hdrawn.find? hv
  rw [hby] at hfind
  cases hfind

/-- The types that a group starts from stay transparent. -/
theorem transparent_apply (hs : s.subst.Triangular) {t : Ty} {θ : Subst}
    (hθ : Subst.Reaches Subst.ToConstant g.selected.subst θ)
    (ht : (g.selected.subst.apply t).Transparent) :
    (θ.apply (g.selected.subst.apply t)).Transparent := by
  refine hθ.transparent ?_
  rwa [Subst.apply_of_transparent ht fun i hi => (h.triangular_selected hs).lookup_of_mem_varIds hi]

theorem transparent_entry (hs : s.subst.Triangular)
    (hstart : ∀ t ∈ g.startBodies ds ++ (g.startGoals goals).map Goal.prop, t.Transparent)
    {e : (Closing × Ty) × Decl} (he : e ∈ g.entries ds) {t : Ty} (ht : t ∈ e.1.2 :: e.1.1.props) :
    t.Transparent := by
  obtain ⟨hbodies, hgoals⟩ := List.forall_mem_append.mp hstart
  rcases List.mem_cons.mp ht with rfl | ht
  · obtain ⟨b, hb, heq⟩ := List.mem_map.mp (List.of_mem_zip (List.of_mem_zip he).1).2
    obtain ⟨d, hd, rfl⟩ := List.mem_map.mp hb
    rw [← heq]
    exact h.transparent_apply hs h.bindsConstants (hbodies _ hb)
  · obtain ⟨l, hl, rfl⟩ := List.mem_map.mp (h.mem_group_props (mem_closings he) ht)
    obtain ⟨_, hdefault⟩ := h.defaults
    refine transparent_of_simplifyGoals h.simplify (h.triangular_defaulted hs) (fun e' he' => ?_) l
      (List.mem_filter.mp hl).1
    have hmem := (List.mem_filter.mp he').1
    obtain ⟨e₀, -, rfl⟩ := List.mem_map.mp hmem
    have htransparent := hgoals _ (List.mem_map_of_mem (f := Goal.prop) hmem)
    refine ⟨htransparent, h.transparent_apply hs ?_ htransparent⟩
    exact (bindsConstants_of_defaultVars hdefault).reaches

/-! ## Predicates -/

/-- Each predicate of the group is kept by one of its bindings. -/
theorem exists_entry_of_props (hds : ds ≠ []) {p : Ty} (hp : p ∈ g.props ds goals group) :
    ∃ e ∈ g.entries ds, p ∈ e.1.1.props := by
  have hkept : ∀ {b : Ty}, b ∈ g.bodies ds → p.mentions (ownIds b (g.orphans ds goals group)
      (g.vars ds goals group) (g.props ds goals group)) = true →
      ∃ e ∈ g.entries ds, p ∈ e.1.1.props := by
    intro b hb hmentions
    obtain ⟨e, he, rfl⟩ := h.exists_entry_of_body hb
    refine ⟨e, he, ?_⟩
    rw [(h.closing_of_entry he).2]
    exact List.mem_filter.mpr ⟨hp, hmentions⟩
  by_cases horphan : p ∈ g.orphans ds goals group
  · -- every binding starts from the goals that are connected to none
    obtain ⟨b, hb⟩ : ∃ b, b ∈ g.bodies ds :=
      List.exists_mem_of_length_pos (by rw [length_bodies]; exact List.length_pos_of_ne_nil hds)
    obtain ⟨l, hl, rfl⟩ := List.mem_map.mp hp
    obtain ⟨i, hi, hcand⟩ := List.any_eq_true.mp (List.mem_filter.mp hl).2
    obtain ⟨v, hv, rfl⟩ := Ty.exists_mem_freeVars (List.mem_append_right (g.bodies ds) hp) hi
    refine hkept hb (List.any_eq_true.mpr ⟨v.id, hi, List.contains_iff_mem.mpr ?_⟩)
    exact mem_ownIds_of_mem_seeds horphan (List.mem_filter.mpr ⟨hv, hcand⟩) hi
  · have hused : p.mentions ((g.bodies ds).flatMap fun b =>
        ownIds b [] (g.vars ds goals group) (g.props ds goals group)) = true := by
      by_contra hnot
      exact horphan (List.mem_filter.mpr ⟨hp, by simpa using hnot⟩)
    obtain ⟨i, hi, hused⟩ := List.any_eq_true.mp hused
    obtain ⟨b, hb, hown⟩ := List.mem_flatMap.mp (List.contains_iff_mem.mp hused)
    exact hkept hb (List.any_eq_true.mpr ⟨i, hi, List.contains_iff_mem.mpr (ownIds_subset hown)⟩)

/-- What becomes of the goals of a group: what is left of a goal about candidates is a predicate of
one of the bindings, and the rest is among `stored`. -/
theorem settled (hds : ds ≠ []) (hs : s.subst.Triangular) {stored : List Goal}
    (hhere : ∀ e ∈ g.startGoals goals, e.prop.mentions (g.candidates ds goals group) = false →
      e ∈ stored)
    (hleft : ∀ l ∈ g.left, l.prop.mentions (g.candidates ds goals group) = false → l ∈ stored) :
    ∀ e ∈ g.startGoals goals,
      GoalSettled s.assumptions g.simplified.errors g.simplified.subst.image
        (g.keeps ds goals group stored) e := by
  obtain ⟨_, hdefault⟩ := h.defaults
  have hasmps : g.defaulted.assumptions = s.assumptions :=
    (bindsConstants_of_defaultVars hdefault).assumptions.trans
      (Respects.step (R := InForce) respects_solveSelectors h.selectors).assumptions
  have hkept : ∀ l ∈ g.left, g.keeps ds goals group stored l := by
    intro l hl
    cases hmentions : l.prop.mentions (g.candidates ds goals group) with
    | true =>
      refine Or.inr ⟨hmentions, h.exists_entry_of_props hds ?_⟩
      exact List.mem_map_of_mem (List.mem_filter.mpr ⟨hl, hmentions⟩)
    | false => exact Or.inl ⟨hmentions, hleft l hl hmentions⟩
  have hsimplify := settled_of_simplifyGoals h.simplify hasmps (List.Subset.refl _)
    (h.bindsConstants.triangular (h.triangular_selected hs)).solves fun l hl => .kept (hkept l hl)
  intro e he
  cases hmentions : e.prop.mentions (g.candidates ds goals group) with
  | true => exact hsimplify e (List.mem_filter.mpr ⟨he, hmentions⟩)
  | false => exact .kept (Or.inl ⟨hmentions, hhere e he hmentions⟩)

end RunsFrom
end Generalization

/-! ## Closed definitions -/

/-- The definition, whose type was among `bodies`, requires the predicate `p`: in both, parameters
of its own take the place of variables. -/
def Requires (bodies : List Ty) (d : Decl) (p : Ty) : Prop :=
  ∃ m : Table Int Param, (∀ i q, m.find? i = some q → q ∈ d.schema.params) ∧
    (∃ b ∈ bodies, b.quantify m = d.schema.body) ∧ p.quantify m ∈ d.schema.props

/-- The definition starts with an abstraction for each parameter of its schema and then one for
each predicate, and with no others. -/
def Abstracts (d : Decl) : Prop :=
  ∃ e : Term, d.body = some (e.generalized d.schema.params d.schema.props) ∧
    e.isGeneralized = false

theorem Generalization.RunsFrom.requires (h : g.RunsFrom ds goals group c s)
    {e : (Closing × Ty) × Decl} (he : e ∈ g.entries ds) {p : Ty} (hp : p ∈ e.1.1.props) :
    Requires (g.bodies ds) (g.closed ds group e) p := by
  refine ⟨e.1.1.byVar, fun i q hq => ?_, ⟨_, (List.of_mem_zip (List.of_mem_zip he).1).2, rfl⟩,
    List.mem_map_of_mem hp⟩
  obtain ⟨next, heq⟩ := (h.closing_of_entry he).1
  obtain ⟨hparams, hby⟩ := Prod.mk.inj heq
  rw [hby] at hq
  show q ∈ e.1.1.params
  rw [hparams]
  exact (List.of_mem_zip (Table.mem_ofList (Table.mem_of_find? hq))).2

theorem isGeneralized_recursiveUse {closing : Int → Option Closing} {close : Ty → Ty} {n : Name}
    {token : Int} {t : Term} (h : recursiveUse group closing close n token = some t) :
    t.isGeneralized = false := by
  unfold recursiveUse at h
  split at h
  · obtain ⟨callee, -, rfl⟩ := Option.map_eq_some_iff.mp h
    exact Term.isGeneralized_instantiated rfl ..
  · cases h

theorem abstracts_closeDecl {θ : Subst} {closing : Int → Option Closing} {cl : Closing} {d : Decl}
    {e : Term} (hd : d.body = some e) (he : e.isGeneralized = false) :
    Abstracts (closeDecl θ group closing cl body d) := by
  unfold closeDecl
  rw [hd]
  exact ⟨_, rfl, e.isGeneralized_substitute he fun n token t ht => isGeneralized_recursiveUse ht⟩

/-- In the schemas of a group of checked bindings every parameter occurs, and only variables that
the environment held on entry are left; in transparent types those in the arguments of synonyms
count as well. No goal of the group is lost: what simplification leaves of it about candidates is
required by one of the definitions, and the rest is in the goal store, as are the goals that were
about no candidate. The definitions abstract over exactly the parameters and the predicates of their
schemas. -/
theorem generalize_minimal_closed {plan : Plan} {binds : List Surface.Bind} {c₀ : Context}
    {s₀ s₁ : State} (hds : Returns (checkGeneral plan binds) c₀ s₀ ds s₁) (hne : ds ≠ [])
    (hs : s.subst.Triangular) (h : Returns (generalize ds goals group) c s out s') :
    ∃ g : Generalization, g.RunsFrom ds goals group c s ∧ out = g.result ds group ∧
      (∀ d ∈ out, ∀ p ∈ d.schema.params, ∃ t ∈ d.schema.body :: d.schema.props, p ∈ t.params) ∧
      (∀ d ∈ out, ∀ t ∈ d.schema.body :: d.schema.props,
        (∀ i ∈ t.varIds, i ∈ environmentIds group g.selected) ∧
        ((∀ u ∈ g.startBodies ds ++ (g.startGoals goals).map Goal.prop, u.Transparent) →
          ∀ i ∈ t.leafIds, i ∈ environmentIds group g.selected)) ∧
      (∀ e ∈ g.startGoals goals, GoalSettled s.assumptions s'.errors s'.subst.image
        (fun l => (l.prop.mentions (g.candidates ds goals group) = false ∧ l ∈ s'.goals) ∨
          l.prop.mentions (g.candidates ds goals group) = true ∧
            ∃ d ∈ out, Requires (g.bodies ds) d l.prop) e) ∧
      ∀ d ∈ out, Abstracts d := by
  obtain ⟨g, hrun, rfl, hdefault, events, rfl⟩ := stores_generalize h
  refine ⟨g, hrun, rfl, fun d hd => ?_, fun d hd t ht => ?_, fun e he => ?_, fun d hd => ?_⟩
  · obtain ⟨e, he, rfl⟩ := Generalization.mem_result.mp hd
    exact fun p hp => hrun.occurs he hp
  · obtain ⟨e, he, rfl⟩ := Generalization.mem_result.mp hd
    obtain ⟨u, hu, rfl⟩ : ∃ u ∈ e.1.2 :: e.1.1.props, u.quantify e.1.1.byVar = t :=
      List.mem_map.mp ht
    refine ⟨fun i hi => ?_, fun hstart i hi => ?_⟩
    · obtain ⟨-, hby⟩ := Ty.mem_leafIds_quantify (Ty.mem_leafIds_of_mem_varIds hi)
      exact hrun.held hs he hu (Ty.mem_varIds_of_mem_varIds_quantify hi) hby
    · obtain ⟨hi, hby⟩ := Ty.mem_leafIds_quantify hi
      exact hrun.held hs he hu ((hrun.transparent_entry hs hstart he hu).mem_varIds hi) hby
  · have hgoals : g.simplified.goals = g.selected.goals ++ (g.startGoals goals).filter fun e =>
        !e.prop.mentions (g.candidates ds goals group) :=
      (bindsConstants_of_simplifyGoals hrun.simplify).goals.trans
        (bindsConstants_of_defaultVars hdefault).goals
    have hhere : ∀ e ∈ g.startGoals goals, e.prop.mentions (g.candidates ds goals group) = false →
        e ∈ g.simplified.goals ++ g.left.filter fun e =>
          !e.prop.mentions (g.candidates ds goals group) := by
      intro e he hmentions
      rw [hgoals]
      exact List.mem_append_left _ (List.mem_append_right _
        (List.mem_filter.mpr ⟨he, by rw [hmentions]; rfl⟩))
    refine (hrun.settled hne hs hhere (fun l hl hmentions => ?_) e he).imp fun l hl => ?_
    · exact List.mem_append_right _ (List.mem_filter.mpr ⟨hl, by rw [hmentions]; rfl⟩)
    · refine hl.imp_right fun ⟨hmentions, e, he, hp⟩ => ⟨hmentions, _, ?_, hrun.requires he hp⟩
      exact Generalization.mem_result.mpr ⟨e, he, rfl⟩
  · obtain ⟨e, he, rfl⟩ := Generalization.mem_result.mp hd
    obtain ⟨t, ht, hplain⟩ := (plain_checkGeneral plan binds).step hds e.2 (List.of_mem_zip he).2
    exact abstracts_closeDecl ht hplain

/-! ## The identity with a goal

`f x = x` with the goal that 5 is a literal of the type of `x`. -/

def identity : Surface.Bind :=
  let x : Name := { id := 2, ident := "x" }
  .mk { id := 10, ident := "f" } [.var x] (some (.var x)) none false false .empty

def identityPlan : Plan :=
  { mono := false, general := [(10, 1, .free ⟨1, .type, [], none⟩)] }

/-- The argument of `f` is the first fresh variable. -/
def argumentGoal : Goal := ⟨.literal, .empty, .cls .literal [.num 5, .free ⟨5, .type, [], none⟩]⟩

def identityKeepsGoal : Bool :=
  match (checkGeneral identityPlan [identity]).exec emptyContext noVars with
  | (.ok ds, s₁) =>
    !ds.isEmpty && match (generalize ds [argumentGoal] []).exec emptyContext s₁ with
      | (.ok [d], _) => d.schema.params.length == 1 && d.schema.props.length == 1
      | _ => false
  | _ => false

/-- The definition of `f` abstracts over its one parameter and the predicate about it. -/
theorem generalize_minimal_closed_identity : ∃ ds s₁ d s',
    Returns (checkGeneral identityPlan [identity]) emptyContext noVars ds s₁ ∧
    Returns (generalize ds [argumentGoal] []) emptyContext s₁ [d] s' ∧
    d.schema.params.length = 1 ∧ d.schema.props.length = 1 ∧ Abstracts d ∧
    ∀ p ∈ d.schema.params, ∃ t ∈ d.schema.body :: d.schema.props, p ∈ t.params := by
  have h : identityKeepsGoal = true := by cbv
  unfold identityKeepsGoal at h
  split at h
  · rename_i ds s₁ hds
    rw [Bool.and_eq_true] at h
    obtain ⟨hne, h⟩ := h
    split at h
    · rename_i d s' hd
      simp only [Bool.and_eq_true, beq_iff_eq] at h
      have hs₁ := ((scoped_checkGeneral [identity] identityPlan).step hds List.Pairwise.nil).triangular
        Subst.triangular_empty
      obtain ⟨g, -, -, hparams, -, -, habstracts⟩ :=
        generalize_minimal_closed hds (by simpa using hne) hs₁ hd
      exact ⟨ds, s₁, d, s', hds, hd, h.1, h.2, habstracts d (List.mem_singleton_self d),
        hparams d (List.mem_singleton_self d)⟩
    · cases h
  · cases h

end Infer
end SizedTypes
