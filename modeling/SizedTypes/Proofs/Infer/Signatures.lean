import SizedTypes.Proofs.Infer.Asking
import SizedTypes.Proofs.Infer.Generalize.Minimal
import SizedTypes.Proofs.Infer.Goals.Rounds

/-!
# Goals of a signature

The goals of a binding with a signature are split along their variables. Those about the parameters
of the signature must follow from it, and with a goal every one that shares a variable with it. The
others go to the store of the enclosing group. What must follow here is the least set of goals that
is closed in this way, whatever the order of the goals is, so nothing in the store can decide it or
be decided by it.
-/

set_option autoImplicit false

namespace SizedTypes

/-- The goal is about one of the parameters. -/
def Goal.MentionsParam (params : List Param) (g : Goal) : Prop :=
  ∃ p ∈ g.prop.params, ∃ q ∈ params, q.id = p.id

def Goal.SharesVar (g h : Goal) : Prop := ∃ i ∈ g.prop.varIds, i ∈ h.prop.varIds

namespace Infer

variable {params : List Param} {gs : List Goal} {g : Goal}

/-! ## The split -/

/-- Of the goals `gs`, the set `S` takes in every one that is about a parameter, and every one that
shares a variable with a goal of `S`. -/
structure Connected (params : List Param) (gs : List Goal) (S : Set Goal) : Prop where
  mentions : ∀ g ∈ gs, g.MentionsParam params → g ∈ S
  shares : ∀ g ∈ S, ∀ h ∈ gs, g.SharesVar h → h ∈ S

/-- The variables through which goals are connected with the parameters. -/
def linkingVars (params : List Param) (gs : List Goal) : List Int :=
  connectedVars [] (gs.length + 1)
    (Ty.freeIds ((gs.map Goal.prop).filter (mentionsParam params))) (gs.map Goal.prop)

/-- The goal is about a parameter or about a variable that is connected with one. -/
def Linked (params : List Param) (gs : List Goal) (g : Goal) : Prop :=
  g.MentionsParam params ∨ ∃ i ∈ g.prop.varIds, i ∈ linkingVars params gs

theorem mentionsParam_iff : mentionsParam params g.prop = true ↔ g.MentionsParam params := by
  simp [mentionsParam, Goal.MentionsParam]

theorem mentions_iff {ids : List Int} {t : Ty} :
    t.mentions ids = true ↔ ∃ i ∈ t.varIds, i ∈ ids := by
  simp [Ty.mentions]

theorem linked_iff : (mentionsParam params g.prop || g.prop.mentions (linkingVars params gs)) =
    true ↔ Linked params gs g := by
  rw [Bool.or_eq_true, mentionsParam_iff, mentions_iff, Linked]

theorem splitGoals_eq (params : List Param) (gs : List Goal) : splitGoals params gs =
    gs.partition fun g => mentionsParam params g.prop || g.prop.mentions (linkingVars params gs) :=
  rfl

theorem mem_splitGoals_here : g ∈ (splitGoals params gs).1 ↔ g ∈ gs ∧ Linked params gs g := by
  rw [splitGoals_eq, List.partition_eq_filter_filter, List.mem_filter, linked_iff]

theorem mem_splitGoals_outer : g ∈ (splitGoals params gs).2 ↔ g ∈ gs ∧ ¬Linked params gs g := by
  rw [splitGoals_eq, List.partition_eq_filter_filter, List.mem_filter, Function.comp_apply,
    Bool.not_eq_true', Bool.eq_false_iff, ne_eq, linked_iff]

/-- A goal that is linked through one variable is linked through all of its variables. -/
theorem mem_linkingVars_of_linked (hg : g ∈ gs) (h : Linked params gs g) {i : Int}
    (hi : i ∈ g.prop.varIds) : i ∈ linkingVars params gs := by
  have hprop : g.prop ∈ gs.map Goal.prop := List.mem_map_of_mem hg
  rcases h with hmentions | hlink
  · refine mem_connectedVars (Ty.mem_freeIds.mpr ⟨g.prop, List.mem_filter.mpr ⟨hprop, ?_⟩, hi⟩)
    exact mentionsParam_iff.mpr hmentions
  · have hfuel : (gs.map Goal.prop).length < gs.length + 1 := by
      rw [List.length_map]
      exact Nat.lt_succ_self _
    exact mem_connectedVars_of_mentions hfuel hprop (mentions_iff.mpr hlink) hi List.not_mem_nil

theorem connected_splitGoals : Connected params gs {g | g ∈ (splitGoals params gs).1} where
  mentions _ hg hmentions := mem_splitGoals_here.mpr ⟨hg, Or.inl hmentions⟩
  shares _ hg _ hh := by
    rintro ⟨i, hi, hi'⟩
    obtain ⟨hg, hlinked⟩ := mem_splitGoals_here.mp hg
    exact mem_splitGoals_here.mpr ⟨hh, Or.inr ⟨i, hi', mem_linkingVars_of_linked hg hlinked hi⟩⟩

open Classical in
/-- Each linking variable is one of a goal that every connected set takes in. -/
theorem exists_of_mem_linkingVars {S : Set Goal} (hS : Connected params gs S) {i : Int}
    (hi : i ∈ linkingVars params gs) : ∃ g ∈ S, i ∈ g.prop.varIds := by
  have hmem (j : Int) : j ∈ Ty.freeIds ((gs.filter (· ∈ S)).map Goal.prop) ↔
      ∃ g ∈ gs, g ∈ S ∧ j ∈ g.prop.varIds := by
    simp [Ty.mem_freeIds, and_assoc]
  have hall : linkingVars params gs ⊆ Ty.freeIds ((gs.filter (· ∈ S)).map Goal.prop) := by
    refine connectedVars_subset (fun j hj => ?_) fun p hp hmentions j hj _ => ?_
    · -- the goals about a parameter are in the set
      obtain ⟨p, hp, hj⟩ := Ty.mem_freeIds.mp hj
      obtain ⟨hp, hmentions⟩ := List.mem_filter.mp hp
      obtain ⟨g, hg, rfl⟩ := List.mem_map.mp hp
      exact (hmem j).mpr ⟨g, hg, hS.mentions g hg (mentionsParam_iff.mp hmentions), hj⟩
    · -- a goal with a variable of the set is in the set
      obtain ⟨h, hh, rfl⟩ := List.mem_map.mp hp
      obtain ⟨k, hk, hkS⟩ := mentions_iff.mp hmentions
      obtain ⟨g, -, hgS, hkg⟩ := (hmem k).mp hkS
      exact (hmem j).mpr ⟨h, hh, hS.shares g hgS h hh ⟨k, hkg, hk⟩, hj⟩
  obtain ⟨g, -, hgS, hig⟩ := (hmem i).mp (hall hi)
  exact ⟨g, hgS, hig⟩

/-- The goals that are kept are in every connected set. -/
theorem splitGoals_subset {S : Set Goal} (hS : Connected params gs S) :
    {g | g ∈ (splitGoals params gs).1} ⊆ S := by
  intro g hg
  obtain ⟨hg, hmentions | ⟨i, hi, hlink⟩⟩ := mem_splitGoals_here.mp hg
  · exact hS.mentions g hg hmentions
  · obtain ⟨h, hh, hi'⟩ := exists_of_mem_linkingVars hS hlink
    exact hS.shares h hh g hg ⟨i, hi', hi⟩

/-! ## The store of the enclosing group -/

/-- A computation that leaves the goal store as it is, whether it fails or not. -/
structure KeepsStore {α : Type} (act : Infer α) : Prop where
  goals : ∀ (c : Context) (s : State), (act.exec c s).2.goals = s.goals

namespace KeepsStore

variable {α β : Type}

theorem pure (a : α) : KeepsStore (Pure.pure a : Infer α) := ⟨fun _ _ => rfl⟩

theorem bind {act : Infer α} {f : α → Infer β} (h : KeepsStore act)
    (h' : ∀ a, KeepsStore (f a)) : KeepsStore (act >>= f) where
  goals c s := by
    have hact := h.goals c s
    rw [exec_bind]
    rcases heq : act.exec c s with ⟨_ | a, s₁⟩
    · rw [heq] at hact
      exact hact
    · rw [heq] at hact
      exact ((h' a).goals c s₁).trans hact

theorem get_bind {f : State → Infer β} (h : ∀ s, KeepsStore (f s)) : KeepsStore (get >>= f) :=
  ⟨fun c s => (h s).goals c s⟩

theorem read_bind {f : Context → Infer β} (h : ∀ c, KeepsStore (f c)) : KeepsStore (read >>= f) :=
  ⟨fun c s => (h c).goals c s⟩

theorem modify {f : State → State} (h : ∀ s, (f s).goals = s.goals) :
    KeepsStore (modify f : Infer PUnit) := ⟨fun _ s => h s⟩

theorem withRange {r : Range} {act : Infer α} (h : KeepsStore act) :
    KeepsStore (withRange r act) := ⟨fun _ s => h.goals _ s⟩

theorem ite {p : Prop} [Decidable p] {act act' : Infer α} (h : KeepsStore act)
    (h' : KeepsStore act') : KeepsStore (if p then act else act') := by
  split
  · exact h
  · exact h'

theorem forM {xs : List α} {f : α → Infer PUnit} (h : ∀ x, KeepsStore (f x)) :
    KeepsStore (xs.forM f) := by
  induction xs with
  | nil => exact pure PUnit.unit
  | cons x xs ih =>
    rw [List.forM_eq_forM, List.forM_cons]
    exact (h x).bind fun _ => ih

theorem mapM {xs : List α} {f : α → Infer β} (h : ∀ x, KeepsStore (f x)) :
    KeepsStore (xs.mapM f) := by
  induction xs with
  | nil => exact pure []
  | cons x xs ih =>
    rw [List.mapM_cons]
    exact (h x).bind fun _ => ih.bind fun _ => pure _

end KeepsStore

theorem keepsStore_recordError (e : TypeError) : KeepsStore (recordError e) :=
  .read_bind fun _ => .modify fun _ => rfl

theorem keepsStore_trace (e : Event) : KeepsStore (trace e) := .modify fun _ => rfl

theorem keepsStore_goalFor (gs : List Goal) (p : Ty) : KeepsStore (goalFor gs p) := by
  refine .get_bind fun s => ?_
  dsimp only
  split
  · exact .pure _
  · exact .read_bind fun _ => .pure _

theorem keepsStore_simplifyGoals (gs : List Goal) : KeepsStore (simplifyGoals gs) where
  goals c s := by
    obtain ⟨left, s', h⟩ := exists_returns_simplifyGoals c s gs
    have hgoals := (bindsConstants_of_simplifyGoals h).goals
    rw [Returns] at h
    rw [h]
    exact hgoals

theorem keepsStore_askSolver (q : Query) : KeepsStore (askSolver q) :=
  .read_bind fun _ => .get_bind fun _ => .bind (.modify fun _ => rfl) fun _ => .pure _

theorem keepsStore_useAnswer (gs : List Goal) (ans : Answer) : KeepsStore (useAnswer gs ans) := by
  unfold useAnswer
  refine .bind (.modify fun _ => rfl) fun _ => ?_
  split
  · exact .pure _
  · refine (KeepsStore.withRange ?_).bind fun _ => .pure _
    refine (KeepsStore.forM fun r => ?_).bind fun _ => .ite (keepsStore_recordError _) (.pure _)
    exact (keepsStore_goalFor gs r).bind fun _ => keepsStore_recordError _
  · exact .mapM fun r => keepsStore_goalFor gs r

theorem keepsStore_escalate (gs : List Goal) : KeepsStore (escalate gs) := by
  refine .get_bind fun s => (keepsStore_askSolver _).bind fun reply => ?_
  split
  · exact (keepsStore_trace _).bind fun _ =>
      (keepsStore_recordError _).withRange.bind fun _ => .pure _
  · exact (keepsStore_trace _).bind fun _ => keepsStore_useAnswer gs _

/-- What is done with the goals that must follow from a signature. -/
def proveKept (src : GoalSource) (here : List Goal) : Infer Unit := do
  let here ← simplifyGoals here
  let here ← if here.isEmpty then pure [] else escalate here
  if !here.isEmpty then
    withRange (firstRange here) (recordError (.unsolvedGoals here))
    trace (.unprovedGoals src.describe here.length)

theorem keepsStore_proveKept (src : GoalSource) (here : List Goal) :
    KeepsStore (proveKept src here) :=
  have hreport (left : List Goal) : KeepsStore (do
      if !left.isEmpty then
        withRange (firstRange left) (recordError (.unsolvedGoals left))
        trace (.unprovedGoals src.describe left.length)) :=
    .ite ((keepsStore_recordError _).withRange.bind fun _ => keepsStore_trace _) (.pure _)
  (keepsStore_simplifyGoals here).bind fun left =>
    .ite ((KeepsStore.pure _).bind hreport) ((keepsStore_escalate left).bind hreport)

/-! ## Goals that are kept and goals that are put off -/

/-- The goals of a signature, under the bindings so far, are split into those to be proved here and
those that are put into the store of the enclosing group. Those to be proved are the least set that
takes in every goal about a parameter and every goal that shares a variable with one of its own.
Those in the store are not about a parameter and share no variable with a goal to be proved. Each
goal goes to one side, as often as it is there and in the same order, and the proof adds nothing to
the store. -/
theorem proveSignature_connected (src : GoalSource) (params : List Param) (gs : List Goal)
    (c : Context) (s : State) :
    ∃ goals here outer : List Goal,
      goals = (gs.map fun g => { g with prop := s.subst.apply g.prop }) ∧
      (proveSignature src params gs).exec c s =
        (proveKept src here).exec c { s with goals := s.goals ++ outer } ∧
      ((proveSignature src params gs).exec c s).2.goals = s.goals ++ outer ∧
      IsLeast {S | Connected params goals S} {g | g ∈ here} ∧
      (∀ g ∈ outer, g ∉ here ∧ ¬g.MentionsParam params ∧ ∀ h ∈ here, ¬g.SharesVar h) ∧
      (here ++ outer).Perm goals ∧ here.Sublist goals ∧ outer.Sublist goals := by
  generalize hgoals : (gs.map fun g => { g with prop := s.subst.apply g.prop }) = goals
  have hrun : (proveSignature src params gs).exec c s =
      (proveKept src (splitGoals params goals).1).exec c
        { s with goals := s.goals ++ (splitGoals params goals).2 } := by
    rw [← hgoals]
    rfl
  have hconnected : Connected params goals {g | g ∈ (splitGoals params goals).1} :=
    connected_splitGoals
  refine ⟨goals, _, _, rfl, hrun, ?_, ⟨hconnected, fun S hS => splitGoals_subset hS⟩,
    fun g hg => ?_, ?_, ?_, ?_⟩
  · rw [hrun]
    exact (keepsStore_proveKept ..).goals c _
  · obtain ⟨hmem, hnot⟩ := mem_splitGoals_outer.mp hg
    have hhere : g ∉ (splitGoals params goals).1 := fun h => hnot (mem_splitGoals_here.mp h).2
    refine ⟨hhere, fun hmentions => hnot (Or.inl hmentions), fun h hh hshares => hhere ?_⟩
    obtain ⟨i, hig, hih⟩ := hshares
    exact hconnected.shares h hh g hmem ⟨i, hih, hig⟩
  · rw [splitGoals_eq, List.partition_eq_filter_filter]
    exact List.filter_append_perm _ goals
  · rw [splitGoals_eq, List.partition_eq_filter_filter]
    exact List.filter_sublist
  · rw [splitGoals_eq, List.partition_eq_filter_filter]
    exact List.filter_sublist

/-! Goals that lead to the parameter `n` one through the other, and one that does not. -/

def linkParam : Param := { id := 1, kind := .num, name := some { id := 1, ident := "n" } }

def linkVar (i : Int) : Ty := .free { id := i, kind := .num, scope := [1] }

/-- `?2 == ?3` -/
def firstLink : Goal := ⟨.exactType, .empty, .equal (linkVar 2) (linkVar 3)⟩

/-- `?3 == ?4` -/
def secondLink : Goal := ⟨.exactType, .empty, .equal (linkVar 3) (linkVar 4)⟩

/-- `?4 >= n` -/
def lastLink : Goal := ⟨.literal, .empty, .geq (linkVar 4) (.bound linkParam)⟩

/-- `fin ?5` -/
def unlinked : Goal := ⟨.literal, .empty, .fin (linkVar 5)⟩

/-- The first link is kept: it leads to the parameter through goals that come after it. The unlinked
goal is put into the store. -/
theorem proveSignature_connected_links : ∃ here outer : List Goal,
    (proveSignature .exactType [linkParam] [firstLink, unlinked, secondLink, lastLink]).exec
        emptyContext noVars =
      (proveKept .exactType here).exec emptyContext { noVars with goals := outer } ∧
    ((proveSignature .exactType [linkParam] [firstLink, unlinked, secondLink, lastLink]).exec
      emptyContext noVars).2.goals = outer ∧
    firstLink ∈ here ∧ unlinked ∈ outer ∧ ¬unlinked.SharesVar firstLink := by
  obtain ⟨goals, here, outer, hgoals, hrun, hstore, ⟨hclosed, hleast⟩, houter, hperm, -, -⟩ :=
    proveSignature_connected .exactType [linkParam] [firstLink, unlinked, secondLink, lastLink]
      emptyContext noVars
  obtain rfl : goals = [firstLink, unlinked, secondLink, lastLink] := hgoals
  have hlast : lastLink ∈ here :=
    hclosed.mentions lastLink (by simp)
      ⟨linkParam, List.mem_cons_self .., linkParam, List.mem_cons_self .., rfl⟩
  have hsecond : secondLink ∈ here :=
    hclosed.shares lastLink hlast secondLink (by simp) ⟨4, by decide, by decide⟩
  have hfirst : firstLink ∈ here :=
    hclosed.shares secondLink hsecond firstLink (by simp) ⟨3, by decide, by decide⟩
  have hothers : ∀ h ∈ [firstLink, unlinked, secondLink, lastLink],
      h = unlinked ∨ (5 : Int) ∉ h.prop.varIds :=
    List.forall_mem_cons.mpr ⟨Or.inr (by decide), List.forall_mem_cons.mpr ⟨Or.inl rfl,
      List.forall_mem_cons.mpr ⟨Or.inr (by decide), List.forall_mem_singleton.mpr
        (Or.inr (by decide))⟩⟩⟩
  -- the goals without the variable of the unlinked one are a connected set
  have hunlinked : unlinked ∉ here := by
    refine fun hmem => hleast (a := {g | (5 : Int) ∉ g.prop.varIds}) ⟨?_, ?_⟩ hmem (by decide)
    · rintro h hh ⟨p, hp, -⟩
      rcases hothers h hh with rfl | hnot
      · cases hp
      · exact hnot
    · rintro g hg h hh ⟨i, hi, hi'⟩
      rcases hothers h hh with rfl | hnot
      · obtain rfl := List.mem_singleton.mp (show i ∈ [5] from hi')
        exact absurd hi hg
      · exact hnot
  have hmem : unlinked ∈ here ++ outer := hperm.mem_iff.mpr (by simp)
  have hstored : unlinked ∈ outer := (List.mem_append.mp hmem).resolve_left hunlinked
  exact ⟨here, outer, hrun, hstore, hfirst, hstored, (houter unlinked hstored).2.2 firstLink hfirst⟩

end Infer
end SizedTypes
