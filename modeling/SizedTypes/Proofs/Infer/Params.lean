import SizedTypes.Infer.Expect
import SizedTypes.Proofs.Infer.ClosedTypes
import SizedTypes.Proofs.Infer.InForce
import SizedTypes.Proofs.Subst.Params

/-!
# Drawing parameters

A run draws the ids of variables and parameters from one counter. Started among parameters `K`, a
computation leaves a state whose parameters are those of `K` and ids that it has drawn. So a
parameter that is drawn later is none of those that are around.
-/

set_option autoImplicit false

namespace SizedTypes

open SizedTypes.Core (Interface Module)

variable {K K' : Set Int}

/-! ## Ids of a counter -/

/-- The ids that a counter gives out in `k` draws. -/
def drawn (next : Int) (k : Nat) : Set Int := {i | ∃ j < k, Word.next^[j] next = i}

@[simp] theorem drawn_zero (next : Int) : drawn next 0 = ∅ := by simp [drawn]

theorem mem_drawn_one (next : Int) : next ∈ drawn next 1 := ⟨0, Nat.one_pos, rfl⟩

/-- Draws that follow others go on where these have ended. -/
theorem drawn_add (next : Int) (j k : Nat) :
    drawn next (j + k) = drawn next j ∪ drawn (Word.next^[j] next) k := by
  ext i
  constructor
  · rintro ⟨l, hl, rfl⟩
    by_cases hlj : l < j
    · exact Or.inl ⟨l, hlj, rfl⟩
    · refine Or.inr ⟨l - j, by omega, ?_⟩
      rw [← Function.iterate_add_apply, Nat.sub_add_cancel (not_lt.mp hlj)]
  · rintro (⟨l, hl, rfl⟩ | ⟨l, hl, rfl⟩)
    · exact ⟨l, by omega, rfl⟩
    · exact ⟨l + j, by omega, Function.iterate_add_apply ..⟩

/-! ## Modules and environments -/

/-- Parameters of declared types and of definitions are among `K`. -/
structure Core.Interface.ParamsIn (K : Set Int) (i : Interface) : Prop where
  synonyms : ∀ e ∈ i.synonyms, e.2.ParamsIn K
  newtypes : ∀ e ∈ i.newtypes, e.2.ParamsIn K
  primTypes : ∀ e ∈ i.primTypes, e.2.ParamsIn K
  vars : ∀ e ∈ i.vars, e.2.2.ParamsIn K

structure Core.Module.ParamsIn (K : Set Int) (m : Module) : Prop where
  synonyms : ∀ e ∈ m.synonyms, e.2.ParamsIn K
  newtypes : ∀ e ∈ m.newtypes, e.2.ParamsIn K
  primTypes : ∀ e ∈ m.primTypes, e.2.ParamsIn K
  paramTypes : ∀ e ∈ m.paramTypes, e.2.param.id ∈ K
  decls : ∀ d ∈ m.decls, d.schema.ParamsIn K

structure External.ParamsIn (K : Set Int) (E : External) : Prop where
  synonyms : ∀ e ∈ E.synonyms, e.2.ParamsIn K
  newtypes : ∀ e ∈ E.newtypes, e.2.ParamsIn K
  primTypes : ∀ e ∈ E.primTypes, e.2.ParamsIn K
  vars : ∀ e ∈ E.vars, e.2.ParamsIn K
  interfaces : ∀ e ∈ E.interfaces, e.2.ParamsIn K

theorem Core.Interface.ParamsIn.mono {i : Interface} (h : i.ParamsIn K) (hK : K ⊆ K') :
    i.ParamsIn K' where
  synonyms e he := (h.synonyms e he).mono hK
  newtypes e he := (h.newtypes e he).mono hK
  primTypes e he := (h.primTypes e he).mono hK
  vars e he := (h.vars e he).mono hK

theorem Core.Module.ParamsIn.mono {m : Module} (h : m.ParamsIn K) (hK : K ⊆ K') :
    m.ParamsIn K' where
  synonyms e he := (h.synonyms e he).mono hK
  newtypes e he := (h.newtypes e he).mono hK
  primTypes e he := (h.primTypes e he).mono hK
  paramTypes e he := hK (h.paramTypes e he)
  decls d hd := (h.decls d hd).mono hK

theorem External.ParamsIn.mono {E : External} (h : E.ParamsIn K) (hK : K ⊆ K') :
    E.ParamsIn K' where
  synonyms e he := (h.synonyms e he).mono hK
  newtypes e he := (h.newtypes e he).mono hK
  primTypes e he := (h.primTypes e he).mono hK
  vars e he := (h.vars e he).mono hK
  interfaces e he := (h.interfaces e he).mono hK

theorem Core.Interface.paramsIn_univ (i : Interface) : i.ParamsIn Set.univ where
  synonyms e _ := e.2.paramsIn_univ
  newtypes e _ := e.2.paramsIn_univ
  primTypes e _ := e.2.paramsIn_univ
  vars e _ := e.2.2.paramsIn_univ

theorem Core.Module.paramsIn_univ (m : Module) : m.ParamsIn Set.univ where
  synonyms e _ := e.2.paramsIn_univ
  newtypes e _ := e.2.paramsIn_univ
  primTypes e _ := e.2.paramsIn_univ
  paramTypes _ _ := trivial
  decls d _ := d.schema.paramsIn_univ

theorem External.paramsIn_univ (E : External) : E.ParamsIn Set.univ where
  synonyms e _ := e.2.paramsIn_univ
  newtypes e _ := e.2.paramsIn_univ
  primTypes e _ := e.2.paramsIn_univ
  vars e _ := e.2.paramsIn_univ
  interfaces e _ := e.2.paramsIn_univ

theorem Core.Module.paramsIn_empty (n : Name) : (Core.Module.empty n).ParamsIn K where
  synonyms := List.forall_mem_nil _
  newtypes := List.forall_mem_nil _
  primTypes := List.forall_mem_nil _
  paramTypes := List.forall_mem_nil _
  decls := List.forall_mem_nil _

theorem Core.Module.ParamsIn.absorb {parent child : Module} (h : parent.ParamsIn K)
    (hc : child.ParamsIn K) : (Scope.absorb parent child).ParamsIn K where
  synonyms := Table.forall_mem_union h.synonyms hc.synonyms
  newtypes := Table.forall_mem_union h.newtypes hc.newtypes
  primTypes := Table.forall_mem_union h.primTypes hc.primTypes
  paramTypes := h.paramTypes
  decls d hd := by
    simp only [Core.Module.decls, Scope.absorb, List.flatMap_append, List.mem_append] at hd
    exact hd.elim (h.decls d) (hc.decls d)

/-! ## States -/

def VarType.ParamsIn (K : Set Int) : VarType → Prop
  | .known sc => sc.ParamsIn K
  | .inGroup _ _ t => t.ParamsIn K

theorem VarType.ParamsIn.mono {v : VarType} (h : v.ParamsIn K) (hK : K ⊆ K') : v.ParamsIn K' := by
  cases v with
  | known sc => exact Schema.ParamsIn.mono h hK
  | inGroup token n t => exact Ty.ParamsIn.mono h hK

theorem VarType.paramsIn_univ (v : VarType) : v.ParamsIn Set.univ := by
  cases v with
  | known sc => exact sc.paramsIn_univ
  | inGroup token n t => exact t.paramsIn_univ

theorem VarType.paramsIn_mono {t : Ty} (h : t.ParamsIn K) :
    (VarType.known (.mono t)).ParamsIn K := Schema.paramsIn_mono.mpr h

structure SelectorGoal.ParamsIn (K : Set Int) (g : SelectorGoal) : Prop where
  record : g.record.ParamsIn K
  field : g.field.ParamsIn K

theorem SelectorGoal.ParamsIn.mono {g : SelectorGoal} (h : g.ParamsIn K) (hK : K ⊆ K') :
    g.ParamsIn K' := ⟨h.record.mono hK, h.field.mono hK⟩

namespace Infer

/-- What a run can refer to has its parameters among `K`, and so have the answers of its solver to
queries about it. -/
structure Context.ParamsIn (K : Set Int) (c : Context) : Prop where
  external : c.external.ParamsIn K
  solver : c.solver.Confined

/-- All parameters that a state holds are among `K`. -/
structure State.ParamsIn (K : Set Int) (s : State) : Prop where
  vars : ∀ e ∈ s.vars, e.2.ParamsIn K
  stash : ∀ e ∈ s.stash, ∀ v, e.2 = some v → v.ParamsIn K
  params : ∀ p ∈ s.params, p.id ∈ K
  typeVars : ∀ e ∈ s.typeVars, e.2.id ∈ K
  assumptions : ∀ p ∈ s.assumptions.props, p.ParamsIn K
  existentials : ∀ sc ∈ s.existentials, ∀ e ∈ sc, e.2.ParamsIn K
  subst : s.subst.ParamsIn K
  goals : ∀ g ∈ s.goals, g.prop.ParamsIn K
  pending : ∀ g ∈ s.pending, g.ParamsIn K
  scopes : ∀ sc ∈ s.scopes, sc.content.ParamsIn K

theorem Context.ParamsIn.mono {c : Context} (h : c.ParamsIn K) (hK : K ⊆ K') : c.ParamsIn K' :=
  ⟨h.external.mono hK, h.solver⟩

theorem State.ParamsIn.mono {s : State} (h : s.ParamsIn K) (hK : K ⊆ K') : s.ParamsIn K' where
  vars e he := (h.vars e he).mono hK
  stash e he v hv := (h.stash e he v hv).mono hK
  params p hp := hK (h.params p hp)
  typeVars e he := hK (h.typeVars e he)
  assumptions p hp := (h.assumptions p hp).mono hK
  existentials sc hsc e he := (h.existentials sc hsc e he).mono hK
  subst := h.subst.mono hK
  goals g hg := (h.goals g hg).mono hK
  pending g hg := (h.pending g hg).mono hK
  scopes sc hsc := (h.scopes sc hsc).mono hK

theorem Context.paramsIn_univ {c : Context} (h : c.solver.Confined) : c.ParamsIn Set.univ :=
  ⟨c.external.paramsIn_univ, h⟩

theorem State.paramsIn_univ (s : State) : s.ParamsIn Set.univ where
  vars e _ := e.2.paramsIn_univ
  stash _ _ v _ := v.paramsIn_univ
  params _ _ := trivial
  typeVars _ _ := trivial
  assumptions p _ := p.paramsIn_univ
  existentials _ _ e _ := e.2.paramsIn_univ
  subst b _ := b.2.paramsIn_univ
  goals g _ := g.prop.paramsIn_univ
  pending g _ := ⟨g.record.paramsIn_univ, g.field.paramsIn_univ⟩
  scopes sc _ := sc.content.paramsIn_univ

/-! ## Computations -/

/-- Between the two states `k` ids have been drawn. -/
structure Drew (k : Nat) (s s' : State) : Prop where
  draws : s'.draws = s.draws + k
  next : s'.nextTypeVar = Word.next^[k] s.nextTypeVar

theorem Drew.trans {j k : Nat} {s s₁ s' : State} (h : Drew j s s₁) (h' : Drew k s₁ s') :
    Drew (j + k) s s' where
  draws := by rw [h'.draws, h.draws, Nat.add_assoc]
  next := by rw [h'.next, h.next, ← Function.iterate_add_apply, Nat.add_comm]

/-- From a state with parameters among `K` the computation draws ids; the state that it leaves has
its parameters among those and `K`, and so has the result in the sense of `P`. -/
structure Draws (K : Set Int) {α : Type} (act : Infer α) (P : Set Int → α → Prop) : Prop where
  step : ∀ {c : Context} {s s' : State} {a : α}, Returns act c s a s' → c.ParamsIn K →
    s.ParamsIn K → ∃ k, Drew k s s' ∧ s'.ParamsIn (K ∪ drawn s.nextTypeVar k) ∧
      P (K ∪ drawn s.nextTypeVar k) a

variable {α β : Type} {P : Set Int → α → Prop} {Q : Set Int → β → Prop}

namespace Draws

/-- A computation that draws nothing. -/
theorem of_keeps {act : Infer α} (h : ∀ {c : Context} {s s' : State} {a : α},
    Returns act c s a s' → c.ParamsIn K → s.ParamsIn K →
      Drew 0 s s' ∧ s'.ParamsIn K ∧ P K a) : Draws K act P where
  step ha hc hs := by
    obtain ⟨hdrew, hs', hP⟩ := h ha hc hs
    exact ⟨0, hdrew, by simpa using hs', by simpa using hP⟩

theorem pure {a : α} (h : P K a) : Draws K (Pure.pure a) P :=
  .of_keeps fun ha _ hs => by
    obtain ⟨rfl, rfl⟩ := returns_pure.mp ha
    exact ⟨⟨rfl, rfl⟩, hs, h⟩

theorem throw {e : InternalError} : Draws K (MonadExcept.throw e : Infer α) P :=
  ⟨fun h => absurd h not_returns_throw⟩

theorem throw_bind {e : InternalError} {f : α → Infer β} :
    Draws K (MonadExcept.throw e >>= f) Q where
  step h := by
    obtain ⟨a, s₁, h, -⟩ := returns_bind.mp h
    exact absurd h not_returns_throw

theorem bind {act : Infer α} {f : α → Infer β} (h : Draws K act P)
    (h' : ∀ {K'}, K ⊆ K' → ∀ a, P K' a → Draws K' (f a) Q) : Draws K (act >>= f) Q where
  step {_ s _ _} hb hc hs := by
    obtain ⟨a, s₁, ha, hb⟩ := returns_bind.mp hb
    obtain ⟨j, hj, hs₁, hP⟩ := h.step ha hc hs
    have hK : K ⊆ K ∪ drawn s.nextTypeVar j := Set.subset_union_left
    obtain ⟨k, hk, hs', hQ⟩ := (h' hK a hP).step hb (hc.mono hK) hs₁
    rw [hj.next, Set.union_assoc, ← drawn_add] at hs' hQ
    exact ⟨j + k, hj.trans hk, hs', hQ⟩

theorem weaken {P' : Set Int → α → Prop} {act : Infer α} (h : Draws K act P)
    (hP : ∀ {K'}, K ⊆ K' → ∀ a, P K' a → P' K' a) : Draws K act P' where
  step ha hc hs := by
    obtain ⟨k, hk, hs', ha⟩ := h.step ha hc hs
    exact ⟨k, hk, hs', hP Set.subset_union_left _ ha⟩

theorem get_bind {f : State → Infer β} (h : ∀ s, s.ParamsIn K → Draws K (f s) Q) :
    Draws K (get >>= f) Q where
  step hb hc hs := (h _ hs).step (returns_get_bind.mp hb) hc hs

theorem read_bind {f : Context → Infer β} (h : ∀ c, c.ParamsIn K → Draws K (f c) Q) :
    Draws K (read >>= f) Q where
  step hb hc hs := (h _ hc).step (returns_read_bind.mp hb) hc hs

theorem modify {f : State → State} (h : ∀ s, s.ParamsIn K → (f s).ParamsIn K)
    (hdrew : ∀ s, Drew 0 s (f s)) : Draws K (modify f : Infer PUnit) fun _ _ => True :=
  .of_keeps fun ha _ hs => by
    rw [returns_modify.mp ha]
    exact ⟨hdrew _, h _ hs, trivial⟩

theorem withRange {r : Range} {act : Infer α} (h : Draws K act P) :
    Draws K (withRange r act) P where
  step {c _ _ _} ha hc hs :=
    h.step (c := { c with range := r.orElse c.range }) (returns_withReader.mp ha) ⟨hc.1, hc.2⟩ hs

theorem discard {act : Infer α} (h : Draws K act P) :
    Draws K (Functor.discard act) fun _ _ => True where
  step ha hc hs := by
    obtain ⟨b, hb⟩ := returns_discard.mp ha
    obtain ⟨k, hk, hs', -⟩ := h.step hb hc hs
    exact ⟨k, hk, hs', trivial⟩

theorem ite {p : Prop} [Decidable p] {act act' : Infer α} (h : Draws K act P)
    (h' : Draws K act' P) : Draws K (if p then act else act') P := by
  split
  · exact h
  · exact h'

/-- `I` says what the elements still to come need. It is kept where more ids are drawn. -/
theorem forM {xs : List α} {f : α → Infer PUnit} {I : Set Int → α → Prop}
    (hI : ∀ {K K'}, K ⊆ K' → ∀ x, I K x → I K' x) (hxs : ∀ x ∈ xs, I K x)
    (h : ∀ {K' x}, K ⊆ K' → I K' x → Draws K' (f x) fun _ _ => True) :
    Draws K (xs.forM f) fun _ _ => True := by
  induction xs generalizing K with
  | nil => exact pure trivial
  | cons x xs ih =>
    obtain ⟨hx, hxs⟩ := List.forall_mem_cons.mp hxs
    rw [List.forM_eq_forM, List.forM_cons]
    exact (h le_rfl hx).bind fun hK _ _ => ih (fun y hy => hI hK y (hxs y hy)) fun hK' =>
      h (hK.trans hK')

theorem mapM {xs : List α} {f : α → Infer β} (hQ : ∀ {K K'}, K ⊆ K' → ∀ b, Q K b → Q K' b)
    (h : ∀ {K'}, K ⊆ K' → ∀ x ∈ xs, Draws K' (f x) Q) :
    Draws K (xs.mapM f) fun K' bs => ∀ b ∈ bs, Q K' b := by
  induction xs generalizing K with
  | nil => exact pure (List.forall_mem_nil _)
  | cons x xs ih =>
    rw [List.mapM_cons]
    refine (h le_rfl x (List.mem_cons_self ..)).bind fun hK b hb => ?_
    refine (ih fun hK' y hy => h (hK.trans hK') y (List.mem_cons_of_mem _ hy)).bind
      fun hK' bs hbs => pure ?_
    exact List.forall_mem_cons.mpr ⟨hQ hK' b hb, hbs⟩

end Draws

/-! ## Messages and fresh things -/

theorem draws_currentRange : Draws K currentRange fun _ _ => True :=
  .read_bind fun _ _ => .pure trivial

theorem draws_recordError (e : TypeError) : Draws K (recordError e) fun _ _ => True :=
  draws_currentRange.bind fun _ _ _ => .modify (fun _ hs => { hs with }) fun _ => ⟨rfl, rfl⟩

theorem draws_recordWarning (w : Warning) : Draws K (recordWarning w) fun _ _ => True :=
  .ite (draws_currentRange.bind fun _ _ _ => .modify (fun _ hs => { hs with }) fun _ => ⟨rfl, rfl⟩)
    (.pure trivial)

theorem draws_trace (e : Event) : Draws K (trace e) fun _ _ => True :=
  .modify (fun _ hs => { hs with }) fun _ => ⟨rfl, rfl⟩

theorem draws_freshVar (kd : Kind) (src : TypeSource) :
    Draws K (freshVar kd src) fun _ _ => True where
  step h _ hs := by
    unfold freshVar at h
    simp only [returns_get_bind, returns_set_bind, returns_pure] at h
    obtain ⟨-, rfl⟩ := h
    exact ⟨1, ⟨rfl, rfl⟩, { hs.mono Set.subset_union_left with }, trivial⟩

theorem draws_freshType (kd : Kind) (src : TypeSource) :
    Draws K (freshType kd src) Ty.ParamsIn :=
  (draws_freshVar kd src).bind fun _ _ _ => .pure .free

theorem draws_freshParam (kd : Kind) (n : Option Name) :
    Draws K (freshParam kd n) fun K' p => p.id ∈ K' where
  step h _ hs := by
    unfold freshParam at h
    simp only [returns_get_bind, returns_set_bind, returns_pure] at h
    obtain ⟨rfl, rfl⟩ := h
    exact ⟨1, ⟨rfl, rfl⟩, { hs.mono Set.subset_union_left with }, Or.inr (mem_drawn_one _)⟩

theorem draws_freshName (ident : String) : Draws K (freshName ident) fun _ _ => True :=
  .of_keeps fun h _ hs => by
    unfold freshName at h
    simp only [returns_get_bind, returns_set_bind, returns_pure] at h
    obtain ⟨-, rfl⟩ := h
    exact ⟨⟨rfl, rfl⟩, { hs with }, trivial⟩

theorem draws_prim (ident : String) : Draws K (prim ident) fun _ _ => True := by
  refine .read_bind fun c _ => ?_
  split
  · exact .pure trivial
  · exact .throw

/-! ## Substitution and goals -/

theorem draws_applied {t : Ty} (ht : t.ParamsIn K) : Draws K (applied t) Ty.ParamsIn :=
  .get_bind fun _ hs => .pure (hs.subst.apply ht)

theorem draws_mergeSubst {δ : Subst} (hδ : δ.ParamsIn K) :
    Draws K (mergeSubst δ) fun _ _ => True :=
  .of_keeps fun h _ hs => by
    unfold mergeSubst at h
    rw [returns_get_bind] at h
    split at h
    · rename_i θ hmerge
      rw [returns_modify.mp h]
      exact ⟨⟨rfl, rfl⟩, { hs with subst := hs.subst.merge hδ hmerge }, trivial⟩
    · exact absurd h not_returns_throw

theorem draws_newSelectorGoal (sel : Selector) {record field : Ty} (hrecord : record.ParamsIn K)
    (hfield : field.ParamsIn K) : Draws K (newSelectorGoal sel record field) fun _ _ => True :=
  .of_keeps fun h _ hs => by
    unfold newSelectorGoal freshGoal currentRange at h
    simp only [bind_assoc, returns_get_bind, returns_set_bind, pure_bind, returns_read_bind,
      returns_modify_bind, returns_pure] at h
    obtain ⟨-, rfl⟩ := h
    refine ⟨⟨rfl, rfl⟩, { hs with pending := ?_ }, trivial⟩
    exact List.forall_mem_append.mpr ⟨hs.pending, List.forall_mem_singleton.mpr ⟨hrecord, hfield⟩⟩

/-- Goals are added to the store. -/
theorem draws_store {gs : List Goal} (hgs : ∀ g ∈ gs, g.prop.ParamsIn K) :
    Draws K (modify fun s => { s with goals := s.goals ++ gs } : Infer PUnit) fun _ _ => True :=
  .modify (fun _ hs => { hs with goals := List.forall_mem_append.mpr ⟨hs.goals, hgs⟩ })
    fun _ => ⟨rfl, rfl⟩

theorem draws_addGoals (src : GoalSource) {ps : List Ty} (hps : ∀ p ∈ ps, p.ParamsIn K) :
    Draws K (addGoals src ps) fun _ _ => True := by
  refine .forM (I := Ty.ParamsIn) (fun hK _ h => h.mono hK) (Ty.ParamsIn.conjunctsList hps)
    fun {_ p} _ hp => ?_
  unfold addGoal
  split
  · rename_i hhas
    obtain ⟨hrecord, hfield⟩ := hp.asHas? hhas
    exact (draws_newSelectorGoal _ hrecord hfield).discard
  · exact draws_currentRange.bind fun hK _ _ =>
      draws_store (List.forall_mem_singleton.mpr (hp.mono hK))

/-- The goals that a computation emits are about the parameters that are around at its end. -/
theorem draws_collectGoals {act : Infer α} (h : Draws K act P) :
    Draws K (collectGoals act) fun K' r => P K' r.1 ∧ ∀ g ∈ r.2, g.prop.ParamsIn K' where
  step hr hc hs := by
    unfold collectGoals at hr
    simp only [returns_bind, returns_get, returns_modify, returns_pure] at hr
    obtain ⟨_, _, ⟨rfl, rfl⟩, ⟨⟩, _, rfl, a, s₁, ha, _, _, ⟨rfl, rfl⟩, ⟨⟩, _, rfl, rfl, rfl⟩ := hr
    obtain ⟨k, hk, hs₁, hP⟩ := h.step ha hc { hs with goals := List.forall_mem_nil _ }
    refine ⟨k, { hk with }, { hs₁ with goals := fun g hg => ?_ }, hP, hs₁.goals⟩
    exact (hs.goals g hg).mono Set.subset_union_left

/-! ## Names in scope -/

theorem draws_nameParam {p : Param} (hp : p.id ∈ K) : Draws K (nameParam p) fun _ _ => True := by
  have hinsert : ∀ {K' : Set Int} (n : Name), p.id ∈ K' → Draws K' (modify fun s => { s with
      typeVars := s.typeVars.insert n.id p } : Infer PUnit) fun _ _ => True :=
    fun n hp => .modify (fun _ hs => { hs with
      typeVars := Table.forall_mem_insert hp hs.typeVars }) fun _ => ⟨rfl, rfl⟩
  unfold nameParam
  split
  · exact .pure trivial
  · refine .get_bind fun _ _ => .ite ?_ (hinsert _ hp)
    exact (draws_recordWarning _).bind fun hK _ _ => hinsert _ (hK hp)

theorem draws_withParams {ps : List Param} {asmps : List Ty} {act : Infer α}
    (hps : ∀ p ∈ ps, p.id ∈ K) (hasmps : ∀ p ∈ asmps, p.ParamsIn K)
    (h : ∀ {K'}, K ⊆ K' → Draws K' act fun _ _ => True) :
    Draws K (withParams ps asmps act) fun _ _ => True := by
  refine .get_bind fun outer houter => ?_
  -- at the end the parameters and assumptions of before are put back
  have hact : ∀ {K' : Set Int}, K ⊆ K' → Draws K' (do
      let a ← act
      modify fun s =>
        { s with
          typeVars := forgetAll ps s.typeVars
          params := outer.params
          assumptions := outer.assumptions }
      return a) fun _ _ => True := by
    refine fun hK => (h hK).bind fun hK' _ _ =>
      Draws.bind (.modify (fun s hs => ?_) fun _ => ⟨rfl, rfl⟩) fun _ _ _ => .pure trivial
    have houter := houter.mono (hK.trans hK')
    refine { hs with
      typeVars := fun e he => hs.typeVars e ((forgetAll_sublist ps s.typeVars).subset he)
      params := houter.params
      assumptions := houter.assumptions }
  refine .bind (.modify (fun s hs => { hs with
    params := List.forall_mem_append.mpr ⟨hs.params, hps⟩ }) fun _ => ⟨rfl, rfl⟩) fun hK _ _ => ?_
  refine (Draws.forM (I := fun K' p => p.id ∈ K') (fun hK _ hp => hK hp)
    (fun p hp => hK (hps p hp)) fun _ hp => draws_nameParam hp).bind fun hK₁ _ _ => ?_
  refine .ite (.bind (.modify (fun s hs => { hs with
    assumptions := paramsIn_add hs.assumptions fun p hp => (hasmps p hp).mono (hK.trans hK₁) })
    fun _ => ⟨rfl, rfl⟩) fun hK₂ _ _ => hact ((hK.trans hK₁).trans hK₂)) (hact (hK.trans hK₁))

theorem draws_declare (n : Name) {v : VarType} (hv : v.ParamsIn K) :
    Draws K (declare n v) fun _ _ => True := by
  refine .modify (fun s hs => { hs with
    vars := Table.forall_mem_insert hv hs.vars
    stash := List.forall_mem_cons.mpr ⟨fun w hw => ?_, hs.stash⟩ }) fun _ => ⟨rfl, rfl⟩
  exact hs.vars _ (Table.mem_of_find? hw)

theorem draws_declareMono (n : Name) {t : Ty} (ht : t.ParamsIn K) :
    Draws K (declareMono n t) fun _ _ => True := draws_declare n (VarType.paramsIn_mono ht)

theorem State.ParamsIn.unstash1 {s : State} (hs : s.ParamsIn K) : s.unstash1.ParamsIn K := by
  unfold State.unstash1
  split
  · exact hs
  · rename_i hstash
    have hall := hs.stash
    rw [hstash] at hall
    obtain ⟨hv, hrest⟩ := List.forall_mem_cons.mp hall
    exact { hs with stash := hrest, vars := Table.forall_mem_insert (hv _ rfl) hs.vars }
  · rename_i hstash
    have hall := hs.stash
    rw [hstash] at hall
    exact { hs with
      stash := (List.forall_mem_cons.mp hall).2
      vars := fun e he => hs.vars e ((Table.erase_sublist _ _).subset he) }

theorem draws_unstash (n : Nat) : Draws K (unstash n) fun _ _ => True := by
  have hdrew : ∀ s : State, Drew 0 s s.unstash1 := by
    intro s
    unfold State.unstash1
    split <;> exact ⟨rfl, rfl⟩
  refine .modify (fun s hs => ?_) fun s => ?_
  · induction n with
    | zero => exact hs
    | succ n ih => exact ih.unstash1
  · induction n with
    | zero => exact ⟨rfl, rfl⟩
    | succ n ih => exact ih.trans (hdrew _)

theorem draws_lookupVar (n : Name) : Draws K (lookupVar n) VarType.ParamsIn := by
  refine .get_bind fun s hs => ?_
  split
  · rename_i hfind
    exact .pure (hs.vars _ (Table.mem_of_find? hfind))
  · refine .read_bind fun c hc => ?_
    split
    · rename_i hfind
      exact .pure (hc.external.vars _ (Table.mem_of_find? hfind))
    · exact .throw

/-! ## Scopes -/

theorem draws_openScope (kind : ScopeKind) (n : Name) :
    Draws K (openScope kind n) fun _ _ => True :=
  .modify (fun _ hs => { hs with
    scopes := List.forall_mem_cons.mpr ⟨Core.Module.paramsIn_empty n, hs.scopes⟩ }) fun _ => ⟨rfl, rfl⟩

theorem draws_popScope (kind : ScopeKind) : Draws K (popScope kind) Core.Module.ParamsIn :=
  .of_keeps fun h _ hs => by
    unfold popScope at h
    rw [returns_get_bind] at h
    split at h
    · exact absurd h not_returns_throw
    · rename_i hscopes
      have hall := hs.scopes
      rw [hscopes] at hall
      obtain ⟨hsc, hrest⟩ := List.forall_mem_cons.mp hall
      split at h
      · rw [returns_modify_bind, returns_pure] at h
        obtain ⟨rfl, rfl⟩ := h
        exact ⟨⟨rfl, rfl⟩, { hs with scopes := hrest }, hsc⟩
      · exact absurd h not_returns_throw

theorem draws_modifyScope {f : Module → Module} (hf : ∀ m, m.ParamsIn K → (f m).ParamsIn K) :
    Draws K (modifyScope f) fun _ _ => True :=
  .of_keeps fun h _ hs => by
    unfold modifyScope at h
    rw [returns_get_bind] at h
    split at h
    · exact absurd h not_returns_throw
    · rename_i hscopes
      have hall := hs.scopes
      rw [hscopes] at hall
      obtain ⟨hsc, hrest⟩ := List.forall_mem_cons.mp hall
      rw [returns_modify.mp h]
      exact ⟨⟨rfl, rfl⟩, { hs with scopes := List.forall_mem_cons.mpr ⟨hf _ hsc, hrest⟩ }, trivial⟩

/-! ## Unification and expected types -/

theorem draws_unifyFrom (src : GoalSource) (exp : Expected) {actual : Ty}
    (hexp : exp.type.ParamsIn K) (hactual : actual.ParamsIn K) :
    Draws K (unifyFrom src exp actual) fun _ _ => True := by
  refine .get_bind fun s hs => ?_
  dsimp only
  split
  · exact draws_recordError _
  · rename_i u hunify
    obtain ⟨hsubst, hprops⟩ := paramsIn_unify hunify (hs.subst.apply hexp) (hs.subst.apply hactual)
    exact (draws_mergeSubst hsubst).bind fun hK _ _ =>
      draws_addGoals _ fun p hp => (hprops p hp).mono hK

theorem draws_unifyExact (exp : Expected) {actual : Ty} (hexp : exp.type.ParamsIn K)
    (hactual : actual.ParamsIn K) : Draws K (unifyExact exp actual) fun _ _ => True :=
  draws_unifyFrom _ exp hexp hactual

theorem draws_expectArrow (src : TypeSource) (n i : Nat) {t : Ty} (ht : t.ParamsIn K) :
    Draws K (expectArrow src n i t) fun K' r => (∀ a ∈ r.1, a.ParamsIn K') ∧ r.2.ParamsIn K' := by
  induction n generalizing K i t with
  | zero => exact .pure ⟨List.forall_mem_nil _, ht⟩
  | succ n ih =>
    refine (draws_applied ht).bind fun hK u hu => ?_
    have ht := ht.mono hK
    split
    · rename_i a b harrow
      obtain ⟨ha, hb⟩ := hu.asArrow? harrow
      refine (ih (i + 1) hb).bind fun hK r hr => .pure ⟨?_, hr.2⟩
      exact List.forall_mem_cons.mpr ⟨ha.mono hK, hr.1⟩
    · refine (draws_freshType ..).bind fun hK₁ a ha => (draws_freshType ..).bind fun hK₂ b hb => ?_
      have harrow := Ty.paramsIn_arrow.mpr ⟨ha.mono hK₂, hb⟩
      refine (draws_unifyExact ⟨t, src⟩ (ht.mono (hK₁.trans hK₂)) harrow).bind fun hK₃ _ _ => ?_
      refine (ih (i + 1) (hb.mono hK₃)).bind fun hK₄ r hr => .pure ⟨?_, hr.2⟩
      exact List.forall_mem_cons.mpr ⟨ha.mono ((hK₂.trans hK₃).trans hK₄), hr.1⟩

theorem draws_expectTuple (n : Nat) {exp : Expected} (hexp : exp.type.ParamsIn K) :
    Draws K (expectTuple n exp) fun K' ts => ∀ t ∈ ts, t.ParamsIn K' := by
  refine (draws_applied hexp).bind fun hK u hu => ?_
  split
  · rename_i ts hts
    obtain ⟨htuple, -⟩ := Option.filter_eq_some_iff.mp hts
    exact .pure (hu.asTuple? htuple)
  · refine (Draws.mapM (Q := Ty.ParamsIn) (fun hK _ h => h.mono hK)
      fun _ _ _ => draws_freshType ..).bind fun hK₁ ts hts => ?_
    refine (draws_unifyExact exp (hexp.mono (hK.trans hK₁))
      (Ty.paramsIn_tuple.mpr hts)).bind fun hK₂ _ _ => .pure fun t ht => (hts t ht).mono hK₂

theorem draws_expectRecord (labels : List String) {exp : Expected} (hexp : exp.type.ParamsIn K) :
    Draws K (expectRecord labels exp) fun K' fs => ∀ f ∈ fs, f.2.ParamsIn K' := by
  refine (draws_applied hexp).bind fun hK u hu => ?_
  dsimp only
  split
  · rename_i fs hfs
    obtain ⟨hrecord, -⟩ := Option.filter_eq_some_iff.mp hfs
    exact .pure (hu.asRecord? hrecord)
  · refine (Draws.mapM (Q := fun K' (f : String × Ty) => f.2.ParamsIn K')
      (fun hK _ h => h.mono hK) fun _ _ _ => (draws_freshType ..).bind fun _ _ ht =>
      .pure ht).bind fun hK₁ fs hfs => ?_
    have hfs : ∀ f ∈ Table.ofList fs, f.2.ParamsIn _ := fun f hf => hfs f (Table.mem_ofList hf)
    refine (draws_unifyExact exp (hexp.mono (hK.trans hK₁))
      (Ty.paramsIn_record.mpr hfs)).bind fun hK₂ _ _ => .pure fun f hf => (hfs f hf).mono hK₂

theorem draws_expectSeq {exp : Expected} (hexp : exp.type.ParamsIn K) :
    Draws K (expectSeq exp) fun K' r => r.1.ParamsIn K' ∧ r.2.ParamsIn K' := by
  refine (draws_applied hexp).bind fun hK u hu => ?_
  split
  · rename_i hseq
    exact .pure (hu.asSeq? hseq)
  · refine (draws_freshType ..).bind fun hK₁ n hn => (draws_freshType ..).bind fun hK₂ a ha => ?_
    have hexp := hexp.mono ((hK.trans hK₁).trans hK₂)
    refine (draws_unifyExact exp hexp (Ty.paramsIn_seq.mpr ⟨hn.mono hK₂, ha⟩)).bind fun hK₃ _ _ => ?_
    exact .pure ⟨hn.mono (hK₂.trans hK₃), ha.mono hK₃⟩

end Infer
end SizedTypes
