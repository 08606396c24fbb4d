import SizedTypes.Proofs.Subst.WellFormed
import SizedTypes.Proofs.Ty.Params
import SizedTypes.Solver

/-!
# The parameters of substitutions and answers

Substitution, unification and simplification bring in no parameters. A solver is confined if that is
true of its answers as well: it takes the parameters of a query as they are, and makes up no others.
-/

set_option autoImplicit false

namespace SizedTypes

variable {K K' : Set Int}

namespace Subst

/-- All parameters in the bindings are among `K`. -/
def ParamsIn (K : Set Int) (s : Subst) : Prop := ∀ b ∈ s.bindings, b.2.ParamsIn K

variable {s s' : Subst}

theorem ParamsIn.mono (h : s.ParamsIn K) (hK : K ⊆ K') : s.ParamsIn K' :=
  fun b hb => (h b hb).mono hK

theorem paramsIn_empty : Subst.empty.ParamsIn K := List.forall_mem_nil _

theorem paramsIn_onlyScopes (s : Subst) : s.onlyScopes.ParamsIn K := List.forall_mem_nil _

theorem ParamsIn.apply (h : s.ParamsIn K) {t : Ty} (ht : t.ParamsIn K) :
    (s.apply t).ParamsIn K := by
  unfold Subst.apply
  obtain ⟨bs, scopes⟩ := s
  change ∀ b ∈ bs, b.2.ParamsIn K at h
  induction bs with
  | nil => exact ht
  | cons b bs ih =>
    obtain ⟨hb, hbs⟩ := List.forall_mem_cons.mp h
    exact (ih hbs).replace hb b.1.id

theorem ParamsIn.extend (h : s.ParamsIn K) {v : TyVar} {t : Ty} (ht : t.ParamsIn K)
    (hext : s.extend v t = .ok s') : s'.ParamsIn K := by
  rcases extend_eq_ok hext with ⟨rfl, -⟩ | hext
  · exact h
  · rw [hext.eq]
    exact List.forall_mem_cons.mpr ⟨h.apply ht, h⟩

theorem ParamsIn.extendOrSkip (h : s.ParamsIn K) {v : TyVar} {t : Ty} (ht : t.ParamsIn K) :
    (s.extendOrSkip v t).ParamsIn K := by
  unfold Subst.extendOrSkip
  split
  · rename_i hext
    exact h.extend ht hext
  · exact h

theorem ParamsIn.entries (h : s.ParamsIn K) : ∀ b ∈ s.entries, b.2.ParamsIn K :=
  fun b hb => h b (mem_bindings_of_mem_entries hb)

/-- Bindings that are refused are left out. -/
theorem ParamsIn.extendEach (h : s.ParamsIn K) {bs : List (TyVar × Ty)}
    (hbs : ∀ b ∈ bs, b.2.ParamsIn K) :
    (bs.foldl (fun s b => s.extendOrSkip b.1 b.2) s).ParamsIn K := by
  induction bs generalizing s with
  | nil => exact h
  | cons b bs ih =>
    obtain ⟨hb, hbs⟩ := List.forall_mem_cons.mp hbs
    exact ih (h.extendOrSkip hb) hbs

theorem ParamsIn.merge {δ : Subst} (h : s.ParamsIn K) (hδ : δ.ParamsIn K)
    (hmerge : s.merge δ = .ok s') : s'.ParamsIn K := by
  have key : ∀ {bs : List (TyVar × Ty)} {s : Subst}, s.ParamsIn K → (∀ b ∈ bs, b.2.ParamsIn K) →
      bs.foldlM (fun s b => s.extend b.1 b.2) s = Except.ok s' → s'.ParamsIn K := by
    intro bs
    induction bs with
    | nil =>
      intro s hs _ heq
      obtain rfl : s = s' := by simpa [pure, Except.pure] using heq
      exact hs
    | cons b bs ih =>
      intro s hs hbs heq
      obtain ⟨s₁, hext, heq⟩ := extendAll_cons heq
      obtain ⟨hb, hbs⟩ := List.forall_mem_cons.mp hbs
      exact ih (hs.extend hb hext) hbs heq
  exact key h hδ.entries hmerge

theorem ParamsIn.applySchema (h : s.ParamsIn K) {sc : Schema} (hsc : sc.ParamsIn K) :
    (s.applySchema sc).ParamsIn K := hsc.mapTypes fun _ ht => h.apply ht

end Subst

/-! ## Unification -/

namespace Unify

open Relation (ReflTransGen)

theorem paramsIn_of_mem_parts {t u : Ty} (ht : t.ParamsIn K) (h : u ∈ parts t) : u.ParamsIn K := by
  cases ht with
  | con hargs => exact hargs u h
  | record hfs =>
    obtain ⟨f, hf, rfl⟩ := List.mem_map.mp h
    exact hfs f hf
  | newtype _ _ hargs => exact hargs u h
  | _ => simp [parts] at h

/-- An equality that is put off is about the two sides of the pair. -/
theorem paramsIn_of_defer {s : Subst} {a b e : Ty} (h : step s a b = .ok (.defer e))
    (ha : a.ParamsIn K) (hb : b.ParamsIn K) : e.ParamsIn K := by
  have hequal : ∀ {l r : Ty}, l.ParamsIn K → r.ParamsIn K → (Ty.equal l r).ParamsIn K :=
    fun hl hr => Ty.paramsIn_compare.mpr ⟨hl, hr⟩
  have hchecked : ∀ {v : TyVar} {t : Ty}, t.ParamsIn K →
      bindChecked s v t = .ok (.defer e) → e.ParamsIn K := by
    intro v t ht h
    unfold bindChecked at h
    split at h
    · cases h
    · split at h
      · dsimp only at h
        split at h <;> cases h
      · split at h
        · cases h
        · dsimp only at h
          split at h
          · cases h
            exact hequal .free ht
          · cases h
  have hvar : ∀ {v : TyVar} {t : Ty}, t.ParamsIn K → bindVar s v t = .ok (.defer e) →
      e.ParamsIn K := by
    intro v t ht h
    unfold bindVar at h
    split at h
    · split at h
      · cases h
      · split at h
        · cases h
        · exact hchecked ht h
    · exact hchecked ht h
  have hmismatch : ∀ {l r : Ty}, l.ParamsIn K → r.ParamsIn K →
      mismatch l r = .ok (.defer e) → e.ParamsIn K := by
    intro l r hl hr h
    unfold mismatch at h
    split at h
    · cases h
    · split at h
      · cases h
        exact hequal hl hr
      · cases h
  have hdecompose : ∀ {l r : Ty}, l.ParamsIn K → r.ParamsIn K →
      decompose l r = .ok (.defer e) → e.ParamsIn K := by
    intro l r hl hr h
    unfold decompose at h
    repeat' split at h
    all_goals first
      | exact hmismatch hl hr h
      | cases h
  unfold step at h
  split at h
  · cases h
  · unfold stepExpanded at h
    split at h
    · exact hvar hb.expand h
    · exact hvar ha.expand h
    · exact hdecompose ha.expand hb.expand h

structure Problem.ParamsIn (K : Set Int) (p : Problem) : Prop where
  subst : p.subst.ParamsIn K
  props : ∀ e ∈ p.props, e.ParamsIn K
  sides : ∀ t ∈ sides p.pairs, t.ParamsIn K

theorem Reduces.paramsIn {p q : Problem} (h : Reduces p q) (hp : p.ParamsIn K) : q.ParamsIn K := by
  have hprops : ∀ e ∈ q.props, e.ParamsIn K := by
    cases h with
    | defer hstep =>
      refine List.forall_mem_append.mpr ⟨hp.props, List.forall_mem_singleton.mpr ?_⟩
      exact paramsIn_of_defer hstep (hp.sides _ (by simp [Unify.sides]))
        (hp.sides _ (by simp [Unify.sides]))
    | _ => exact hp.props
  rcases h.sides_cases with ⟨heq, hsides⟩ | ⟨v, t, hcommit, -, -, -, ⟨u, hu, rfl⟩, -, hsides⟩
  · refine ⟨heq ▸ hp.subst, hprops, fun t ht => ?_⟩
    obtain ⟨u, hu, rfl | hpart⟩ := hsides t ht
    · exact hp.sides t hu
    · exact paramsIn_of_mem_parts (hp.sides u hu).expand hpart
  · have ht := (hp.sides u hu).expand
    refine ⟨hp.subst.extend ht (extend_of_commit hcommit), hprops, fun x hx => ?_⟩
    obtain ⟨w, hw, rfl⟩ := hsides x hx
    exact (hp.sides w hw).replace ht v.id

theorem paramsIn_of_reduces {p q : Problem} (h : ReflTransGen Reduces p q) (hp : p.ParamsIn K) :
    q.ParamsIn K := by
  induction h with
  | refl => exact hp
  | tail _ h ih => exact h.paramsIn ih

end Unify

theorem paramsIn_unify {s : Subst} {a b : Ty} {u : Unifier} (h : unify s a b = .ok u)
    (ha : a.ParamsIn K) (hb : b.ParamsIn K) :
    u.subst.ParamsIn K ∧ ∀ p ∈ u.props, p.ParamsIn K := by
  have hstart : Unify.Problem.ParamsIn K ⟨s.onlyScopes, [], [(a, b)]⟩ :=
    ⟨Subst.paramsIn_onlyScopes s, List.forall_mem_nil _, by simpa [Unify.sides] using ⟨ha, hb⟩⟩
  have hend := Unify.paramsIn_of_reduces (Unify.reduces_of_unify h) hstart
  exact ⟨hend.subst, hend.props⟩

/-! ## Simplification -/

theorem paramsIn_simplify {goal : Ty} {asmps : Assumptions} {residual : List Ty}
    (h : simplify goal asmps = .ok residual) (hgoal : goal.ParamsIn K) :
    ∀ r ∈ residual, r.ParamsIn K := simplify_inherits Ty.inherited_paramsIn h hgoal

theorem paramsIn_add {a : Assumptions} {ps : List Ty} (ha : ∀ p ∈ a.props, p.ParamsIn K)
    (hps : ∀ p ∈ ps, p.ParamsIn K) : ∀ p ∈ (a.add ps).props, p.ParamsIn K := by
  refine List.forall_mem_append.mpr ⟨ha, fun p hp => ?_⟩
  obtain ⟨q, hq, hp⟩ := List.mem_flatMap.mp hp
  exact (Ty.ParamsIn.conjunctsList hps q hq).normalize.implied p hp

/-- What is bound and what is left open. -/
structure Improvement.ParamsIn (K : Set Int) (i : Improvement) : Prop where
  subst : i.subst.ParamsIn K
  rest : ∀ p ∈ i.rest, p.ParamsIn K

theorem Improvement.ParamsIn.absorb {i : Improvement} (h : i.ParamsIn K) {p : Ty}
    (hp : p.ParamsIn K) : (i.absorb p).ParamsIn K := by
  unfold Improvement.absorb
  split
  · exact ⟨h.subst, List.forall_mem_cons.mpr ⟨hp, h.rest⟩⟩
  · rename_i himprove
    obtain ⟨-, m, rfl⟩ := improve_spec himprove
    split
    · rename_i hext
      exact ⟨h.subst.extend (Ty.paramsIn_toTy m) hext, h.rest⟩
    · exact ⟨h.subst, List.forall_mem_cons.mpr ⟨hp, h.rest⟩⟩

theorem Improvement.ParamsIn.absorbAll {i : Improvement} (h : i.ParamsIn K) {ps : List Ty}
    (hps : ∀ p ∈ ps, p.ParamsIn K) : (ps.foldl Improvement.absorb i).ParamsIn K := by
  induction ps generalizing i with
  | nil => exact h
  | cons p ps ih =>
    obtain ⟨hp, hps⟩ := List.forall_mem_cons.mp hps
    exact ih (h.absorb hp) hps

/-! ## Solvers -/

structure Query.ParamsIn (K : Set Int) (q : Query) : Prop where
  params : ∀ p ∈ q.params, p.id ∈ K
  assumptions : ∀ p ∈ q.assumptions, p.ParamsIn K
  goals : ∀ p ∈ q.goals, p.ParamsIn K

structure Answer.ParamsIn (K : Set Int) (ans : Answer) : Prop where
  subst : ans.subst.ParamsIn K
  residual : ∀ p ∈ ans.residual, p.ParamsIn K

namespace Solver

/-- The answers of a solver have no parameters but those of the query. -/
def Confined (S : Solver) : Prop := ∀ (asked : Nat) (cancelled : Bool) (q : Query) (ans : Answer),
  (S.ask asked cancelled q).result = .ok ans → ∀ K, q.ParamsIn K → ans.ParamsIn K

theorem paramsIn_pass {asmps : Assumptions} {i : Improvement} {goals : List Ty}
    (hi : i.ParamsIn K) (hgoals : ∀ p ∈ goals, p.ParamsIn K) :
    (∀ i', pass asmps i goals = .ok i' → i'.ParamsIn K) ∧
      ∀ p s, pass asmps i goals = .error (p, s) → p.ParamsIn K ∧ s.ParamsIn K := by
  induction goals generalizing i with
  | nil => exact ⟨fun i' h => by cases h; exact hi, fun _ _ h => nomatch h⟩
  | cons p goals ih =>
    obtain ⟨hp, hgoals⟩ := List.forall_mem_cons.mp hgoals
    rw [pass]
    split
    · refine ⟨fun _ h => (nomatch h), fun _ _ h => ?_⟩
      cases h
      exact ⟨hp, hi.subst⟩
    · rename_i hsimplify
      exact ih (hi.absorbAll (paramsIn_simplify hsimplify (hi.subst.apply hp))) hgoals

theorem paramsIn_passes {asmps : Assumptions} {fuel : Nat} {s : Subst} {goals : List Ty}
    (hs : s.ParamsIn K) (hgoals : ∀ p ∈ goals, p.ParamsIn K) :
    (passes asmps fuel s goals).ParamsIn K := by
  induction fuel generalizing s goals with
  | zero => exact ⟨hs, hgoals⟩
  | succ fuel ih =>
    have hstart : Improvement.ParamsIn K { subst := s } := ⟨hs, List.forall_mem_nil _⟩
    obtain ⟨hok, herror⟩ := paramsIn_pass hstart hgoals
    rw [passes]
    split
    · rename_i h
      obtain ⟨hp, hs⟩ := herror _ _ h
      exact ⟨hs, List.forall_mem_singleton.mpr hp⟩
    · rename_i i h
      obtain ⟨hsubst, hrest⟩ := hok i h
      have hrest : ∀ p ∈ i.rest.reverse, p.ParamsIn K := fun p hp => hrest p (List.mem_reverse.mp hp)
      split
      · exact ih hsubst hrest
      · split
        · exact ⟨hsubst, List.forall_mem_nil _⟩
        · exact ⟨hsubst, hrest⟩

/-- The local solver only takes goals apart. -/
theorem confined_localRules : localRules.Confined := by
  intro asked cancelled q ans hans K hq
  unfold localRules at hans
  dsimp only at hans
  split at hans
  · cases hans
  · cases hans
    exact paramsIn_passes Subst.paramsIn_empty hq.goals

end Solver
end SizedTypes
