import SizedTypes.Proofs.Infer.Monad
import SizedTypes.Proofs.Subst.Merge

/-!
# Committing a unifier

Types are unified under the scopes of a substitution, whose bindings have been applied to them
before. So the bindings of the unifier are a delta on top of the substitution, and merging them
cannot fail.
-/

set_option autoImplicit false

namespace SizedTypes

open Relation (ReflTransGen)

namespace Unify

variable {scopes : Int → List Int} {Q : TyVar → Prop} {s : Subst} {p q : Problem}

/-- A property of types that reduction hands on from the sides of a problem to those of the next. -/
structure Hereditary (P : Ty → Prop) : Prop where
  expand {t : Ty} : P t → P t.expand
  part {t u : Ty} : P t → u ∈ parts t → P u
  replace {t u : Ty} : P t → P u → ∀ v, P (t.replace v u)

theorem hereditary_over : Hereditary (Ty.Over Q) where
  expand := Ty.Over.expand
  part {t u} ht h := by
    cases t with
    | con c args => exact Ty.over_con.mp ht u h
    | record fs =>
      obtain ⟨f, hf, rfl⟩ := List.mem_map.mp h
      exact ht.of_mem_record hf
    | newtype n ps fs args => exact ht.of_mem_newtype h
    | _ => simp [parts] at h
  replace := Ty.Over.replace

/-- What is bound and what is left has a property. -/
structure Problem.Over (P : Ty → Prop) (start : Subst) (p : Problem) : Prop where
  reaches : start.Reaches (fun v t => P (.free v) ∧ P t) p.subst
  sides : ∀ t ∈ sides p.pairs, P t

variable {P : Ty → Prop}

theorem Reduces.over (hP : Hereditary P) {start : Subst} (h : Reduces p q) (hp : p.Over P start) :
    q.Over P start := by
  rcases h.sides_cases with ⟨heq, hsides⟩ |
    ⟨v, t, hcommit, -, -, ⟨u, hu, hv⟩, ⟨u', hu', rfl⟩, -, hsides⟩
  · refine ⟨heq ▸ hp.reaches, fun t ht => ?_⟩
    obtain ⟨u, hu, rfl | hpart⟩ := hsides t ht
    · exact hp.sides t hu
    · exact hP.part (hP.expand (hp.sides u hu)) hpart
  · have hvar : P (.free v) := hv ▸ hP.expand (hp.sides u hu)
    have ht := hP.expand (hp.sides u' hu')
    refine ⟨hp.reaches.tail (.extend ⟨hvar, ht⟩ (extend_of_commit hcommit)), fun x hx => ?_⟩
    obtain ⟨u, hu, rfl⟩ := hsides x hx
    exact hP.replace (hp.sides u hu) ht v.id

/-- A unifier comes from the scopes of `s` by bindings of what is in the types. -/
theorem reaches_of_unify (hP : Hereditary P) {a b : Ty} (ha : P a) (hb : P b) {δ : Subst}
    {props : List Ty} (h : unify s a b = .ok ⟨δ, props⟩) :
    s.onlyScopes.Reaches (fun v t => P (.free v) ∧ P t) δ := by
  have hstart : Problem.Over P s.onlyScopes ⟨s.onlyScopes, [], [(a, b)]⟩ :=
    ⟨.refl, by simpa [Unify.sides] using ⟨ha, hb⟩⟩
  have hover : ∀ {q : Problem}, ReflTransGen Reduces ⟨s.onlyScopes, [], [(a, b)]⟩ q →
      q.Over P s.onlyScopes := by
    intro q h
    induction h with
    | refl => exact hstart
    | tail _ h ih => exact h.over hP ih
  exact (hover (reduces_of_unify h)).reaches

/-- A unifier of types that `s` leaves alone is a delta on top of `s`. -/
theorem delta_of_unify {a b : Ty} {δ : Subst} {props : List Ty}
    (ha : a.Over fun v => Subst.DeclaredIn scopes v ∧ s.lookup v.id = none)
    (hb : b.Over fun v => Subst.DeclaredIn scopes v ∧ s.lookup v.id = none)
    (h : unify s a b = .ok ⟨δ, props⟩) : Subst.Delta scopes s δ :=
  .of_reaches ((reaches_of_unify hereditary_over ha hb h).imp fun _ _ hb =>
    ⟨Ty.over_free.mp hb.1, hb.2⟩)

end Unify

/-- The unifier of two types under a substitution is merged into it without failure, whatever the
order of the variables, and then acts after the substitution. -/
theorem merge_of_unify {scopes : Int → List Int} {s : Subst}
    (hs : s.Reachable (Subst.Among (Subst.DeclaredIn scopes))) {a b : Ty}
    (ha : a.Over (Subst.DeclaredIn scopes)) (hb : b.Over (Subst.DeclaredIn scopes))
    {δ : Subst} {props : List Ty} (h : unify s (s.apply a) (s.apply b) = .ok ⟨δ, props⟩) :
    ∃ s', s.merge δ = .ok s' ∧ (∀ t, s'.apply t = δ.apply (s.apply t)) ∧
      ∀ (c : Infer.Context) (st : Infer.State), st.subst = s →
        Infer.Returns (Infer.mergeSubst δ) c st () { st with subst := s' } := by
  obtain ⟨hamong, hacyclic⟩ := Subst.Reaches.acyclic_among hs (fun _ hb => nomatch hb)
    (Subst.acyclic_onlyScopes .empty)
  have hunbound : ∀ t : Ty, t.Over (Subst.DeclaredIn scopes) →
      (s.apply t).Over fun v => Subst.DeclaredIn scopes v ∧ s.lookup v.id = none := by
    intro t ht
    have hover := Subst.over_apply hamong ht
    exact ⟨hover.phantomFree, fun v hv => ⟨hover.vars v hv,
      hacyclic.lookup_of_mem_leafIds (Ty.mem_leafIds.mpr ⟨v, hv, rfl⟩)⟩⟩
  have hdelta := Unify.delta_of_unify (hunbound a ha) (hunbound b hb) h
  obtain ⟨s', hmerge, happly⟩ := hdelta.merge hamong hacyclic
  refine ⟨s', hmerge, happly, fun c st hst => ?_⟩
  unfold Infer.mergeSubst
  rw [Infer.returns_get_bind, hst, hmerge]
  exact Infer.returns_modify.mpr rfl

namespace Subst

variable {scopes : Int → List Int} {Q Q' : TyVar → Prop} {s s₁ s' : Subst} {t : Ty} {w : TyVar}
  {i : Int}

/-- `s'` comes from `s` by bindings of variables in `Q` to types that are open in these. -/
def Grows (Q : TyVar → Prop) : Subst → Subst → Prop :=
  ReflTransGen fun s s' => ∃ v t, Q v ∧ (s.apply t).OpenIn Q ∧ Extended s v t s'

theorem Grows.refl (s : Subst) : Grows Q s s := ReflTransGen.refl

theorem Grows.trans (h : Grows Q s s₁) (h' : Grows Q s₁ s') : Grows Q s s' :=
  ReflTransGen.trans h h'

theorem Grows.mono (h : Grows Q s s') (hQ : ∀ v, Q v → Q' v) : Grows Q' s s' :=
  ReflTransGen.mono (fun _ _ ⟨v, t, hv, ht, hext⟩ => ⟨v, t, hQ v hv, ht.imp hQ, hext⟩) _ _ h

theorem Grows.bindings (h : Grows Q s s') : ∃ new, s'.bindings = new ++ s.bindings := by
  induction h with
  | refl => exact ⟨[], rfl⟩
  | tail _ hstep ih =>
    obtain ⟨new, hnew⟩ := ih
    obtain ⟨v, t, -, -, hext⟩ := hstep
    rw [hext.eq, hnew]
    exact ⟨_ :: new, rfl⟩

theorem Grows.lookup (h : Grows Q s s') (hi : ∀ v, Q v → v.id ≠ i) : s'.lookup i = s.lookup i := by
  induction h with
  | refl => rfl
  | tail _ hstep ih =>
    obtain ⟨v, t, hv, -, hext⟩ := hstep
    rw [hext.eq, Subst.lookup, List.find?_cons_of_neg (by simpa using hi v hv)]
    exact ih

theorem Grows.openIn (h : Grows Q s s') (ht : (s.apply t).OpenIn Q) : (s'.apply t).OpenIn Q := by
  induction h with
  | refl => exact ht
  | tail _ hstep ih =>
    obtain ⟨v, u, -, hu, hext⟩ := hstep
    rw [hext.apply]
    exact ih.replace hu v.id

/-- A type that is an unbound variable stays one while others are bound. -/
theorem Grows.expand (h : Grows Q s s') (hw : ∀ v, Q v → v.id ≠ w.id)
    (ht : (s.apply t).expand = .free w) : (s'.apply t).expand = .free w := by
  induction h with
  | refl => exact ht
  | tail _ hstep ih =>
    obtain ⟨v, u, hv, -, hext⟩ := hstep
    rw [hext.apply]
    exact Ty.expand_replace_of_free (hw v hv).symm ih

theorem openIn_apply (hs : ∀ b ∈ s.bindings, b.2.OpenIn Q) (ht : t.OpenIn Q) :
    (s.apply t).OpenIn Q := by
  have key : ∀ bs : List (TyVar × Ty), (∀ b ∈ bs, b.2.OpenIn Q) →
      (bs.foldr (fun b u => u.replace b.1.id b.2) t).OpenIn Q := by
    intro bs hbs
    induction bs with
    | nil => exact ht
    | cons b bs ih =>
      obtain ⟨hb, hbs⟩ := List.forall_mem_cons.mp hbs
      exact (ih hbs).replace hb b.1.id
  exact key s.bindings hs

/-- Bindings that come from types open in `Q` are open in `Q`. -/
theorem Reaches.openIn {start : Subst} (h : start.onlyScopes.Reaches
    (fun v t => (Ty.free v).OpenIn Q ∧ t.OpenIn Q) s) :
    ∀ b ∈ s.bindings, Q b.1 ∧ b.2.OpenIn Q := by
  refine h.induct (P := fun s => ∀ b ∈ s.bindings, Q b.1 ∧ b.2.OpenIn Q) (List.forall_mem_nil _)
    fun hs hb hext => ?_
  rw [hext.eq]
  refine List.forall_mem_cons.mpr ⟨⟨?_, openIn_apply (fun b hb => (hs b hb).2) hb.2⟩, hs⟩
  cases hb.1 with
  | free hv => exact hv

end Subst

namespace Unify

open Subst (outerVar innerVar outerParam pairBinding pairBinding_declared chainScopes DeclaredIn
  Among)

/-! `(?3, ?2)` and `(?1, a10)` where `?1` is `Pair ?2`. Unification binds `?3` first, and the merge
binds `?2` first. -/

def lateVar : TyVar := { id := 3, kind := .type, scope := [10, 11] }

def pairStart : Subst := { bindings := [(outerVar, pairBinding)], scopes := [(2, [10])] }

def pairDelta : Subst where
  bindings := [(innerVar, .bound outerParam), (lateVar, .tuple [.free innerVar, .bit])]
  scopes := [(2, [10])]

theorem unify_pairStart :
    unify pairStart (pairStart.apply (.tuple [.free lateVar, .free innerVar]))
      (pairStart.apply (.tuple [.free outerVar, .bound outerParam])) = .ok ⟨pairDelta, []⟩ := by
  have hreduces : ReflTransGen Reduces
      ⟨pairStart.onlyScopes, [], [(.tuple [.free lateVar, .free innerVar],
        .tuple [pairBinding, .bound outerParam])]⟩ ⟨pairDelta, [], []⟩ :=
    .tail (.tail (.tail .refl (.pairs rfl)) (.assign rfl rfl)) (.assign rfl rfl)
  have hsolve : solve pairStart.onlyScopes [] [(.tuple [.free lateVar, .free innerVar],
      .tuple [pairBinding, .bound outerParam])] = .ok (pairDelta, []) := by
    refine (solve_eq_of_reduces hreduces).trans ?_
    rw [Problem.solve, solve]
  unfold unify
  split
  · rename_i heq
    cases hsolve.symm.trans heq
    rfl
  · rename_i heq
    cases hsolve.symm.trans heq

theorem merge_of_unify_pairStart : ∃ s', pairStart.merge pairDelta = .ok s' ∧
    ∀ t, s'.apply t = pairDelta.apply (pairStart.apply t) := by
  have hreach : pairStart.Reachable (Among (DeclaredIn chainScopes)) :=
    .single (.extend (v := outerVar) (t := pairBinding) ⟨rfl, pairBinding_declared⟩ rfl)
  have hleft : (Ty.tuple [.free lateVar, .free innerVar]).Over (DeclaredIn chainScopes) := by
    refine Ty.over_con.mpr ?_
    simpa using ⟨Ty.over_free.mpr rfl, Ty.over_free.mpr rfl⟩
  have hright : (Ty.tuple [.free outerVar, .bound outerParam]).Over (DeclaredIn chainScopes) := by
    refine Ty.over_con.mpr ?_
    simpa using ⟨Ty.over_free.mpr rfl, Ty.over_bound⟩
  obtain ⟨s', hmerge, happly, -⟩ := merge_of_unify hreach hleft hright unify_pairStart
  exact ⟨s', hmerge, happly⟩

end Unify
end SizedTypes
