import SizedTypes.Proofs.Core.Mentions
import SizedTypes.Proofs.Infer.Calls
import SizedTypes.Proofs.Infer.Provides.Types
import SizedTypes.Proofs.Unify.Commit

/-!
# Checks that come to an end

What cannot be unified is recorded, and a check goes on. It stops early only where a name is
missing, or where a unifier cannot be merged. Neither happens in a state that finds the names and
whose variables have the scopes that were declared for their ids, as long as there are ids left for
the variables to come.
-/

set_option autoImplicit false

namespace SizedTypes

namespace Infer

open Surface (Visible)
open SizedTypes.Core (Term)
open Subst (DeclaredIn)

/-! ## States from which a check comes to an end -/

/-- What is visible in `v` is found from `s`, and so is the primitive that splits sequences. All
variables have the scopes that `scopes` declares, also the next `k` variables. -/
structure Prepared (scopes : Int → List Int) (v : Visible) (k : Nat) (c : Context) (s : State) :
    Prop where
  types : ∀ id, v.type id = true → s.FindsType c.external id
  params : ∀ id, v.param id = true → s.FindsParam id
  subst : s.subst.Declared scopes
  existentials : ∀ scope ∈ s.existentials, ∀ e ∈ scope, e.2.VarsIn (DeclaredIn scopes)
  synonyms : ∀ id ts,
    Scope.lookup Core.Module.synonyms c.external.synonyms id s.scopes = some ts →
      ts.body.VarsIn (DeclaredIn scopes)
  prims : c.prims = v.prims
  splits : ∃ n sc, c.prims.lookup "splitAt" = some n ∧
    s.typeOf c.external n.id = some (.known sc) ∧ sc.body.VarsIn (DeclaredIn scopes) ∧
      sc.params.map (fun p => p.name.map Name.ident) = [some "front", some "back", some "a"]
  fresh : ∀ j < k, scopes (Word.next^[j] s.nextTypeVar) = (s.params.map Param.id).eraseDups

variable {scopes : Int → List Int} {v : Visible} {c : Context} {s s' : State}

namespace Prepared

variable {k m : Nat}

theorem anti (h : Prepared scopes v k c s) (hle : m ≤ k) : Prepared scopes v m c s :=
  { h with fresh := fun j hj => h.fresh j (hj.trans_le hle) }

theorem located (h : Prepared scopes v k c s) (r : Range) :
    Prepared scopes v k { c with range := r.orElse c.range } s := { h with }

end Prepared

/-- From a state that is prepared for `n` variables besides others, the computation returns
something that satisfies `P`. It draws no names and leaves a state that is prepared for the others. -/
structure Completes (scopes : Int → List Int) (v : Visible) (n : Nat) {α : Type} (act : Infer α)
    (P : α → Prop) : Prop where
  step : ∀ {m : Nat} {c : Context} {s : State}, Prepared scopes v (n + m) c s →
    ∃ a s', Returns act c s a s' ∧ Prepared scopes v m c s' ∧ s'.supply = s.supply ∧ P a

namespace Completes

variable {α β : Type} {n l : Nat} {P : α → Prop} {Q : β → Prop} {act : Infer α}

theorem pure {a : α} (h : P a) : Completes scopes v 0 (Pure.pure a) P where
  step {m c s} hs := ⟨a, s, returns_pure.mpr ⟨rfl, rfl⟩, hs.anti (by omega), rfl, h⟩

theorem bind {f : α → Infer β} (h : Completes scopes v n act P)
    (h' : ∀ a, P a → Completes scopes v l (f a) Q) :
    Completes scopes v (n + l) (act >>= f) Q where
  step {m c s} hs := by
    obtain ⟨a, s₁, ha, hs₁, hsupply₁, hP⟩ := h.step (hs.anti (m := n + (l + m)) (by omega))
    obtain ⟨b, s', hb, hs', hsupply, hQ⟩ := (h' a hP).step hs₁
    exact ⟨b, s', returns_bind.mpr ⟨a, s₁, ha, hb⟩, hs', hsupply.trans hsupply₁, hQ⟩

theorem weaken {P' : α → Prop} (h : Completes scopes v n act P) (hle : n ≤ l)
    (hP : ∀ a, P a → P' a) : Completes scopes v l act P' where
  step {m c s} hs := by
    obtain ⟨a, s', ha, hs', hsupply, h⟩ := h.step (hs.anti (m := n + m) (by omega))
    exact ⟨a, s', ha, hs', hsupply, hP a h⟩

theorem mono (h : Completes scopes v n act P) (hle : n ≤ l) : Completes scopes v l act P :=
  h.weaken hle fun _ => id

theorem withRange {r : Range} (h : Completes scopes v n act P) :
    Completes scopes v n (withRange r act) P where
  step {m c s} hs := by
    obtain ⟨a, s', ha, hs', hrest⟩ := h.step (hs.located r)
    exact ⟨a, s', returns_withReader.mpr ha, { hs' with }, hrest⟩

theorem discard (h : Completes scopes v n act P) :
    Completes scopes v n (Functor.discard act) fun _ => True where
  step hs := by
    obtain ⟨a, s', ha, hs', hsupply, -⟩ := h.step hs
    exact ⟨⟨⟩, s', returns_discard.mpr ⟨a, ha⟩, hs', hsupply, trivial⟩

theorem modify {f : State → State}
    (h : ∀ {m : Nat} {c : Context} {s : State},
      Prepared scopes v m c s → Prepared scopes v m c (f s))
    (hsupply : ∀ s, (f s).supply = s.supply) :
    Completes scopes v 0 (modify f : Infer PUnit) fun _ => True where
  step {m c s} hs :=
    ⟨⟨⟩, f s, returns_modify.mpr rfl, h (hs.anti (by omega)), hsupply s, trivial⟩

theorem forM {xs : List α} {f : α → Infer PUnit}
    (h : ∀ x ∈ xs, Completes scopes v 0 (f x) fun _ => True) :
    Completes scopes v 0 (xs.forM f) fun _ => True := by
  induction xs with
  | nil => exact pure trivial
  | cons x xs ih =>
    rw [List.forM_eq_forM, List.forM_cons]
    exact (h x (by simp)).bind fun _ _ => ih fun y hy => h y (by simp [hy])

/-- Each element gives one result, in the relation `R`. -/
theorem mapM {xs : List α} {f : α → Infer β} {R : α → β → Prop}
    (h : ∀ x ∈ xs, Completes scopes v n (f x) (R x)) :
    Completes scopes v (xs.length * n) (xs.mapM f) fun bs => bs.length = xs.length ∧
      (∀ x ∈ xs, ∃ b ∈ bs, R x b) ∧ ∀ b ∈ bs, ∃ x ∈ xs, R x b := by
  induction xs with
  | nil => exact .mono (pure (by simp)) (Nat.zero_le _)
  | cons x xs ih =>
    rw [List.mapM_cons]
    refine .mono ((h x (by simp)).bind fun b hb =>
      (ih fun y hy => h y (by simp [hy])).bind fun bs hbs => pure ?_) ?_
    · obtain ⟨hlen, hxs, hbs⟩ := hbs
      refine ⟨by simp [hlen], List.forall_mem_cons.mpr ⟨⟨b, by simp, hb⟩, fun y hy => ?_⟩,
        List.forall_mem_cons.mpr ⟨⟨x, by simp, hb⟩, fun d hd => ?_⟩⟩
      · obtain ⟨d, hd, hyd⟩ := hxs y hy
        exact ⟨d, List.mem_cons_of_mem _ hd, hyd⟩
      · obtain ⟨y, hy, hyd⟩ := hbs d hd
        exact ⟨y, List.mem_cons_of_mem _ hy, hyd⟩
    · rw [List.length_cons, Nat.succ_mul]
      omega

end Completes

/-! ## Messages, fresh things and goals -/

theorem completes_currentRange : Completes scopes v 0 currentRange fun _ => True where
  step {m c s} hs := ⟨c.range, s, rfl, hs.anti (by omega), rfl, trivial⟩

theorem completes_recordError (e : TypeError) :
    Completes scopes v 0 (recordError e) fun _ => True :=
  .mono (completes_currentRange.bind fun _ _ => .modify (fun hs => { hs with }) fun _ => rfl) le_rfl

theorem completes_recordWarning (w : Warning) :
    Completes scopes v 0 (recordWarning w) fun _ => True := by
  unfold recordWarning
  split
  · exact .mono (completes_currentRange.bind fun _ _ =>
      .modify (fun hs => { hs with }) fun _ => rfl) le_rfl
  · exact .pure trivial

/-- The variable depends on what the state has prepared for its id. -/
theorem completes_freshVar (k : Kind) (src : TypeSource) :
    Completes scopes v 1 (freshVar k src) (DeclaredIn scopes) where
  step {m c s} hs := by
    refine ⟨_, { s with nextTypeVar := Word.next s.nextTypeVar, draws := s.draws + 1 }, rfl,
      { hs with fresh := fun j hj => ?_ }, rfl, ?_⟩
    · rw [← Function.iterate_succ_apply]
      exact hs.fresh (j + 1) (by omega)
    · exact (hs.fresh 0 (by omega)).symm

theorem completes_freshType (k : Kind) (src : TypeSource) :
    Completes scopes v 1 (freshType k src) (Ty.VarsIn (DeclaredIn scopes)) :=
  (completes_freshVar k src).bind fun _ hw => .pure (Ty.varsIn_free.mpr hw)

variable {exp : Expected}

theorem mem_assignment_varsIn {Q : TyVar → Prop} {ps : List Param} {args : List Ty}
    (h : ∀ a ∈ args, a.VarsIn Q) : ∀ e ∈ Schema.assignment ps args, e.2.VarsIn Q := by
  intro e he
  obtain ⟨x, hx, rfl⟩ := List.mem_map.mp (Table.mem_ofList he)
  exact h _ (List.of_mem_zip hx).2

end Infer
end SizedTypes
