import SizedTypes.Infer.Monad

/-!
# Runs that return

`Returns act c s a s'` says that a computation, started in `s`, returns `a` and leaves `s'`. One
equivalence for each way to put computations together takes a run apart.
-/

set_option autoImplicit false

namespace SizedTypes.Infer

variable {α β : Type} {c : Context} {s s' : State}

def Returns (act : Infer α) (c : Context) (s : State) (a : α) (s' : State) : Prop :=
  act.exec c s = (.ok a, s')

@[simp] theorem returns_pure {a b : α} : Returns (pure a) c s b s' ↔ b = a ∧ s' = s := by
  constructor
  · intro h
    cases h
    exact ⟨rfl, rfl⟩
  · rintro ⟨rfl, rfl⟩
    rfl

theorem exec_bind (act : Infer α) (f : α → Infer β) (c : Context) (s : State) :
    (act >>= f).exec c s = match act.exec c s with
      | (.ok a, s₁) => (f a).exec c s₁
      | (.error e, s₁) => (.error e, s₁) := by
  simp only [exec, bind, ReaderT.bind, ExceptT.bind, ExceptT.mk, StateT.bind]
  cases act c s with
  | mk r s₁ =>
    cases r with
    | ok a => rfl
    | error e => rfl

@[simp] theorem returns_bind {act : Infer α} {f : α → Infer β} {b : β} :
    Returns (act >>= f) c s b s' ↔ ∃ a s₁, Returns act c s a s₁ ∧ Returns (f a) c s₁ b s' := by
  unfold Returns
  rw [exec_bind]
  cases act.exec c s with
  | mk r s₁ =>
    cases r with
    | ok a =>
      constructor
      · exact fun h => ⟨a, s₁, rfl, h⟩
      · rintro ⟨a', s₂, heq, h⟩
        cases heq
        exact h
    | error e => simp

@[simp] theorem returns_map {act : Infer α} {f : α → β} {b : β} :
    Returns (f <$> act) c s b s' ↔ ∃ a, Returns act c s a s' ∧ b = f a := by
  rw [map_eq_pure_bind, returns_bind]
  simp

@[simp] theorem returns_get {a : State} : Returns get c s a s' ↔ a = s ∧ s' = s :=
  returns_pure (c := c)

@[simp] theorem returns_set {t : State} {a : PUnit} : Returns (set t) c s a s' ↔ s' = t := by
  constructor
  · intro h
    cases h
    rfl
  · rintro rfl
    rfl

@[simp] theorem returns_modify {f : State → State} {a : PUnit} :
    Returns (modify f) c s a s' ↔ s' = f s := by
  constructor
  · intro h
    cases h
    rfl
  · rintro rfl
    rfl

@[simp] theorem returns_read {a : Context} : Returns read c s a s' ↔ a = c ∧ s' = s := by
  constructor
  · intro h
    cases h
    exact ⟨rfl, rfl⟩
  · rintro ⟨rfl, rfl⟩
    rfl

@[simp] theorem not_returns_throw {e : InternalError} {a : α} : ¬Returns (throw e) c s a s' := by
  intro h
  cases h

@[simp] theorem returns_withReader {act : Infer α} {f : Context → Context} {a : α} :
    Returns (withReader f act) c s a s' ↔ Returns act (f c) s a s' := Iff.rfl

@[simp] theorem returns_discard {act : Infer α} {a : PUnit} :
    Returns (discard act) c s a s' ↔ ∃ b, Returns act c s b s' := by
  show Returns ((Function.const α PUnit.unit) <$> act) c s a s' ↔ _
  rw [returns_map]
  simp

/-! Steps that only look at the state or replace it leave nothing to name. -/

@[simp 1100] theorem returns_get_bind {f : State → Infer β} {b : β} :
    Returns (get >>= f) c s b s' ↔ Returns (f s) c s b s' := Iff.rfl

@[simp 1100] theorem returns_read_bind {f : Context → Infer β} {b : β} :
    Returns (read >>= f) c s b s' ↔ Returns (f c) c s b s' := Iff.rfl

@[simp 1100] theorem returns_set_bind {t : State} {f : PUnit → Infer β} {b : β} :
    Returns (set t >>= f) c s b s' ↔ Returns (f ⟨⟩) c t b s' := Iff.rfl

@[simp 1100] theorem returns_modify_bind {g : State → State} {f : PUnit → Infer β} {b : β} :
    Returns (modify g >>= f) c s b s' ↔ Returns (f ⟨⟩) c (g s) b s' := Iff.rfl

/-! ## Loops -/

@[simp] theorem returns_mapM_nil {f : α → Infer β} {bs : List β} :
    Returns (([] : List α).mapM f) c s bs s' ↔ bs = [] ∧ s' = s := by
  simp

@[simp] theorem returns_mapM_cons {x : α} {xs : List α} {f : α → Infer β} {bs : List β} :
    Returns ((x :: xs).mapM f) c s bs s' ↔ ∃ b s₁ bs', Returns (f x) c s b s₁ ∧
      Returns (xs.mapM f) c s₁ bs' s' ∧ bs = b :: bs' := by
  rw [List.mapM_cons]
  simp

end SizedTypes.Infer
