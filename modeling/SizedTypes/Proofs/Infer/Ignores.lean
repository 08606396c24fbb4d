import SizedTypes.Infer.Kinding
import SizedTypes.Proofs.Infer.Monad

/-!
# Changes that written types do not see

The check of a written type looks names up; it looks neither at what is assumed or left to prove,
nor at the constraints of the module, nor at what has been reported, nor at the solver and its
record. After a change of these it does the same, and the change stays.
-/

set_option autoImplicit false

namespace SizedTypes.Infer

open Surface (TypeExpr TypeParam)

/-- A change of the assumptions, of the constraints on the parameters of the innermost module, of
the goal store, of the solver and of its record, with errors reported earlier and conditions emitted
earlier. -/
structure Change where
  assumptions : Assumptions → Assumptions := id
  constraints : List Ty → List Ty := id
  goals : List Goal → List Goal := id
  solver : Solver → Solver := id
  queries : List Query → List Query := id
  cancelled : Bool → Bool := id
  errors : List Diagnostic := []
  conditions : List Goal := []

namespace Change

variable (σ : Change)

def context (c : Context) : Context := { c with solver := σ.solver c.solver }

def scope (sc : Scope) : Scope :=
  { sc with content := { sc.content with paramProps := σ.constraints sc.content.paramProps } }

def state (s : State) : State :=
  { s with
    assumptions := σ.assumptions s.assumptions
    goals := σ.goals s.goals
    scopes := s.scopes.modifyHead σ.scope
    errors := σ.errors ++ s.errors
    queries := σ.queries s.queries
    cancelled := σ.cancelled s.cancelled }

def kinding (k : Kinding) : Kinding := { k with goals := σ.conditions ++ k.goals }

/-- The end of a check of a written type. -/
def outcome {α : Type} (r : Except InternalError (α × Kinding) × State) :
    Except InternalError (α × Kinding) × State :=
  (r.1.map (Prod.map id σ.kinding), σ.state r.2)

/-- A table without the constraints is looked up as before. -/
theorem lookup_scopes {α : Type} {table : Core.Module → Table Int α}
    (htable : ∀ m ps, table { m with paramProps := ps } = table m) (external : Table Int α)
    (id : Int) (scs : List Scope) :
    Scope.lookup table external id (scs.modifyHead σ.scope) =
      Scope.lookup table external id scs := by
  cases scs with
  | nil => rfl
  | cons sc scs => simp only [List.modifyHead_cons, Scope.lookup, scope, htable]

end Change

/-- A computation that does not see the change. -/
structure Ignores (σ : Change) {α : Type} (act : Infer α) : Prop where
  exec_state : ∀ c s, act.exec (σ.context c) (σ.state s) =
    ((act.exec c s).1, σ.state (act.exec c s).2)

variable {σ : Change} {α β : Type}

namespace Ignores

theorem pure (a : α) : Ignores σ (Pure.pure a : Infer α) := ⟨fun _ _ => rfl⟩

theorem bind {act : Infer α} {f : α → Infer β} (h : Ignores σ act) (h' : ∀ a, Ignores σ (f a)) :
    Ignores σ (act >>= f) where
  exec_state c s := by
    rw [exec_bind, exec_bind, h.exec_state]
    rcases act.exec c s with ⟨_ | a, s₁⟩
    · rfl
    · exact (h' a).exec_state c s₁

theorem modify {f : State → State} (hf : ∀ s, f (σ.state s) = σ.state (f s)) :
    Ignores σ (modify f : Infer PUnit) where
  exec_state c s := by
    show (Except.ok PUnit.unit, f (σ.state s)) = (Except.ok PUnit.unit, σ.state (f s))
    rw [hf]

theorem ite {p : Prop} [Decidable p] {act act' : Infer α} (h : Ignores σ act)
    (h' : Ignores σ act') : Ignores σ (if p then act else act') := by
  split
  · exact h
  · exact h'

end Ignores

theorem ignores_currentRange : Ignores σ currentRange := ⟨fun _ _ => rfl⟩

theorem ignores_recordError (e : TypeError) : Ignores σ (recordError e) :=
  ignores_currentRange.bind fun range => .modify fun s => by
    simp only [Change.state, List.append_assoc]

theorem ignores_recordWarning (w : Warning) : Ignores σ (recordWarning w) :=
  .ite (ignores_currentRange.bind fun _ => .modify fun _ => rfl) (.pure _)

theorem ignores_freshType (kd : Kind) (src : TypeSource) : Ignores σ (freshType kd src) :=
  ⟨fun _ _ => rfl⟩

theorem ignores_freshParam (kd : Kind) (n : Option Name) : Ignores σ (freshParam kd n) :=
  ⟨fun _ _ => rfl⟩

theorem ignores_lookup {γ : Type} {table : Core.Module → Table Int γ}
    (htable : ∀ m ps, table { m with paramProps := ps } = table m)
    (external : External → Table Int γ) (id : Int) :
    Ignores σ (do return Scope.lookup table (external (← read).external) id (← get).scopes) where
  exec_state c s := by
    show (Except.ok (Scope.lookup table _ id (s.scopes.modifyHead σ.scope)), _) = _
    rw [σ.lookup_scopes htable]
    rfl

/-! ## Written types -/

/-- A check of a written type that does not see the change. -/
structure KindIgnores (σ : Change) {α : Type} (act : KindInfer α) : Prop where
  exec_run : ∀ k c s, (act.run (σ.kinding k)).exec (σ.context c) (σ.state s) =
    σ.outcome ((act.run k).exec c s)

namespace KindIgnores

theorem pure (a : α) : KindIgnores σ (Pure.pure a : KindInfer α) := ⟨fun _ _ _ => rfl⟩

theorem throw (e : InternalError) : KindIgnores σ (MonadExcept.throw e : KindInfer α) :=
  ⟨fun _ _ _ => rfl⟩

theorem bind {act : KindInfer α} {f : α → KindInfer β} (h : KindIgnores σ act)
    (h' : ∀ a, KindIgnores σ (f a)) : KindIgnores σ (act >>= f) where
  exec_run k c s := by
    rw [StateT.run_bind, StateT.run_bind, exec_bind, exec_bind, h.exec_run]
    rcases (act.run k).exec c s with ⟨_ | ⟨a, k₁⟩, s₁⟩
    · rfl
    · exact (h' a).exec_run k₁ c s₁

theorem get_bind {f : Kinding → KindInfer β} (hf : ∀ k, f (σ.kinding k) = f k)
    (h : ∀ k, KindIgnores σ (f k)) : KindIgnores σ (get >>= f) where
  exec_run k c s := by
    show ((f (σ.kinding k)).run (σ.kinding k)).exec (σ.context c) (σ.state s) = _
    rw [hf]
    exact (h k).exec_run k c s

theorem modify {f : Kinding → Kinding} (hf : ∀ k, f (σ.kinding k) = σ.kinding (f k)) :
    KindIgnores σ (modify f : KindInfer PUnit) where
  exec_run k c s := by
    show (Except.ok (PUnit.unit, f (σ.kinding k)), _) =
      (Except.ok (PUnit.unit, σ.kinding (f k)), _)
    rw [hf]
    rfl

theorem getState_bind {f : State → KindInfer β} (hf : ∀ s, f (σ.state s) = f s)
    (h : ∀ s, KindIgnores σ (f s)) : KindIgnores σ (getThe State >>= f) where
  exec_run k c s := by
    show ((f (σ.state s)).run (σ.kinding k)).exec (σ.context c) (σ.state s) = _
    rw [hf]
    exact (h s).exec_run k c s

theorem modifyState {f : State → State} (hf : ∀ s, f (σ.state s) = σ.state (f s)) :
    KindIgnores σ (modifyThe State f : KindInfer PUnit) where
  exec_run k c s := by
    show (Except.ok (PUnit.unit, σ.kinding k), f (σ.state s)) =
      (Except.ok (PUnit.unit, σ.kinding k), σ.state (f s))
    rw [hf]

theorem lift {act : Infer α} (h : Ignores σ act) : KindIgnores σ (liftM act : KindInfer α) where
  exec_run k c s := by
    show ((act >>= fun a => Pure.pure (a, σ.kinding k)) : Infer _).exec _ _ =
      σ.outcome (((act >>= fun a => Pure.pure (a, k)) : Infer _).exec c s)
    rw [exec_bind, exec_bind, h.exec_state]
    rcases act.exec c s with ⟨_ | a, s₁⟩ <;> rfl

theorem located {r : Range} {act : KindInfer α} (h : KindIgnores σ act) :
    KindIgnores σ (Kinding.located r act) :=
  ⟨fun k c s => h.exec_run k { c with range := r.orElse c.range } s⟩

theorem ite {p : Prop} [Decidable p] {act act' : KindInfer α} (h : KindIgnores σ act)
    (h' : KindIgnores σ act') : KindIgnores σ (if p then act else act') := by
  split
  · exact h
  · exact h'

theorem mapM {xs : List α} {f : α → KindInfer β} (h : ∀ x, KindIgnores σ (f x)) :
    KindIgnores σ (xs.mapM f) := by
  induction xs with
  | nil => exact pure []
  | cons x xs ih =>
    rw [List.mapM_cons]
    exact (h x).bind fun _ => ih.bind fun _ => pure _

end KindIgnores

theorem KindIgnores.returns {act : KindInfer α} {a : α} {k k' : Kinding} {c : Context}
    {s s' : State} (h : KindIgnores σ act) (ha : Returns (act.run k) c s (a, k') s') :
    Returns (act.run (σ.kinding k)) (σ.context c) (σ.state s) (a, σ.kinding k') (σ.state s') := by
  have hrun := h.exec_run k c s
  rw [show (act.run k).exec c s = (.ok (a, k'), s') from ha] at hrun
  exact hrun

namespace Kinding

theorem ignores_declare (ps : List TypeParam) : KindIgnores σ (declare ps) := by
  refine .mapM fun p => .getState_bind (fun _ => rfl) fun s => ?_
  have hrest : KindIgnores σ (do
      let tp ← freshParam p.kind (some p.name)
      modify fun k => { k with params := k.params.insert p.name.id tp }
      return tp) :=
    (KindIgnores.lift (ignores_freshParam ..)).bind fun _ =>
      (KindIgnores.modify fun _ => by rfl).bind fun _ => .pure _
  dsimp only
  split
  · exact .ite ((KindIgnores.lift (ignores_recordWarning _)).bind fun _ => hrest) hrest
  · exact hrest

theorem ignores_emit (src : GoalSource) (ps : List Ty) : KindIgnores σ (emit src ps) :=
  (KindIgnores.lift ignores_currentRange).bind fun _ => .modify fun k => by
    simp only [Change.kinding, List.append_assoc]

theorem ignores_placeholder (k : Kind) : KindIgnores σ (placeholder k) :=
  (KindIgnores.lift (ignores_freshType ..)).bind fun _ => .pure _

theorem ignores_atKind (k : Kind) (r : Ty × Kind) : KindIgnores σ (atKind k r) :=
  .ite ((KindIgnores.lift (ignores_recordError _)).bind fun _ => .lift (ignores_freshType ..))
    (.pure _)

theorem ignores_resolve (n : Name) (arity : Nat) (k : Kind) :
    KindIgnores σ (resolve n arity k) := by
  refine .get_bind (fun _ => rfl) fun k => ?_
  split
  · exact .ite (.pure _) ((KindIgnores.modify fun _ => by rfl).bind fun _ => .pure _)
  · refine .getState_bind (fun _ => rfl) fun s => ?_
    refine (KindIgnores.lift
      (ignores_lookup (fun _ _ => rfl) (fun _ => []) n.id)).bind fun p => ?_
    dsimp only
    generalize (if arity = 0 then _ else none) = outer
    split
    · exact .pure _
    · refine (KindIgnores.lift (ignores_lookup (fun _ _ => rfl) External.synonyms n.id)).bind
        fun ts => ?_
      split
      · exact .pure _
      · refine (KindIgnores.lift (ignores_lookup (fun _ _ => rfl) External.newtypes n.id)).bind
          fun nt => ?_
        split
        · exact .pure _
        · refine (KindIgnores.lift (ignores_lookup (fun _ _ => rfl) External.primTypes n.id)).bind
            fun pt => ?_
          split
          · exact .pure _
          · exact .throw _

theorem ignores_existential (ident : String) (kd : Kind) :
    KindIgnores σ (existential ident kd) := by
  refine .getState_bind (fun _ => rfl) fun s => ?_
  split
  · exact (KindIgnores.lift (ignores_recordError _)).bind fun _ => .lift (ignores_freshType ..)
  · split
    · exact .pure _
    · have hrest : ∀ outer innermost, KindIgnores σ (do
          let t ← freshType kd (.existential ident)
          modifyThe State fun s => { s with existentials := ((ident, t) :: innermost) :: outer }
          return t) := fun outer innermost =>
        (KindIgnores.lift (ignores_freshType ..)).bind fun _ =>
          (KindIgnores.modifyState fun _ => by rfl).bind fun _ => .pure _
      split
      · exact (KindIgnores.lift (ignores_recordWarning _)).bind fun _ => hrest _ _
      · exact hrest _ _

mutual
theorem ignores_infer : ∀ (t : TypeExpr) (hint : Kind), KindIgnores σ (infer t hint)
  | .located r t, hint => by
    rw [infer]
    exact .located (ignores_infer t hint)
  | .bit, _ | .num _, _ | .char _, _ => by
    rw [infer]
    exact .pure _
  | .seq len elem, _ => by
    rw [infer]
    exact (ignores_infer len _).bind fun _ => (ignores_atKind ..).bind fun _ =>
      (ignores_infer elem _).bind fun _ => (ignores_atKind ..).bind fun _ => .pure _
  | .arrow a b, _ => by
    rw [infer]
    exact (ignores_infer a _).bind fun _ => (ignores_atKind ..).bind fun _ =>
      (ignores_infer b _).bind fun _ => (ignores_atKind ..).bind fun _ => .pure _
  | .tuple ts, _ => by
    rw [infer]
    exact (ignores_checkEach ts).bind fun _ => .pure _
  | .record fs, _ => by
    rw [infer]
    exact (ignores_checkFields fs).bind fun _ => .pure _
  | .wildcard, hint => by
    have hfresh : KindIgnores σ (do
        return (← freshType (hint.orElse .type) .wildcard, hint.orElse .type) :
          KindInfer (Ty × Kind)) :=
      (KindIgnores.lift (ignores_freshType ..)).bind fun _ => .pure _
    rw [infer]
    refine .get_bind (fun _ => rfl) fun _ => .ite ?_ hfresh
    exact (KindIgnores.lift (ignores_recordError _)).bind fun _ => hfresh
  | .existential ident, hint => by
    rw [infer]
    exact (ignores_existential ..).bind fun _ => .pure _
  | .builtin c args, hint => by
    rw [infer]
    refine .ite ?_ ?_
    · exact (KindIgnores.lift (ignores_recordError _)).bind fun _ => ignores_placeholder _
    · exact (ignores_checkArgs args _).bind fun _ => (ignores_emit ..).bind fun _ => .pure _
  | .named n args, hint => by
    rw [infer]
    refine (ignores_resolve ..).bind fun r => ?_
    split
    · exact .pure _
    · exact (KindIgnores.lift (ignores_recordError _)).bind fun _ => ignores_placeholder _
    · refine .ite ?_ ?_
      · exact (KindIgnores.lift (ignores_recordError _)).bind fun _ => ignores_placeholder _
      · exact (ignores_checkArgs args _).bind fun _ => (ignores_emit ..).bind fun _ => .pure _

theorem ignores_checkEach : ∀ ts : List TypeExpr, KindIgnores σ (Kinding.checkEach ts)
  | [] => by
    rw [Kinding.checkEach]
    exact .pure _
  | t :: ts => by
    rw [Kinding.checkEach]
    exact (ignores_infer t _).bind fun _ => (ignores_atKind ..).bind fun _ =>
      (ignores_checkEach ts).bind fun _ => .pure _

theorem ignores_checkFields : ∀ fs : List (String × TypeExpr), KindIgnores σ (checkFields fs)
  | [] => by
    rw [checkFields]
    exact .pure _
  | (l, t) :: fs => by
    rw [checkFields]
    exact (ignores_infer t _).bind fun _ => (ignores_atKind ..).bind fun _ =>
      (ignores_checkFields fs).bind fun _ => .pure _

theorem ignores_checkArgs : ∀ (ts : List TypeExpr) (k : Kind), KindIgnores σ (checkArgs k ts)
  | [], k => by
    rw [checkArgs]
    exact .pure _
  | t :: ts, .arrow dom cod => by
    rw [checkArgs]
    exact (ignores_infer t _).bind fun _ => (ignores_atKind ..).bind fun _ =>
      (ignores_checkArgs ts cod).bind fun _ => .pure _
  | _ :: _, .type | _ :: _, .num | _ :: _, .prop | _ :: _, .unknown => by
    rw [checkArgs]
    exact .pure _
    all_goals exact fun _ _ => nofun
end

theorem ignores_check (t : TypeExpr) (k : Kind) : KindIgnores σ (check t k) :=
  (ignores_infer t k).bind fun _ => ignores_atKind ..

theorem ignores_checkProps (ts : List TypeExpr) : KindIgnores σ (checkProps ts) := by
  induction ts with
  | nil => exact .pure _
  | cons t ts ih => exact (ignores_check t _).bind fun _ => ih.bind fun _ => .pure _

end Kinding
end SizedTypes.Infer
