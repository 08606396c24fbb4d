import SizedTypes.Proofs.Infer.Steady.Checks

/-!
# Runs that are never cancelled

A solver can cancel the run that it works for, and it can answer otherwise once the run is
cancelled. From the queries of a run a solver is made that gives the same answers and never
cancels. A computation is mirrored if with that solver, and not cancelled, another one has the same
result; which one depends on where the run was cancelled.
-/

set_option autoImplicit false

namespace SizedTypes.Infer

/-- How a run goes with its solver: whether it is cancelled at its start, and what it asks. -/
structure Course where
  solver : Solver
  cancelled : Bool
  queries : List Query

namespace Course

/-- Whether the run is cancelled after its solver has answered the queries. -/
def cancelledAfter (r : Course) (qs : List Query) : Bool :=
  qs.zipIdx.foldl (fun b q => b || (r.solver.ask q.2 b q.1).cancels) r.cancelled

theorem cancelledAfter_append (r : Course) (qs : List Query) (q : Query) :
    r.cancelledAfter (qs ++ [q]) = (r.cancelledAfter qs ||
      (r.solver.ask qs.length (r.cancelledAfter qs) q).cancels) := by
  simp [cancelledAfter, List.zipIdx_append]

/-- The solver that answers as it does in the run, and never cancels. -/
def echo (r : Course) : Solver where
  ask k _ q := ⟨(r.solver.ask k (r.cancelledAfter (r.queries.take k)) q).result, false⟩

/-- The record of a state is what the solver makes of it. -/
def At (r : Course) (s : State) : Prop := s.cancelled = r.cancelledAfter s.queries

end Course

/-- The state of a run that is not cancelled. -/
def State.live (s : State) : State := s.under s.queries false

/-- The record of the solver only grows, by what the solver does. -/
structure Follows (r : Course) {α : Type} (act : Infer α) : Prop where
  queries : ∀ c s, s.queries <+: (act.exec c s).2.queries
  record : ∀ c s, c.solver = r.solver → r.At s → r.At (act.exec c s).2

/-- One of the computations `act'` does without cancellation what `act` does in `s`. -/
def MirroredAt (r : Course) (c : Context) (s : State) {α δ : Type} (act : Infer α)
    (act' : δ → Infer α) : Prop :=
  ∃ d, (act' d).exec (c.asking r.echo) s.live = ((act.exec c s).1, (act.exec c s).2.live)

structure Mirrored (r : Course) {α δ : Type} (act : Infer α) (act' : δ → Infer α) : Prop extends
    Follows r act where
  exec_live : ∀ c s, c.solver = r.solver → r.At s → (act.exec c s).2.queries <+: r.queries →
    MirroredAt r c s act act'

variable {α β δ ε : Type} {r : Course} {c : Context} {s s₁ : State}

theorem exec_bind_of_returns {act : Infer α} {a : α} (h : Returns act c s a s₁)
    (f : α → Infer β) : (act >>= f).exec c s = (f a).exec c s₁ := by
  rw [exec_bind, show act.exec c s = (.ok a, s₁) from h]

theorem exec_unlessCancelled (a : α) (act : Infer α) (c : Context) (s : State) :
    exec (do
      if (← get).cancelled then return a
      act) c s = if s.cancelled then (.ok a, s) else act.exec c s := by
  show exec (if s.cancelled then pure a else act) c s = _
  split <;> rfl

namespace Follows

/-- What is asked by the first of two computations is asked by both. -/
theorem queries_bind {f : α → Infer β} (h : ∀ a, Follows r (f a)) (act : Infer α) (c : Context)
    (s : State) : (act.exec c s).2.queries <+: ((act >>= f).exec c s).2.queries := by
  rw [exec_bind]
  rcases act.exec c s with ⟨e | a, s₁⟩
  · exact List.prefix_rfl
  · exact (h a).queries c s₁

theorem record_of_returns {act : Infer α} {a : α} (h : Follows r act) (hc : c.solver = r.solver)
    (hs : r.At s) (hact : Returns act c s a s₁) : r.At s₁ := by
  have hrecord := h.record c s hc hs
  rwa [show act.exec c s = (.ok a, s₁) from hact] at hrecord

theorem bind {act : Infer α} {f : α → Infer β} (h : Follows r act) (h' : ∀ a, Follows r (f a)) :
    Follows r (act >>= f) where
  queries c s := (h.queries c s).trans (queries_bind h' act c s)
  record c s hc hs := by
    have hact := h.record c s hc hs
    rw [exec_bind]
    rcases hexec : act.exec c s with ⟨_ | a, s₁⟩ <;> rw [hexec] at hact
    · exact hact
    · exact (h' a).record c s₁ hc hact

end Follows

/-! ## Computations apart from the solver -/

namespace Steady

theorem exec_record {act : Infer α} (h : Steady act) (c : Context) (s : State) :
    (act.exec c s).2 = (act.exec c s).2.under s.queries s.cancelled :=
  congrArg Prod.snd (h.exec_under c s c.solver s.queries s.cancelled)

theorem follows {act : Infer α} (h : Steady act) : Follows r act where
  queries c s := by
    rw [h.exec_record c s]
    exact List.prefix_rfl
  record c s _ hs := by
    rw [h.exec_record c s]
    exact hs

theorem mirroredAt [Nonempty δ] {act : Infer α} (h : Steady act) :
    MirroredAt r c s act (fun _ : δ => act) := by
  have hrecord := h.exec_record c s
  have hlive := h.exec_under c s r.echo s.queries false
  refine ⟨Classical.ofNonempty, hlive.trans ?_⟩
  rw [State.live, congrArg State.queries hrecord]
  rfl

theorem mirrored [Nonempty δ] {act : Infer α} (h : Steady act) :
    Mirrored r act (fun _ : δ => act) := ⟨h.follows, fun _ _ _ _ _ => h.mirroredAt⟩

theorem mirroredAt_of_eq {act : Infer α} {act' : δ → Infer α} (h : Steady act) (d : δ)
    (hd : act' d = act) : MirroredAt r c s act act' := by
  obtain ⟨⟨⟩, hlive⟩ := h.mirroredAt (δ := Unit) (r := r) (c := c) (s := s)
  exact ⟨d, hd ▸ hlive⟩

theorem mirrored_of_eq {act : Infer α} {act' : δ → Infer α} (h : Steady act) (d : δ)
    (hd : act' d = act) : Mirrored r act act' :=
  ⟨h.follows, fun _ _ _ _ _ => h.mirroredAt_of_eq d hd⟩

end Steady

/-! ## Closure -/

namespace MirroredAt

theorem choose {act : Infer α} {act' : δ → Infer α} {act'' : ε → Infer α}
    (h : MirroredAt r c s act act') (hchoice : ∀ d, ∃ d', act' d = act'' d') :
    MirroredAt r c s act act'' := by
  obtain ⟨d, hd⟩ := h
  obtain ⟨d', hd'⟩ := hchoice d
  exact ⟨d', hd' ▸ hd⟩

theorem bind [Nonempty ε] {act : Infer α} {act' : δ → Infer α} {f : α → Infer β}
    {f' : α → ε → Infer β} (h : MirroredAt r c s act act')
    (h' : ∀ a s₁, Returns act c s a s₁ → MirroredAt r c s₁ (f a) (f' a)) :
    MirroredAt r c s (act >>= f) (fun d : δ × ε => act' d.1 >>= fun a => f' a d.2) := by
  obtain ⟨d, hd⟩ := h
  rcases hexec : act.exec c s with ⟨e | a, s₁⟩
  · -- after an internal error any choice will do for the rest
    refine ⟨(d, Classical.ofNonempty), ?_⟩
    rw [exec_bind, exec_bind, hd, hexec]
  · obtain ⟨d', hd'⟩ := h' a s₁ hexec
    refine ⟨(d, d'), ?_⟩
    rw [exec_bind, exec_bind, hd, hexec]
    exact hd'

theorem bind_steady {act : Infer α} {act' : δ → Infer α} {f : α → Infer β}
    (h : MirroredAt r c s act act') (h' : ∀ a, Steady (f a)) :
    MirroredAt r c s (act >>= f) (fun d => act' d >>= f) :=
  (h.bind fun a _ _ => (h' a).mirroredAt (δ := Unit)).choose fun d => ⟨d.1, rfl⟩

/-- The mirrored run goes on where the run is not cancelled. -/
theorem unlessCancelled {a : α} {act : Infer α} {act' : δ → Infer α} (hs : s.cancelled = false)
    (h : MirroredAt r c s act act') : MirroredAt r c s (do
      if (← get).cancelled then return a
      act) (fun d => do
        if (← get).cancelled then return a
        act' d) := by
  obtain ⟨d, hd⟩ := h
  refine ⟨d, ?_⟩
  rw [exec_unlessCancelled, exec_unlessCancelled, hs]
  exact hd

end MirroredAt

namespace Mirrored

theorem choose {act : Infer α} {act' : δ → Infer α} {act'' : ε → Infer α} (h : Mirrored r act act')
    (hchoice : ∀ d, ∃ d', act' d = act'' d') : Mirrored r act act'' :=
  ⟨h.toFollows, fun c s hc hs hq => (h.exec_live c s hc hs hq).choose hchoice⟩

theorem bind [Nonempty ε] {act : Infer α} {act' : δ → Infer α} {f : α → Infer β}
    {f' : α → ε → Infer β} (h : Mirrored r act act') (h' : ∀ a, Mirrored r (f a) (f' a)) :
    Mirrored r (act >>= f) (fun d : δ × ε => act' d.1 >>= fun a => f' a d.2) where
  toFollows := h.toFollows.bind fun a => (h' a).toFollows
  exec_live c s hc hs hq := by
    have hfirst := Follows.queries_bind (fun a => (h' a).toFollows) act c s
    refine (h.exec_live c s hc hs (hfirst.trans hq)).bind fun a s₁ hact => ?_
    rw [exec_bind_of_returns hact] at hq
    exact (h' a).exec_live c s₁ hc (h.record_of_returns hc hs hact) hq

/-- The second computation may be the same for all choices. -/
theorem then_same [Nonempty ε] {act : Infer α} {act' : δ → Infer α} {f : α → Infer β}
    (h : Mirrored r act act') (h' : ∀ a, Mirrored r (f a) (fun _ : ε => f a)) :
    Mirrored r (act >>= f) (fun d => act' d >>= f) :=
  (h.bind h').choose fun d => ⟨d.1, rfl⟩

/-- The first computation may be the same for all choices. -/
theorem bind_same [Nonempty δ] {act : Infer α} {f : α → Infer β} {f' : α → δ → Infer β}
    (h : Mirrored r act (fun _ : ε => act)) (h' : ∀ a, Mirrored r (f a) (f' a)) :
    Mirrored r (act >>= f) (fun d => act >>= fun a => f' a d) :=
  (h.bind h').choose fun d => ⟨d.2, rfl⟩

theorem bind_steady {act : Infer α} {act' : δ → Infer α} {f : α → Infer β} (h : Mirrored r act act')
    (h' : ∀ a, Steady (f a)) : Mirrored r (act >>= f) (fun d => act' d >>= f) :=
  h.then_same fun a => (h' a).mirrored (δ := Unit)

theorem ite {p : Prop} [Decidable p] {act₁ act₂ : Infer α} {act₁' act₂' : δ → Infer α}
    (h₁ : Mirrored r act₁ act₁') (h₂ : Mirrored r act₂ act₂') :
    Mirrored r (if p then act₁ else act₂) (fun d => if p then act₁' d else act₂' d) := by
  by_cases hp : p
  · simpa only [if_pos hp] using h₁
  · simpa only [if_neg hp] using h₂

theorem get_bind {f : State → Infer α} {f' : State → δ → Infer α}
    (hf : ∀ s qs b, f' (s.under qs b) = f' s) (h : ∀ s, Mirrored r (f s) (f' s)) :
    Mirrored r (get >>= f) (fun d => get >>= fun s => f' s d) where
  queries c s := (h s).queries c s
  record c s hc hs := (h s).record c s hc hs
  exec_live c s hc hs hq := by
    obtain ⟨d, hd⟩ := (h s).exec_live c s hc hs hq
    refine ⟨d, ?_⟩
    show (f' s.live d).exec (c.asking r.echo) s.live = _
    rw [State.live, hf]
    exact hd

theorem withRange {range : Range} {act : Infer α} {act' : δ → Infer α} (h : Mirrored r act act') :
    Mirrored r (withRange range act) (fun d => Infer.withRange range (act' d)) where
  queries _ s := h.queries _ s
  record c s hc hs := h.record { c with range := range.orElse c.range } s hc hs
  exec_live c s hc hs hq := h.exec_live { c with range := range.orElse c.range } s hc hs hq

/-- What a cancelled run leaves out is left out by choice. -/
theorem unlessCancelled {a : α} {act : Infer α} {act' : δ → Infer α}
    (h : Mirrored r act act') : Mirrored r (do
      if (← get).cancelled then return a
      act) (fun d : Option δ => match d with
        | none => pure a
        | some d => do
          if (← get).cancelled then return a
          act' d) where
  queries c s := by
    rw [exec_unlessCancelled]
    split
    · exact List.prefix_rfl
    · exact h.queries c s
  record c s hc hs := by
    rw [exec_unlessCancelled]
    split
    · exact hs
    · exact h.record c s hc hs
  exec_live c s hc hs hq := by
    cases hcancelled : s.cancelled with
    | true =>
      refine ⟨none, ?_⟩
      rw [exec_unlessCancelled, hcancelled]
      rfl
    | false =>
      rw [exec_unlessCancelled, hcancelled] at hq
      obtain ⟨d, hd⟩ := (h.exec_live c s hc hs hq).unlessCancelled (a := a) hcancelled
      exact ⟨some d, hd⟩

end Mirrored

theorem Steady.bind_mirrored [Nonempty δ] {act : Infer α} {f : α → Infer β} {f' : α → δ → Infer β}
    (h : Steady act) (h' : ∀ a, Mirrored r (f a) (f' a)) :
    Mirrored r (act >>= f) (fun d => act >>= fun a => f' a d) :=
  (h.mirrored (δ := Unit)).bind_same h'

/-! ## The solver -/

theorem follows_askSolver (q : Query) : Follows r (askSolver q) where
  queries _ s := List.prefix_append s.queries [q]
  record c s hc hs := by
    show (s.cancelled || (c.solver.ask s.queries.length s.cancelled q).cancels) =
      r.cancelledAfter (s.queries ++ [q])
    rw [r.cancelledAfter_append, hc, show s.cancelled = _ from hs]

/-- The solver of the mirrored run gives the same answers. -/
theorem mirrored_askSolver [Nonempty δ] (q : Query) :
    Mirrored r (askSolver q) (fun _ : δ => askSolver q) where
  toFollows := follows_askSolver q
  exec_live c s hc hs hq := by
    have hasked : r.queries.take s.queries.length = s.queries :=
      (List.prefix_iff_eq_take.mp ((List.prefix_append s.queries [q]).trans hq)).symm
    have hanswer : (r.echo.ask s.queries.length false q).result =
        (c.solver.ask s.queries.length s.cancelled q).result := by
      show (r.solver.ask s.queries.length (r.cancelledAfter (r.queries.take s.queries.length))
        q).result = _
      rw [hasked, hc, show s.cancelled = _ from hs]
    refine ⟨Classical.ofNonempty, ?_⟩
    show (Except.ok (r.echo.ask s.queries.length false q).result, _) = _
    rw [hanswer]
    rfl

theorem mirrored_escalate [Nonempty δ] (gs : List Goal) :
    Mirrored r (escalate gs) (fun _ : δ => escalate gs) := by
  refine .get_bind (fun _ _ _ => rfl) fun s => (mirrored_askSolver _).bind_steady fun res => ?_
  cases res with
  | error e =>
    exact (steady_trace _).bind fun _ => (steady_recordError _).withRange.bind fun _ => .pure _
  | ok ans => exact (steady_trace _).bind fun _ => steady_useAnswer gs ans

theorem mirrored_simplifyStore [Nonempty δ] (ask : Bool) :
    Mirrored r (simplifyStore ask) (fun _ : δ => simplifyStore ask) := by
  refine steady_solveSelectors.bind_mirrored fun _ => .get_bind (fun _ _ _ => rfl) fun s =>
    (steady_simplifyGoals _).bind_mirrored fun gs =>
    (Steady.modify fun _ _ _ => rfl).bind_mirrored fun _ => .ite ?_ (Steady.pure _).mirrored
  exact (mirrored_escalate gs).bind_steady fun _ => .modify fun _ _ _ => rfl

theorem mirrored_thenSimplify {act : Infer α} {act' : δ → Infer α} (h : Mirrored r act act') :
    Mirrored r (do
      let a ← act
      simplifyStore false
      return a) (fun d => do
        let a ← act' d
        simplifyStore false
        return a) :=
  h.then_same fun a => (mirrored_simplifyStore (δ := Unit) false).bind_steady fun _ => .pure a

theorem mirrored_proveSignature [Nonempty δ] (src : GoalSource) (params : List Param)
    (gs : List Goal) :
    Mirrored r (proveSignature src params gs) (fun _ : δ => proveSignature src params gs) := by
  refine .get_bind (fun _ _ _ => rfl) fun s => (Steady.modify fun _ _ _ => rfl).bind_mirrored
    fun _ => (steady_simplifyGoals _).bind_mirrored fun here => ?_
  split
  · exact ((Steady.pure _).bind (steady_reportUnproved src)).mirrored
  · exact (mirrored_escalate here).bind_steady (steady_reportUnproved src)

theorem mirrored_discharge [Nonempty δ] : Mirrored r discharge (fun _ : δ => discharge) := by
  refine (mirrored_simplifyStore (δ := Unit) true).bind_same fun _ =>
    steady_openVars.bind_mirrored fun vs => .ite ?_ (Steady.pure _).mirrored
  exact .get_bind (fun _ _ _ => rfl) fun s => (steady_defaultVars ..).bind_mirrored fun _ =>
    (steady_simplifyGoals _).bind_mirrored fun gs =>
    (Steady.modify fun _ _ _ => rfl).bind_mirrored fun _ => mirrored_simplifyStore true

theorem mirrored_finish [Nonempty δ] : Mirrored r finish (fun _ : δ => finish) := by
  rw [finish_eq]
  exact mirrored_discharge.bind_steady fun _ => steady_reportLeft

end SizedTypes.Infer
