import Mathlib.Data.Finset.Card
import Mathlib.Data.List.Nodup
import Mathlib.Logic.Function.Iterate
import SizedTypes.Proofs.Core.Awaited
import SizedTypes.Proofs.Infer.Frame

/-!
# The ledger of selector goals

Every selector goal that has been allocated is either solved or waits: in the store, or in the hands
of the solver while it goes through a round. The ids are drawn from a counter that comes back to an
id after `2 ^ 64` draws; before that no goal is both, and the solution of a goal refers to a later
goal only.

So where no goal waits any more, all goals that resolution looks up have a solution, and the route
of a goal ends at a direct solution.
-/

set_option autoImplicit false

namespace SizedTypes

/-- The goal through which a goal is solved, if there is one. -/
def Solution.sub? : Solution → Option Int
  | direct _ _ => none
  | overSeq sub _ _ _ => some sub
  | overArrow sub _ => some sub

namespace Infer

variable {α β : Type} {c : Context} {s s₁ s' : State} {seed id sub : Int} {n i j : ℕ}
  {held held' : List Int}

/-- The selector goal has been allocated. -/
def State.Allocated (s : State) (id : Int) : Prop := s.selectorGoals.has id = true

/-- The selector goal has a solution. -/
def State.Solved (s : State) (id : Int) : Prop := s.solutions.has id = true

/-- The ids of the selector goals in the store. -/
def State.pendingIds (s : State) : List Int := s.pending.map SelectorGoal.id

/-- What the ledger of selector goals is about. -/
def State.books (s : State) :
    Int × List SelectorGoal × Table Int SelectorGoal × Table Int Solution :=
  (s.nextGoal, s.pending, s.selectorGoals, s.solutions)

/-! ## Ids -/

/-- The id of the goal with number `i`, counted from zero. -/
def goalId (seed : Int) (i : ℕ) : Int := Word.next^[i] seed

theorem goalId_succ (seed : Int) (i : ℕ) : goalId seed (i + 1) = Word.next (goalId seed i) :=
  Function.iterate_succ_apply' ..

theorem goalId_emod (seed : Int) (i : ℕ) :
    goalId seed i % 18446744073709551616 = (seed + i) % 18446744073709551616 := by
  induction i with
  | zero => simp [goalId]
  | succ i ih =>
    have hnext := Int.bmod_emod (x := goalId seed i + 1) (m := 18446744073709551616)
    rw [goalId_succ, Word.next, Word.add, Word.wrap]
    omega

/-- Ids are different until the counter has come round. -/
theorem goalId_inj (hi : i < 2 ^ 64) (hj : j < 2 ^ 64) (h : goalId seed i = goalId seed j) :
    i = j := by
  have hei := goalId_emod seed i
  have hej := goalId_emod seed j
  rw [h] at hei
  omega

/-! ## The ledger -/

/-- The goals of a run after `n` draws; those of `held` are in the hands of the solver. -/
structure Ledger (seed : Int) (n : ℕ) (held : List Int) (s : State) : Prop where
  next : s.nextGoal = goalId seed n
  allocated : ∀ id, s.Allocated id ↔ ∃ i < n, goalId seed i = id
  /-- A goal waits or is solved. -/
  split : ∀ id, s.Allocated id ↔ id ∈ held ++ s.pendingIds ∨ s.Solved id
  sub : ∀ id soln sub, s.solutions.find? id = some soln → soln.sub? = some sub → s.Allocated sub
  nodup : n ≤ 2 ^ 64 → (held ++ s.pendingIds).Nodup
  /-- What waits is not solved. -/
  unsolved : n ≤ 2 ^ 64 → ∀ id ∈ held ++ s.pendingIds, ¬s.Solved id
  /-- A goal is solved through a later one. -/
  later : n ≤ 2 ^ 64 → ∀ i < n, ∀ soln sub, s.solutions.find? (goalId seed i) = some soln →
    soln.sub? = some sub → ∃ j, i < j ∧ j < n ∧ goalId seed j = sub

namespace Ledger

/-- Goals can change hands between the solver and the store. -/
theorem of_perm (h : Ledger seed n held s) (hnext : s'.nextGoal = s.nextGoal)
    (hgoals : s'.selectorGoals = s.selectorGoals) (hsolutions : s'.solutions = s.solutions)
    (hperm : (held ++ s.pendingIds).Perm (held' ++ s'.pendingIds)) : Ledger seed n held' s' where
  next := hnext.trans h.next
  allocated id := by
    rw [State.Allocated, hgoals]
    exact h.allocated id
  split id := by
    rw [State.Allocated, State.Solved, hgoals, hsolutions, ← hperm.mem_iff]
    exact h.split id
  sub id soln sub := by
    rw [State.Allocated, hgoals, hsolutions]
    exact h.sub id soln sub
  nodup hn := hperm.nodup (h.nodup hn)
  unsolved hn id hid := by
    rw [State.Solved, hsolutions]
    exact h.unsolved hn id (hperm.mem_iff.mpr hid)
  later hn := by
    rw [hsolutions]
    exact h.later hn

/-- Nothing has been drawn at the start. -/
theorem initial (hnext : s.nextGoal = seed) (hpending : s.pending = [])
    (hgoals : s.selectorGoals = []) (hsolutions : s.solutions = []) : Ledger seed 0 [] s where
  next := hnext
  allocated id := by simp [State.Allocated, hgoals, Table.has, Table.find?]
  split id := by
    simp [State.Allocated, State.Solved, State.pendingIds, hgoals, hpending, hsolutions, Table.has,
      Table.find?]
  sub id soln sub hfind := by simp [hsolutions, Table.find?] at hfind
  nodup _ := by simp [State.pendingIds, hpending]
  unsolved _ := by simp [State.pendingIds, hpending]
  later _ i hi := absurd hi (Nat.not_lt_zero i)

theorem mem_waiting (h : Ledger seed n held s) (hid : id ∈ held ++ s.pendingIds) :
    s.Allocated id := (h.split id).mpr (.inl hid)

theorem not_allocated (h : Ledger seed n held s) (hn : n < 2 ^ 64) :
    ¬s.Allocated (goalId seed n) := by
  intro hid
  obtain ⟨i, hi, heq⟩ := (h.allocated _).mp hid
  exact absurd (goalId_inj (hi.trans hn) hn heq) (Nat.ne_of_lt hi)

/-- A new goal waits in the store. -/
theorem draw (h : Ledger seed n held s) {g : SelectorGoal} (hg : g.id = s.nextGoal)
    (hnext : s'.nextGoal = Word.next s.nextGoal) (hpending : s'.pending = s.pending ++ [g])
    (hgoals : s'.selectorGoals = s.selectorGoals.insert g.id g)
    (hsolutions : s'.solutions = s.solutions) : Ledger seed (n + 1) held s' := by
  rw [h.next] at hg
  have hallocated : ∀ id, s'.Allocated id ↔ id = goalId seed n ∨ s.Allocated id := fun id => by
    rw [State.Allocated, hgoals, Table.has_insert, hg, State.Allocated]
  have hids : held ++ s'.pendingIds = held ++ s.pendingIds ++ [goalId seed n] := by
    simp [State.pendingIds, hpending, hg]
  refine ⟨?_, fun id => ?_, fun id => ?_, fun id soln sub hfind hsub => ?_, fun hn => ?_,
    fun hn => ?_, fun hn i hi soln sub hfind hsub => ?_⟩
  · rw [hnext, h.next, goalId_succ]
  · rw [hallocated, h.allocated]
    constructor
    · rintro (rfl | ⟨i, hi, rfl⟩)
      · exact ⟨n, Nat.lt_succ_self n, rfl⟩
      · exact ⟨i, Nat.lt_succ_of_lt hi, rfl⟩
    · rintro ⟨i, hi, rfl⟩
      rcases Nat.lt_succ_iff_lt_or_eq.mp hi with hi | rfl
      · exact .inr ⟨i, hi, rfl⟩
      · exact .inl rfl
  · rw [hallocated, h.split, hids, @List.mem_append _ _ (held ++ s.pendingIds), List.mem_singleton,
      State.Solved, State.Solved, hsolutions]
    grind
  · rw [hsolutions] at hfind
    exact (hallocated sub).mpr (.inr (h.sub id soln sub hfind hsub))
  · rw [hids, List.nodup_append]
    refine ⟨h.nodup (Nat.le_of_lt hn), List.nodup_singleton _, ?_⟩
    rintro id hid _ hnew rfl
    rw [List.mem_singleton.mp hnew] at hid
    exact h.not_allocated hn (h.mem_waiting hid)
  · rw [hids]
    intro id hid
    rw [State.Solved, hsolutions]
    rcases List.mem_append.mp hid with hid | hid
    · exact h.unsolved (Nat.le_of_lt hn) id hid
    · rw [List.mem_singleton.mp hid]
      exact fun hsolved => h.not_allocated hn ((h.split _).mpr (.inr hsolved))
  · rw [hsolutions] at hfind
    rcases Nat.lt_succ_iff_lt_or_eq.mp hi with hi | rfl
    · obtain ⟨j, hij, hj, heq⟩ := h.later (Nat.le_of_lt hn) i hi soln sub hfind hsub
      exact ⟨j, hij, Nat.lt_succ_of_lt hj, heq⟩
    · -- the new goal has no solution yet
      refine absurd ((h.split _).mpr (.inr ?_)) (h.not_allocated hn)
      rw [State.Solved, Table.has, hfind]
      rfl

/-- A goal that the solver holds gets a solution. -/
theorem solve (h : Ledger seed n (id :: held) s) {soln : Solution}
    (hsub : ∀ sub, soln.sub? = some sub → s.Allocated sub)
    (hlater : n ≤ 2 ^ 64 → ∀ i < n, goalId seed i = id → ∀ sub, soln.sub? = some sub →
      ∃ j, i < j ∧ j < n ∧ goalId seed j = sub) :
    Ledger seed n held { s with solutions := s.solutions.insert id soln } where
  next := h.next
  allocated := h.allocated
  split id' := by
    have hsplit := h.split id'
    rw [List.cons_append, List.mem_cons] at hsplit
    rw [State.Solved, Table.has_insert]
    exact hsplit.trans (by tauto)
  sub id' soln' sub' hfind hsub' := by
    rw [Table.find?_insert] at hfind
    split at hfind
    · cases hfind
      exact hsub sub' hsub'
    · exact h.sub id' soln' sub' hfind hsub'
  nodup hn := (List.nodup_cons.mp (h.nodup hn)).2
  unsolved hn id' hid := by
    rw [State.Solved, Table.has_insert]
    rintro (rfl | hsolved)
    · exact (List.nodup_cons.mp (h.nodup hn)).1 hid
    · exact h.unsolved hn id' (List.mem_cons_of_mem _ hid) hsolved
  later hn i hi soln' sub' hfind hsub' := by
    rw [Table.find?_insert] at hfind
    split at hfind
    · cases hfind
      exact hlater hn i hi ‹_› sub' hsub'
    · exact h.later hn i hi soln' sub' hfind hsub'

end Ledger

/-! ## Conservation -/

/-- Whoever keeps a ledger up to `s` can keep it up to `s'`. -/
def Counted (s s' : State) : Prop :=
  ∀ seed n held, Ledger seed n held s → ∃ n', n ≤ n' ∧ Ledger seed n' held s'

namespace Counted

theorem refl (s : State) : Counted s s := fun _ n _ h => ⟨n, Nat.le_refl n, h⟩

theorem trans (h : Counted s s₁) (h' : Counted s₁ s') : Counted s s' :=
  fun seed n held hs => by
    obtain ⟨n₁, hn₁, hs₁⟩ := h seed n held hs
    obtain ⟨n', hn', hs'⟩ := h' seed n₁ held hs₁
    exact ⟨n', hn₁.trans hn', hs'⟩

/-- A change of something else. -/
theorem of_books (h : s'.books = s.books) : Counted s s' := fun seed n held hs => by
  simp only [State.books, Prod.mk.injEq] at h
  obtain ⟨hnext, hpending, hgoals, hsolutions⟩ := h
  refine ⟨n, Nat.le_refl n, hs.of_perm hnext hgoals hsolutions ?_⟩
  rw [State.pendingIds, State.pendingIds, hpending]

/-- Goals are never given back. -/
theorem allocated (h : Counted s s') (hs : Ledger seed n held s) (hid : s.Allocated id) :
    s'.Allocated id := by
  obtain ⟨n', hn', hs'⟩ := h seed n held hs
  obtain ⟨i, hi, rfl⟩ := (hs.allocated id).mp hid
  exact (hs'.allocated _).mpr ⟨i, hi.trans_le hn', rfl⟩

end Counted

/-- The ledger can be kept, and the scopes stay as they were. -/
structure Conserved (s s' : State) : Prop where
  counted : Counted s s'
  scopes : s'.scopes = s.scopes

theorem Conserved.of_books (h : s'.books = s.books) (hscopes : s'.scopes = s.scopes) :
    Conserved s s' := ⟨.of_books h, hscopes⟩

theorem Respects.counted {act : Infer α} {a : α} (h : Respects Conserved act)
    (ha : Returns act c s a s') : Counted s s' := (h.step ha).counted

theorem returns_newSelectorGoal {sel : Selector} {record field : Ty}
    (h : Returns (newSelectorGoal sel record field) c s id s') :
    id = s.nextGoal ∧ s' = { s with
      nextGoal := Word.next s.nextGoal
      pending := s.pending ++ [⟨id, c.range, sel, record, field⟩]
      selectorGoals := s.selectorGoals.insert id ⟨id, c.range, sel, record, field⟩ } := by
  simp only [newSelectorGoal, freshGoal, currentRange, bind_assoc, returns_get_bind,
    returns_set_bind, pure_bind, returns_read_bind, returns_modify_bind, returns_pure] at h
  obtain ⟨rfl, rfl⟩ := h
  exact ⟨rfl, rfl⟩

/-- A new goal has the next number. -/
theorem Ledger.of_newSelectorGoal {sel : Selector} {record field : Ty} (h : Ledger seed n held s)
    (hnew : Returns (newSelectorGoal sel record field) c s id s') :
    id = goalId seed n ∧ Ledger seed (n + 1) held s' := by
  obtain ⟨rfl, rfl⟩ := returns_newSelectorGoal hnew
  exact ⟨h.next, h.draw rfl rfl rfl rfl rfl⟩

instance : Rules Conserved where
  refl s := .of_books rfl rfl
  trans h h' := ⟨h.counted.trans h'.counted, h'.scopes.trans h.scopes⟩
  error _ _ := .of_books rfl rfl
  message _ _ _ := .of_books rfl rfl
  draw _ _ _ _ := .of_books rfl rfl
  goals _ _ := .of_books rfl rfl
  bind _ _ _ := .of_books rfl rfl
  existential _ _ _ := .of_books rfl rfl
  select h := by
    refine ⟨fun seed n held hs => ⟨n + 1, Nat.le_succ n, (hs.of_newSelectorGoal h).2⟩, ?_⟩
    obtain ⟨rfl, rfl⟩ := returns_newSelectorGoal h
    rfl

instance : NamingRules Conserved where
  name _ _ := .of_books rfl rfl

/-! ## Solving -/

/-- Lifting solves a goal through a new one. -/
theorem Ledger.of_lift {g : SelectorGoal} {inner record : Ty} {soln : Solution} {u : Unit}
    (h : Ledger seed n (g.id :: held) s) (hsoln : soln.sub? = some sub)
    (hnew : Returns (newSelectorGoal g.sel record inner) c s sub s₁)
    (hset : Returns (setSolution g.id soln) c s₁ u s') : Ledger seed (n + 1) held s' := by
  obtain ⟨rfl, h₁⟩ := h.of_newSelectorGoal hnew
  rw [returns_modify.mp hset]
  refine h₁.solve (fun sub' hsub => ?_) fun hn i hi heq sub' hsub => ?_
  · obtain rfl := Option.some.inj (hsoln.symm.trans hsub)
    exact (h₁.allocated _).mpr ⟨n, Nat.lt_succ_self n, rfl⟩
  · obtain rfl := Option.some.inj (hsoln.symm.trans hsub)
    refine ⟨n, ?_, Nat.lt_succ_self n, rfl⟩
    -- the goal itself has been drawn before
    have hself : s.Allocated g.id := h.mem_waiting (by simp)
    obtain ⟨k, hk, hgk⟩ := (h.allocated _).mp hself
    have hik : i = k := goalId_inj (hi.trans_le hn) (hk.trans hn) (heq.trans hgk.symm)
    exact hik ▸ hk

/-- The solver takes a goal off its hands when it solves it. -/
theorem Ledger.of_solveSelectorAt {g : SelectorGoal} {record : Ty} {a : Unit}
    (h : Ledger seed n (g.id :: held) s)
    (hr : Returns (solveSelectorAt g record) c s a s') :
    ∃ n', n ≤ n' ∧ Ledger seed n' held s' := by
  have hdirect : ∀ {s₁ : State} {u : Unit} {sel : Selector} {t : Ty}, Counted s s₁ →
      Returns (setSolution g.id (.direct sel t)) c s₁ u s' →
      ∃ n', n ≤ n' ∧ Ledger seed n' held s' := fun hkept hset => by
    obtain ⟨n', hn', h'⟩ := hkept _ _ _ h
    rw [returns_modify.mp hset]
    exact ⟨n', hn', h'.solve (by simp [Solution.sub?]) (by simp [Solution.sub?])⟩
  have hlift : ∀ {s₁ s₂ : State} {u : Unit} {sub : Int} {soln : Solution} {t inner : Ty},
      Counted s s₁ → soln.sub? = some sub →
      Returns (newSelectorGoal g.sel t inner) c s₁ sub s₂ →
      Returns (setSolution g.id soln) c s₂ u s' →
      ∃ n', n ≤ n' ∧ Ledger seed n' held s' := fun hkept hsoln hnew hset => by
    obtain ⟨n', hn', h'⟩ := hkept _ _ _ h
    exact ⟨n' + 1, hn'.trans (Nat.le_succ n'), h'.of_lift hsoln hnew hset⟩
  unfold solveSelectorAt at hr
  split at hr
  · obtain ⟨_, _, hunify, hr⟩ := returns_bind.mp hr
    obtain ⟨_, _, hadd, hset⟩ := returns_bind.mp hr
    exact hdirect (((respects_unifyFrom ..).counted hunify).trans
      ((respects_addGoals ..).counted hadd)) hset
  · obtain ⟨inner, s₁, hfresh, hr⟩ := returns_bind.mp hr
    obtain ⟨_, s₂, hunify, hr⟩ := returns_bind.mp hr
    obtain ⟨sub, s₃, hnew, hset⟩ := returns_bind.mp hr
    exact hlift (((respects_freshType ..).counted hfresh).trans
      ((respects_unifyFrom ..).counted hunify)) rfl hnew hset
  · obtain ⟨inner, s₁, hfresh, hr⟩ := returns_bind.mp hr
    obtain ⟨_, s₂, hunify, hr⟩ := returns_bind.mp hr
    obtain ⟨sub, s₃, hnew, hset⟩ := returns_bind.mp hr
    exact hlift (((respects_freshType ..).counted hfresh).trans
      ((respects_unifyFrom ..).counted hunify)) rfl hnew hset
  · obtain ⟨_, _, herror, hset⟩ := returns_bind.mp hr
    exact hdirect ((respects_recordError _).counted herror) hset

theorem Ledger.of_solveSelector {g : SelectorGoal} {solved : Bool}
    (h : Ledger seed n (g.id :: held) s) (hr : Returns (solveSelector g) c s solved s') :
    if solved then ∃ n', n ≤ n' ∧ Ledger seed n' held s' else s' = s := by
  unfold solveSelector applied at hr
  simp only [bind_assoc, pure_bind, returns_get_bind] at hr
  split at hr
  · obtain ⟨rfl, rfl⟩ := returns_pure.mp hr
    exact rfl
  · obtain ⟨_, s₁, hat, hr⟩ := returns_bind.mp hr
    obtain ⟨rfl, rfl⟩ := returns_pure.mp hr
    exact h.of_solveSelectorAt (returns_withReader.mp hat)

/-- A round solves the goals that it holds or puts them back. -/
theorem Ledger.of_solveSelectorsOnce {gs : List SelectorGoal} {more : Bool}
    (h : Ledger seed n (gs.map SelectorGoal.id ++ held) s)
    (hr : Returns (solveSelectorsOnce gs) c s more s') : ∃ n', n ≤ n' ∧ Ledger seed n' held s' := by
  induction gs generalizing n s more with
  | nil =>
    obtain ⟨-, rfl⟩ := returns_pure.mp hr
    exact ⟨n, Nat.le_refl n, h⟩
  | cons g gs ih =>
    obtain ⟨solved, s₁, hsolve, hround⟩ := returns_bind.mp hr
    have hsolved := Ledger.of_solveSelector h hsolve
    cases solved with
    | true =>
      obtain ⟨n₁, hn₁, h₁⟩ := hsolved
      obtain ⟨_, _, hrest, hround⟩ := returns_bind.mp hround
      obtain ⟨-, rfl⟩ := returns_pure.mp hround
      obtain ⟨n', hn', h'⟩ := ih h₁ hrest
      exact ⟨n', hn₁.trans hn', h'⟩
    | false =>
      obtain rfl : s₁ = s := hsolved
      have hback : Returns (do return false || (← solveSelectorsOnce gs)) c
          { s₁ with pending := s₁.pending ++ [g] } more s' := hround
      obtain ⟨_, _, hrest, hback⟩ := returns_bind.mp hback
      obtain ⟨-, rfl⟩ := returns_pure.mp hback
      -- the goal goes back to the end of the store
      have hput : Ledger seed n (gs.map SelectorGoal.id ++ held)
          { s₁ with pending := s₁.pending ++ [g] } := by
        refine h.of_perm rfl rfl rfl ?_
        simp only [State.pendingIds, List.map_cons, List.map_append, List.map_nil,
          List.cons_append, ← List.append_assoc]
        exact (List.perm_append_singleton ..).symm
      exact ih hput hrest

theorem Ledger.of_solveSelectorRounds {fuel : ℕ} {a : Unit} (h : Ledger seed n held s)
    (hr : Returns (solveSelectorRounds fuel) c s a s') : ∃ n', n ≤ n' ∧ Ledger seed n' held s' := by
  induction fuel generalizing n s with
  | zero =>
    obtain ⟨-, rfl⟩ := returns_pure.mp hr
    exact ⟨n, Nat.le_refl n, h⟩
  | succ fuel ih =>
    rw [solveSelectorRounds, returns_get_bind, returns_modify_bind] at hr
    obtain ⟨more, s₁, honce, hr⟩ := returns_bind.mp hr
    -- the store is empty while the solver holds the goals
    have hheld : Ledger seed n (s.pending.map SelectorGoal.id ++ held) { s with pending := [] } :=
      h.of_perm rfl rfl rfl (by simpa [State.pendingIds] using List.perm_append_comm)
    obtain ⟨n₁, hn₁, h₁⟩ := hheld.of_solveSelectorsOnce honce
    split at hr
    · obtain ⟨n', hn', h'⟩ := ih h₁ hr
      exact ⟨n', hn₁.trans hn', h'⟩
    · obtain ⟨-, rfl⟩ := returns_pure.mp hr
      exact ⟨n₁, hn₁, h₁⟩

instance : SolvingRules Conserved where
  solve hr := by
    refine ⟨fun seed n held h => ?_, (framed_solveSelectors.step hr).scopes⟩
    rw [solveSelectors, returns_get_bind] at hr
    exact h.of_solveSelectorRounds hr
  ask _ _ _ := .of_books rfl rfl

end Infer

/-! ## Routes through solved goals -/

namespace Resolver

variable {r : Resolver} {ps : List Core.Part} {goal : Int}

/-- The goals whose solutions are looked up when parts are resolved: those that the parts wait for,
and those through which these are solved. -/
inductive LooksUp (r : Resolver) (ps : List Core.Part) : Int → Prop
  | awaited {goal : Int} (h : goal ∈ Core.awaited ps) : LooksUp r ps goal
  | through {goal sub : Int} {soln : Solution} (h : LooksUp r ps goal)
    (hsoln : r.solutions.find? goal = some soln) (hsub : soln.sub? = some sub) : LooksUp r ps sub

/-- The route of a goal leads through solutions only. -/
inductive Leads (r : Resolver) : Int → Route → Prop
  | direct {goal : Int} {sel : Selector} {record : Ty}
    (h : r.solutions.find? goal = some (.direct sel record)) : Leads r goal ⟨[], sel, record⟩
  | overSeq {goal sub : Int} {len elem inner : Ty} {rest : Route}
    (h : r.solutions.find? goal = some (.overSeq sub len elem inner)) (hrest : Leads r sub rest) :
    Leads r goal { rest with lifts := .seq len elem inner :: rest.lifts }
  | overArrow {goal sub : Int} {arg : Ty} {rest : Route}
    (h : r.solutions.find? goal = some (.overArrow sub arg)) (hrest : Leads r sub rest) :
    Leads r goal { rest with lifts := .arrow arg :: rest.lifts }

end Resolver

namespace Infer

variable {s : State} {seed : Int} {n : ℕ} {held : List Int} {β : Type}

/-! ## Counting ids -/

/-- A table that has the ids of the first `n` goals has that many entries. -/
theorem le_length_of_ids {m : Table Int β} (hn : n ≤ 2 ^ 64)
    (h : ∀ i < n, m.has (goalId seed i) = true) : n ≤ m.length := by
  have hinj : Set.InjOn (goalId seed) (Finset.range n) := fun i hi j hj heq =>
    goalId_inj ((Finset.mem_range.mp hi).trans_le hn) ((Finset.mem_range.mp hj).trans_le hn) heq
  have hsub : (Finset.range n).image (goalId seed) ⊆ (m.map Prod.fst).toFinset := by
    intro id hid
    obtain ⟨i, hi, rfl⟩ := Finset.mem_image.mp hid
    obtain ⟨b, hb⟩ := Option.isSome_iff_exists.mp (h i (Finset.mem_range.mp hi))
    exact List.mem_toFinset.mpr (List.mem_map_of_mem (Table.mem_of_find? hb))
  have hcard := Finset.card_le_card hsub
  rw [Finset.card_image_of_injOn hinj, Finset.card_range] at hcard
  exact hcard.trans (by simpa using List.toFinset_card_le (m.map Prod.fst))

namespace Ledger

/-- The counter has not come round while not all words have become ids. -/
theorem draws_lt (h : Ledger seed n held s) (hlen : s.selectorGoals.length < 2 ^ 64) :
    n < 2 ^ 64 := by
  by_contra hn
  have hle : s.selectorGoals.length + 1 ≤ n := (Nat.succ_le_of_lt hlen).trans (Nat.le_of_not_lt hn)
  exact absurd (le_length_of_ids (Nat.succ_le_of_lt hlen) fun i hi =>
    (h.allocated _).mpr ⟨i, hi.trans_le hle, rfl⟩) (Nat.not_succ_le_self _)

/-- What waits in the store waits once and is not solved. -/
theorem disjoint (h : Ledger seed n held s) (hlen : s.selectorGoals.length < 2 ^ 64) :
    s.pendingIds.Nodup ∧ ∀ id ∈ s.pendingIds, ¬s.Solved id := by
  have hn := (h.draws_lt hlen).le
  exact ⟨(List.nodup_append.mp (h.nodup hn)).2.1,
    fun id hid => h.unsolved hn id (List.mem_append_right held hid)⟩

/-- Where nothing waits, the goals that resolution looks up are solved. -/
theorem solved_of_looksUp {r : Resolver} {ps : List Core.Part} {goal : Int}
    (h : Ledger seed n held s) (hsolved : ∀ id, s.Allocated id → s.Solved id)
    (hr : r.solutions = s.solutions) (hps : ∀ id ∈ Core.awaited ps, s.Allocated id)
    (hlooks : r.LooksUp ps goal) : s.Solved goal := by
  refine hsolved goal ?_
  induction hlooks with
  | awaited hgoal => exact hps _ hgoal
  | through _ hsoln hsub _ => exact h.sub _ _ _ (hr ▸ hsoln) hsub

/-- The induction goes down from the last goal: a route that is still under way after `fuel` lifts
would have passed more goals than there are. -/
theorem leads_route {r : Resolver} (h : Ledger seed n held s) (hn : n ≤ 2 ^ 64)
    (hsolved : ∀ id, s.Allocated id → s.Solved id) (hr : r.solutions = s.solutions) (fuel i : ℕ)
    (hi : i < n) (hfuel : n ≤ fuel + i) :
    r.Leads (goalId seed i) (r.route fuel (goalId seed i)) := by
  induction fuel generalizing i with
  | zero => omega
  | succ fuel ih =>
    obtain ⟨soln, hsoln⟩ := Option.isSome_iff_exists.mp
      (hsolved _ ((h.allocated _).mpr ⟨i, hi, rfl⟩))
    have hlater := h.later hn i hi soln
    rw [← hr] at hsoln hlater
    rw [Resolver.route, hsoln]
    cases soln with
    | direct sel record => exact .direct hsoln
    | overSeq sub len elem inner =>
      obtain ⟨j, hij, hj, rfl⟩ := hlater sub hsoln rfl
      exact .overSeq hsoln (ih j hj (by omega))
    | overArrow sub arg =>
      obtain ⟨j, hij, hj, rfl⟩ := hlater sub hsoln rfl
      exact .overArrow hsoln (ih j hj (by omega))

/-- Where nothing waits, every goal has a route that leads through solutions. -/
theorem leads {r : Resolver} {goal : Int} (h : Ledger seed n held s)
    (hlen : s.selectorGoals.length < 2 ^ 64) (hsolved : ∀ id, s.Allocated id → s.Solved id)
    (hr : r.solutions = s.solutions) (hgoal : s.Allocated goal) :
    r.Leads goal (r.routeOf goal) := by
  obtain ⟨i, hi, rfl⟩ := (h.allocated goal).mp hgoal
  have hn := (h.draws_lt hlen).le
  have hle : n ≤ s.solutions.length := le_length_of_ids hn fun j hj =>
    hsolved _ ((h.allocated _).mpr ⟨j, hj, rfl⟩)
  rw [← hr] at hle
  exact h.leads_route hn hsolved hr _ i hi (by omega)

end Ledger

end Infer
end SizedTypes
