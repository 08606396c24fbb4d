import Mathlib.Data.List.Nodup
import SizedTypes.Proofs.Infer.Frame.Scoped
import SizedTypes.Proofs.Infer.Patterns

/-!
# Functions are well-typed

The variables of the parameters are declared for the body and taken back after it, which leaves
the variables exactly as they were. The body sees every variable at the type that the definitions
around it give.
-/

set_option autoImplicit false

namespace SizedTypes.Infer

open Surface (Binders Pattern)
open SizedTypes.Core (Decl Env Group Term)

/-! ## Variables declared for a while -/

/-- The state with one more variable that is not generalized. -/
def State.declare1 (s : State) (v : Name × Ty) : State :=
  { s with
    stash := (v.1.id, s.vars.find? v.1.id) :: s.stash
    vars := s.vars.insert v.1.id (.known (.mono v.2)) }

/-- The state with more variables, the last innermost. -/
def State.declareAll (s : State) (vs : List (Name × Ty)) : State := vs.foldl State.declare1 s

variable {W : Setting} {E : External} {c : Context} {s s' : State} {vs : List (Name × Ty)}

theorem declareAll_eq_pushAll (s : State) (vs : List (Name × Ty)) :
    s.declareAll vs = s.pushAll (vs.map monoVar) := by
  rw [State.pushAll, List.foldl_map]
  rfl

theorem returns_declareAll {a : Unit}
    (h : Returns (vs.forM fun v => declareMono v.1 v.2) c s a s') : s' = s.declareAll vs := by
  rw [declareAll_eq_pushAll]
  exact returns_declareEach (f := monoVar) h

theorem declareAll_append (s : State) (vs vs' : List (Name × Ty)) :
    s.declareAll (vs ++ vs') = (s.declareAll vs).declareAll vs' := List.foldl_append ..

/-- Only variables and what they hide are different. -/
theorem declareAll_eq (s : State) (vs : List (Name × Ty)) : s.declareAll vs =
    { s with vars := (s.declareAll vs).vars, stash := (s.declareAll vs).stash } := by
  induction vs generalizing s with
  | nil => rfl
  | cons v vs ih => exact ih (s.declare1 v)

@[simp] theorem declareAll_errors (s : State) (vs : List (Name × Ty)) :
    (s.declareAll vs).errors = s.errors := by rw [declareAll_eq]

@[simp] theorem declareAll_goals (s : State) (vs : List (Name × Ty)) :
    (s.declareAll vs).goals = s.goals := by rw [declareAll_eq]

@[simp] theorem declareAll_subst (s : State) (vs : List (Name × Ty)) :
    (s.declareAll vs).subst = s.subst := by rw [declareAll_eq]

@[simp] theorem declareAll_supply (s : State) (vs : List (Name × Ty)) :
    (s.declareAll vs).supply = s.supply := by rw [declareAll_eq]

/-- What is declared depends on the variables and what they hide only. -/
theorem declareAll_congr {s s' : State} (hvars : s'.vars = s.vars) (hstash : s'.stash = s.stash)
    (vs : List (Name × Ty)) : (s'.declareAll vs).vars = (s.declareAll vs).vars ∧
      (s'.declareAll vs).stash = (s.declareAll vs).stash := by
  rw [declareAll_eq_pushAll, declareAll_eq_pushAll]
  exact pushAll_congr hvars hstash _

/-- Taking back what was declared restores the state. -/
theorem unstash_declareAll (hs : s.vars.Sorted) (vs : List (Name × Ty)) :
    vs.length.repeat State.unstash1 (s.declareAll vs) = s := by
  have hrestored := unstash_pushAll hs (vs.map monoVar)
  rwa [List.length_map, ← declareAll_eq_pushAll] at hrestored

theorem typeOf_declareAll_of_ne {i : Int} (h : ∀ v ∈ vs, i ≠ v.1.id) :
    (s.declareAll vs).typeOf E i = s.typeOf E i := by
  rw [declareAll_eq_pushAll]
  rcases typeOf_pushAll (E := E) s (vs.map monoVar) i with ⟨w, hw, rfl, -⟩ | ⟨-, htype⟩
  · obtain ⟨v, hv, rfl⟩ := List.mem_map.mp hw
    exact absurd rfl (h v hv)
  · exact htype

theorem typeOf_declareAll (hnodup : (vs.map fun v => v.1.id).Nodup) {v : Name × Ty} (hv : v ∈ vs) :
    (s.declareAll vs).typeOf E v.1.id = some (.known (.mono v.2)) := by
  rw [declareAll_eq_pushAll]
  rcases typeOf_pushAll (E := E) s (vs.map monoVar) v.1.id with ⟨w, hw, hid, htype⟩ | ⟨hnone, -⟩
  · obtain ⟨v', hv', rfl⟩ := List.mem_map.mp hw
    obtain rfl : v' = v := List.inj_on_of_nodup_map hnodup hv' hv hid
    exact htype
  · exact absurd rfl (hnone (monoVar v) (List.mem_map_of_mem hv))

theorem wellFormed_declareAll (hs : s.WellFormed W E) (hvs : ∀ v ∈ vs, v.2.WellFormed W) :
    (s.declareAll vs).WellFormed W E := by
  induction vs generalizing s with
  | nil => exact hs
  | cons v vs ih =>
    refine ih (s := s.declare1 v) ?_ fun v' hv' => hvs v' (by simp [hv'])
    refine { hs with sorted := Table.sorted_insert hs.sorted, vars := fun i w hw => ?_ }
    rw [State.typeOf, State.declare1, Table.find?_insert] at hw
    split at hw
    · rw [Option.some_or, Option.some.injEq] at hw
      exact ⟨.mono v.2, hw.symm, .mono (hvs v (by simp))⟩
    · exact hs.vars i w hw

/-- A run under more variables is a run without them. -/
theorem Extends.undeclared {k : Nat} (hs : (s.declareAll vs).WellFormed W E)
    (h : Extends W E k (s.declareAll vs) s') : ∃ s₀, Extends W E k s s₀ ∧ s' = s₀.declareAll vs := by
  refine ⟨{ s' with vars := s.vars, stash := s.stash }, ?_, ?_⟩
  · have hwf := h.wellFormed hs
    exact {
      wellFormed := fun hs' => { hwf with vars := hs'.vars, sorted := hs'.sorted }
      errors := by simpa using h.errors
      goals := by simpa using h.goals
      params := h.params.trans (by rw [declareAll_eq])
      scopes := h.scopes.trans (by rw [declareAll_eq])
      vars := rfl
      stash := rfl
      solves := fun σ hσ => by simpa using h.solves σ hσ
      supply := by simpa using h.supply }
  · obtain ⟨hvars, hstash⟩ :=
      @declareAll_congr s { s' with vars := s.vars, stash := s.stash } rfl rfl vs
    rw [declareAll_eq, hvars, hstash, ← h.vars, ← h.stash]

theorem Room.declared {N : Int} {k : Nat} (h : Room N k s) (vs : List (Name × Ty)) :
    Room N k (s.declareAll vs) :=
  ⟨by simpa using h.below, by simpa using h.nonneg, by simpa using h.within⟩

namespace Reading

variable {V : Reading W}

theorem Accepts.declared (h : V.Accepts s s') (vs : List (Name × Ty)) :
    V.Accepts (s.declareAll vs) (s'.declareAll vs) where
  errors := by simpa using h.errors
  solves := by simpa using h.solves
  equates g hg := h.equates g (by simpa [newGoals] using hg)

theorem Ready.declared {N : Int} {prims : List (String × Name)} {k : Nat} {ns : List Name} {Γ : Env}
    (h : V.Ready N prims E k ns s s' Γ) (vs : List (Name × Ty))
    (hne : ∀ v ∈ vs, ∀ x, prims.lookup "splitAt" = some x → v.1.id ≠ x.id) :
    V.Ready N prims E k ns (s.declareAll vs) (s'.declareAll vs) Γ where
  accepts := h.accepts.declared vs
  room := h.room.declared vs
  binders := h.binders
  below := h.below
  splits x hx i hi sc hsc := by
    rw [typeOf_declareAll_of_ne fun v hv => hi ▸ (hne v hv x hx).symm] at hsc
    exact h.splits x hx i hi sc hsc

/-! ## Parameters one after the other -/

variable (V)

/-- The environment of the body of a function, with the names of its parameters. -/
def bindAll (Γ : Env) (ps : List (Matched × Ty)) : Env :=
  ps.foldl (fun Γ p => Γ.set p.1.name (.mono (V.type p.2))) Γ

variable {V} {Γ Δ : Env} {ps : List (Matched × Ty)}

theorem bindAll_of_ne {i : Int} (h : ∀ p ∈ ps, i ≠ p.1.name.id) : V.bindAll Γ ps i = Γ i := by
  induction ps generalizing Γ with
  | nil => rfl
  | cons p ps ih =>
    refine (ih fun q hq => h q (by simp [hq])).trans ?_
    exact Env.set_of_ne _ _ (h p (by simp))

theorem has_bindAll (hnodup : (ps.map fun p => p.1.name.id).Nodup) {p : Matched × Ty}
    (hp : p ∈ ps) : V.Has (V.bindAll Γ ps) p.1.name p.2 := by
  induction ps generalizing Γ with
  | nil => cases hp
  | cons q ps ih =>
    rw [List.map_cons, List.nodup_cons] at hnodup
    rcases List.mem_cons.mp hp with rfl | hp
    · have hkeep : V.bindAll (Γ.set p.1.name (.mono (V.type p.2))) ps p.1.name.id = _ :=
        bindAll_of_ne fun q hq heq => hnodup.1 (heq ▸ List.mem_map_of_mem hq)
      exact (has_set Γ p.1.name p.2).frame hkeep
    · exact ih hnodup.2 hp

theorem Typed.abstracted {e : Term} {t : Ty} (h : V.Typed (V.bindAll Γ ps) e t) :
    V.Typed Γ (ps.foldr (fun p body => .abs p.1.name p.2 body) e)
      (.arrows (ps.map Prod.snd) t) := by
  induction ps generalizing Γ with
  | nil => exact h
  | cons p ps ih => exact Typed.abs (ih h)

theorem Defines.under {ds : List Decl} {e : Term} {t : Ty} (h : V.Defines Γ ds Δ)
    (he : V.Typed Δ e t) : V.Typed Γ (underDecls ds e) t := by
  cases h with
  | nil => exact he
  | cons hd hds => exact (Defines.cons hd hds).block he

end Reading

/-- What checking the parameters `ps` of a function comes to: under their variables the state is
like `s'`, where none of them is declared. -/
structure Bound (W : Setting) (E : External) (prims : List (String × Name)) (ps : List Pattern)
    (ts : List Ty) (s s' : State) (ms : List Matched) : Prop where
  run : Extends W E (Pattern.drawnList ps) s s'
  length : ms.length = ts.length
  vars : (ms.flatMap Matched.vars).map Prod.fst = Pattern.varsList ps
  types : ∀ v ∈ ms.flatMap Matched.vars, v.2.WellFormed W
  names : ∀ N, Room N (Pattern.drawnList ps) s → Binders N prims (Pattern.varsList ps) →
    (ms.map fun m => m.name.id).Nodup ∧
      ∀ m ∈ ms, m.name ∈ Pattern.varsList ps ∨ Drawn s s' m.name.id
  binds : ∀ (V : Reading W) (N : Int) (Γ : Env),
    V.Ready N prims E (Pattern.drawnList ps) (Pattern.varsList ps) s s' Γ →
    (∀ p ∈ ms.zip ts, V.Has Γ p.1.name p.2) → ∃ Δ, V.Binds s.supply.next s'.supply.next Γ
      (ms.flatMap Matched.decls) (ms.flatMap Matched.vars) Δ

namespace Bound

variable {p : Pattern} {ps : List Pattern} {t : Ty} {ts : List Ty} {m : Matched} {ms : List Matched}
  {s₁ : State}

theorem nil (s : State) : Bound W E c.prims [] [] s s [] where
  run := .refl s
  length := rfl
  vars := rfl
  types := List.forall_mem_nil _
  names _ _ _ := ⟨.nil, List.forall_mem_nil _⟩
  binds _ _ Γ _ _ := ⟨Γ, .nil (List.forall_mem_nil _)⟩

/-- The names of later parameters are apart from all that an earlier one defines. -/
theorem apart (hmatch : Matches W E c.prims p t s s₁ m)
    (hbound : Bound W E c.prims ps ts (s₁.declareAll m.vars) (s'.declareAll m.vars) ms) {N : Int}
    (hroom : Room N (p.drawn + Pattern.drawnList ps) s)
    (hbinders : Binders N c.prims (p.vars ++ Pattern.varsList ps)) {m' : Matched} (hm' : m' ∈ ms) :
    (∀ n ∈ p.vars, m'.name.id ≠ n.id) ∧
      (s.supply.next ≤ m'.name.id → s₁.supply.next ≤ m'.name.id) := by
  have hroom₁ := hroom.right hmatch.run
  have hnames := (hbound.names N (hroom₁.declared m.vars) hbinders.right).2 m' hm'
  rcases hnames with hvar | hdrawn
  · have hlt := hbinders.right.below _ hvar
    have hN := hroom.below
    exact ⟨fun n hn => (hbinders.disjoint hn hvar).symm, fun hle => by omega⟩
  · have hlo := hdrawn.1
    have hN := hroom₁.below
    rw [declareAll_supply] at hlo
    refine ⟨fun n hn heq => ?_, fun _ => hlo⟩
    have hlt := hbinders.left.below n hn
    omega

/-- One more parameter first, under whose variables the others are checked. -/
theorem cons (hmatch : Matches W E c.prims p t s s₁ m)
    (hbound : Bound W E c.prims ps ts (s₁.declareAll m.vars) (s'.declareAll m.vars) ms)
    (hrun : Extends W E (Pattern.drawnList ps) s₁ s') :
    Bound W E c.prims (p :: ps) (t :: ts) s s' (m :: ms) := by
  refine ⟨hmatch.run.trans hrun, by simp [hbound.length], ?_, ?_, ?_, ?_⟩
  · rw [List.flatMap_cons, List.map_append, hmatch.vars, hbound.vars, Pattern.varsList]
  · intro v hv
    rcases List.mem_append.mp hv with hv | hv
    · exact hmatch.types v hv
    · exact hbound.types v hv
  · intro N hroom hbinders
    have hroom₁ := hroom.right hmatch.run
    obtain ⟨hnodup, hnames⟩ := hbound.names N (hroom₁.declared m.vars) hbinders.right
    have hname := hmatch.name.imp_right fun hdrawn => hdrawn N hroom.left
    simp only [Drawn, declareAll_supply] at hnames
    refine ⟨List.nodup_cons.mpr ⟨fun hmem => ?_, hnodup⟩, List.forall_mem_cons.mpr ⟨?_, ?_⟩⟩
    · obtain ⟨m', hm', heq⟩ : ∃ m' ∈ ms, m'.name.id = m.name.id := List.mem_map.mp hmem
      obtain ⟨hvars, hlater⟩ := apart hmatch hbound hroom hbinders hm'
      rw [heq] at hvars hlater
      rcases hname with hvar | hdrawn
      · exact hvars m.name hvar rfl
      · exact absurd (hlater hdrawn.1) (by have := hdrawn.2; omega)
    · refine hname.imp (fun hv => List.mem_append_left _ hv) fun hdrawn => ?_
      exact ⟨hdrawn.1, hdrawn.2.trans_le (hroom₁.le hrun)⟩
    · intro m' hm'
      refine (hnames m' hm').imp (fun hv => List.mem_append_right _ hv) fun hdrawn => ?_
      exact ⟨(hroom.left.le hmatch.run).trans hdrawn.1, hdrawn.2⟩
  · intro V N Γ hready hhas
    have hleft := hready.left hmatch.run hrun
    have hright := hready.right hmatch.run hrun
    obtain ⟨Δ, hΔ⟩ := hmatch.binds V N Γ hleft (hhas (m, t) (by simp))
    have hsplit : ∀ x, c.prims.lookup "splitAt" = some x → Δ x.id = Γ x.id := by
      intro x hx
      have hlt := hready.below x hx
      have hN := hready.room.below
      refine hΔ.frame _ (fun v hv heq => ?_) fun hle => by omega
      exact hleft.binders.notSplit v.1 (hmatch.mem_vars hv) x hx heq.symm
    have hready₁ := (hright.frame hsplit).declared m.vars fun v hv =>
      hleft.binders.notSplit v.1 (hmatch.mem_vars hv)
    obtain ⟨Θ, hΘ⟩ := hbound.binds V N Δ hready₁ fun q hq => by
      obtain ⟨hvars, hlater⟩ :=
        apart hmatch hbound hready.room hready.binders (List.of_mem_zip hq).1
      refine (hhas q (List.mem_cons_of_mem _ hq)).frame (hΔ.frame _ ?_ hlater)
      exact fun v hv => hvars v.1 (hmatch.mem_vars hv)
    rw [declareAll_supply, declareAll_supply] at hΘ
    refine ⟨Θ, hΔ.append hΘ (hleft.room.le hmatch.run) (hright.room.le hrun) ?_ ?_⟩
    · intro v hv
      exact (hleft.binders.below v.1 (hmatch.mem_vars hv)).trans_le hright.room.below
    · intro v hv v' hv'
      exact hready.binders.disjoint (hmatch.mem_vars hv) (hbound.vars ▸ List.mem_map_of_mem hv')

end Bound

theorem returns_checkParams {i : Nat} {ps : List Pattern} {ts : List Ty} {ms : List Matched}
    (h : Returns (checkParams i ps ts) c s ms s') (hc : c.external = E) (hs : s.WellFormed W E)
    (hlen : ps.length = ts.length) (hts : ∀ t ∈ ts, t.WellFormed W) :
    ∃ s₀, s' = s₀.declareAll (ms.flatMap Matched.vars) ∧ Bound W E c.prims ps ts s s₀ ms := by
  induction ps generalizing i ts ms s with
  | nil =>
    obtain rfl := List.length_eq_zero_iff.mp hlen.symm
    rw [checkParams, returns_pure] at h
    · obtain ⟨rfl, rfl⟩ := h
      exact ⟨s', rfl, .nil s'⟩
    · simp
  | cons p ps ih =>
    cases ts with
    | nil => simp at hlen
    | cons t ts =>
      rw [checkParams, returns_bind] at h
      obtain ⟨m, s₁, hm, h⟩ := h
      rw [returns_bind] at h
      obtain ⟨⟨⟩, s₂, hdeclare, h⟩ := h
      obtain rfl := returns_declareAll hdeclare
      simp only [returns_bind, returns_pure] at h
      obtain ⟨ms', s₂, hms, rfl, rfl⟩ := h
      have hmatch := returns_checkPattern hm hc hs (hts t (by simp))
      have hs₁ := wellFormed_declareAll (hmatch.run.wellFormed hs) hmatch.types
      obtain ⟨s₃, hs₃, hbound⟩ := ih hms hs₁ (by simpa using hlen) fun u hu => hts u (by simp [hu])
      obtain ⟨s₀, hrun, rfl⟩ := hbound.run.undeclared hs₁
      refine ⟨s₀, ?_, .cons hmatch hbound hrun⟩
      rw [hs₃, List.flatMap_cons, declareAll_append]

/-! ## Functions -/

/-- What elaborating to `out` at the type `t` comes to: every reading that accepts the run types the
term, if all names before the run have ids below `N` and `k` more can be drawn. -/
structure Elaborates (W : Setting) (E : External) (N : Int) (k : Nat) (t : Ty) (s s' : State)
    (out : Term) : Prop where
  run : Extends W E k s s'
  typed : ∀ (V : Reading W) (Γ : Env), V.Accepts s s' → Room N k s → V.Agrees (· < N) E s Γ →
    V.Typed Γ out t

/-- The body of a function, under all that its parameters define. -/
theorem Bound.typed {ps : List Pattern} {ts : List Ty} {ms : List Matched} {k : Nat} {N : Int}
    {t : Ty} {out : Term} {s₁ : State} {prims : List (String × Name)}
    (h : Bound W E prims ps ts s s₁ ms) (hrun : Extends W E k s₁ s')
    (hsplit : ∀ x, prims.lookup "splitAt" = some x → x.id < N)
    (hbinders : Binders N prims (Pattern.varsList ps)) {V : Reading W} {Γ : Env}
    (hV : V.Accepts s s') (hroom : Room N (Pattern.drawnList ps + k) s)
    (hagrees : V.Agrees (· < N) E s Γ)
    (hbody : ∀ Δ : Env, V.Agrees (· < N) E (s₁.declareAll (ms.flatMap Matched.vars)) Δ →
      V.Typed Δ out t) :
    V.Typed Γ ((ms.zip ts).foldr (fun e body => .abs e.1.name e.2 body)
      (underDecls (ms.flatMap Matched.decls) out)) (.arrows ts t) := by
  obtain ⟨hnodup, hnames⟩ := h.names N hroom.left hbinders
  have hfst : (ms.zip ts).map Prod.fst = ms := List.map_fst_zip h.length.le
  have hsnd : (ms.zip ts).map Prod.snd = ts := List.map_snd_zip h.length.ge
  have hvars : ∀ v ∈ ms.flatMap Matched.vars, v.1 ∈ Pattern.varsList ps := fun v hv =>
    h.vars ▸ List.mem_map_of_mem hv
  have hN := hroom.below
  -- the names of the parameters hide nothing but the variables
  have hkeep : ∀ i < N, (∀ n ∈ Pattern.varsList ps, i ≠ n.id) →
      V.bindAll Γ (ms.zip ts) i = Γ i := by
    intro i hi hne
    refine Reading.bindAll_of_ne fun p hp heq => ?_
    rcases hnames p.1 (List.of_mem_zip hp).1 with hvar | hdrawn
    · exact hne _ hvar heq
    · have hlo := hdrawn.1
      omega
  have hready : V.Ready N prims E (Pattern.drawnList ps) (Pattern.varsList ps) s s₁
      (V.bindAll Γ (ms.zip ts)) := by
    refine ⟨hV.left h.run hrun, hroom.left, hbinders, hsplit, fun x hx i hi sc hsc => ?_⟩
    have hlt := hsplit x hx
    rw [hi, hkeep x.id hlt fun n hn heq => hbinders.notSplit n hn x hx heq.symm, ← hi]
    exact hagrees i (hi ▸ hlt) sc hsc
  have hnodup' : ((ms.zip ts).map fun p => p.1.name.id).Nodup := by
    rw [← hfst, List.map_map] at hnodup
    exact hnodup
  obtain ⟨Δ, hΔ⟩ := h.binds V N _ hready fun p hp => Reading.has_bindAll hnodup' hp
  have hvarIds : ((ms.flatMap Matched.vars).map fun v => v.1.id).Nodup := by
    have hids := hbinders.nodup
    rw [← h.vars, List.map_map] at hids
    exact hids
  have hbodyΔ : V.Agrees (· < N) E (s₁.declareAll (ms.flatMap Matched.vars)) Δ := by
    intro i hi sc hsc
    by_cases hvar : ∃ v ∈ ms.flatMap Matched.vars, i = v.1.id
    · obtain ⟨v, hv, rfl⟩ := hvar
      rw [typeOf_declareAll hvarIds hv, Option.some.injEq, VarType.known.injEq] at hsc
      exact hsc ▸ hΔ.has v hv
    · rw [not_exists] at hvar
      have hne : ∀ v ∈ ms.flatMap Matched.vars, i ≠ v.1.id := fun v hv heq => hvar v ⟨hv, heq⟩
      have hne' : ∀ n ∈ Pattern.varsList ps, i ≠ n.id := by
        rw [← h.vars]
        simpa using hne
      rw [typeOf_declareAll_of_ne hne, h.run.typeOf] at hsc
      rw [hΔ.frame i hne fun hle => by omega, hkeep i hi hne']
      exact hagrees i hi sc hsc
  have hall := Reading.Typed.abstracted (hΔ.defines.under (hbody Δ hbodyΔ))
  rwa [hsnd] at hall

theorem returns_checkLambda {ps : List Pattern} {exp : Expected} {body : Checker} {k : Nat}
    {N : Int} {out : Term} (hsplit : ∀ x, c.prims.lookup "splitAt" = some x → x.id < N)
    (hbinders : Binders N c.prims (Pattern.varsList ps))
    (hbody : ∀ (exp : Expected) (s s' : State) (out : Term), Returns (body exp) c s out s' →
      s.WellFormed W E → exp.type.WellFormed W → Elaborates W E N k exp.type s s' out)
    (h : Returns (checkLambda ps exp body) c s out s') (hc : c.external = E)
    (hs : s.WellFormed W E) (hexp : exp.type.WellFormed W) :
    Elaborates W E N (Pattern.drawnList ps + k) exp.type s s' out := by
  unfold checkLambda at h
  split at h
  · rename_i hnil
    obtain rfl := List.isEmpty_iff.mp hnil
    have hterm := hbody exp s s' out h hs hexp
    rwa [Pattern.drawnList, Nat.zero_add]
  · simp only [returns_bind, returns_pure, unstash, returns_modify] at h
    obtain ⟨⟨ts, res⟩, s₁, harrow, ms, s₂, hparams, out', s₃, hout, ⟨⟩, _, rfl, rfl, rfl⟩ := h
    obtain ⟨hext₁, hlen, hts, hres, hsame⟩ := returns_expectArrow harrow hs hexp
    have hs₁ := hext₁.wellFormed hs
    obtain ⟨s₀, rfl, hbound⟩ := returns_checkParams hparams hc hs₁ hlen.symm hts
    have hs₂ := wellFormed_declareAll (hbound.run.wellFormed hs₁) hbound.types
    have hterm := hbody _ _ _ _ hout hs₂ hres
    obtain ⟨s₄, hrun, rfl⟩ := hterm.run.undeclared hs₂
    have hs₄ := hrun.wellFormed (hbound.run.wellFormed hs₁)
    rw [unstash_declareAll hs₄.sorted]
    have hall := hext₁.trans (hbound.run.trans hrun)
    rw [Nat.zero_add] at hall
    refine ⟨hall, fun V Γ hV hroom hagrees => ?_⟩
    have hV₁ := hV.right hext₁ (hbound.run.trans hrun)
    rw [← Nat.zero_add (Pattern.drawnList ps + k)] at hroom
    have hroom₁ := hroom.right hext₁
    have htyped := hbound.typed hrun hsplit hbinders hV₁ hroom₁ (hagrees.extends hext₁) fun Δ hΔ =>
      hterm.typed V Δ ((hV₁.right hbound.run hrun).declared _)
        ((hroom₁.right hbound.run).declared _) hΔ
    exact htyped.conv (hsame V (hV.left hext₁ (hbound.run.trans hrun))).symm

end SizedTypes.Infer
