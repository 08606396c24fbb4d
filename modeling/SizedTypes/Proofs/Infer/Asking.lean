import SizedTypes.Proofs.Infer.Silent

/-!
# What a group asks the solver

The solver is asked at two places: at the end of a group for what is left of the goals in the store,
and after the body of a binding with a signature for what is left of its goals. If the bodies of a
group are quiet, nothing is asked while one of them is checked.
-/

set_option autoImplicit false

namespace SizedTypes.Infer

open Surface (Bind)
open SizedTypes.Core (Decl Term)

variable {α β : Type} {P Q : List Query → Query → Prop} {c : Context} {s s₁ : State}

/-! ## Queries that a computation adds -/

/-- `qs'` comes from `qs` by queries each of which satisfies `P` after those before it. -/
inductive Grows (P : List Query → Query → Prop) (qs : List Query) : List Query → Prop
  | same : Grows P qs qs
  | ask {qs' : List Query} {q : Query} : Grows P qs qs' → P qs' q → Grows P qs (qs' ++ [q])

namespace Grows

variable {qs qs₁ qs' : List Query}

theorem trans (h : Grows P qs qs₁) (h' : Grows P qs₁ qs') : Grows P qs qs' := by
  induction h' with
  | same => exact h
  | ask _ hq ih => exact .ask ih hq

theorem mono (h : Grows P qs qs') (hPQ : ∀ before q, P before q → Q before q) :
    Grows Q qs qs' := by
  induction h with
  | same => exact .same
  | ask _ hq ih => exact .ask ih (hPQ _ _ hq)

theorem of_isPrefix (h : qs <+: qs') :
    Grows (fun before q => qs <+: before ∧ before ++ [q] <+: qs') qs qs' := by
  obtain ⟨added, rfl⟩ := h
  induction added generalizing qs with
  | nil => simpa using Grows.same
  | cons q added ih =>
    have hrest := @ih (qs ++ [q])
    rw [List.append_assoc] at hrest
    refine (Grows.same.ask ⟨List.prefix_rfl, added, by simp⟩).trans (hrest.mono ?_)
    rintro before q' ⟨hstart, hend⟩
    exact ⟨(List.prefix_append ..).trans hstart, hend⟩

/-- Each query of a run that began with none satisfies `P` after those before it. -/
theorem holds {before after : List Query} {q : Query} (h : Grows P [] qs')
    (heq : qs' = before ++ q :: after) : P before q := by
  induction h generalizing after with
  | same => simp at heq
  | @ask qs q' _ hq ih =>
    rcases List.eq_nil_or_concat after with rfl | ⟨rest, last, rfl⟩
    · obtain ⟨rfl, hlast⟩ := List.append_inj' heq rfl
      obtain rfl := List.singleton_inj.mp hlast
      exact hq
    · rw [List.concat_eq_append, ← List.cons_append, ← List.append_assoc] at heq
      exact ih (List.append_inj' heq rfl).1

end Grows

/-- All that a computation asks satisfies `P`. -/
def Asks (P : List Query → Query → Prop) (act : Infer α) (c : Context) (s : State) : Prop :=
  Grows P s.queries (act.exec c s).2.queries

theorem Silent.asks {act : Infer α} (h : Silent act) : Asks P act c s := by
  rw [Asks, h.queries]
  exact .same

namespace Asks

theorem bind {act : Infer α} {f : α → Infer β} (h : Asks P act c s)
    (h' : ∀ a s₁, Returns act c s a s₁ → Asks P (f a) c s₁) : Asks P (act >>= f) c s := by
  unfold Asks at h ⊢
  rw [exec_bind]
  rcases hexec : act.exec c s with ⟨e | a, s₁⟩ <;> rw [hexec] at h
  · exact h
  · exact h.trans (h' a s₁ hexec)

theorem get_bind {f : State → Infer α} (h : Asks P (f s) c s) : Asks P (get >>= f) c s := h

theorem bind_silent {act : Infer α} {f : α → Infer β} (h : Asks P act c s)
    (h' : ∀ a, Silent (f a)) : Asks P (act >>= f) c s := h.bind fun a _ _ => (h' a).asks

theorem bind_steady {act : Infer α} {f : α → Infer β} (h : Asks P act c s)
    (h' : ∀ a, Steady (f a)) : Asks P (act >>= f) c s := h.bind_silent fun a => (h' a).silent

end Asks

theorem Silent.bind_asks {act : Infer α} {f : α → Infer β} (h : Silent act)
    (h' : ∀ a s₁, Returns act c s a s₁ → Asks P (f a) c s₁) : Asks P (act >>= f) c s :=
  h.asks.bind h'

theorem Steady.bind_asks {act : Infer α} {f : α → Infer β} (h : Steady act)
    (h' : ∀ a s₁, Returns act c s a s₁ → Asks P (f a) c s₁) : Asks P (act >>= f) c s :=
  h.silent.bind_asks h'

/-! ## Queries for goals -/

/-- The query for goals in a state. -/
def State.query (s : State) (gs : List Goal) : Query :=
  { params := s.params, assumptions := s.assumptions.props
    goals := gs.map fun g => s.subst.apply g.prop }

/-- `q` is the query for the goals that a computation returns, the next one where it returns. -/
def AsksFor (act : Infer (List Goal)) (c : Context) (s : State) (before : List Query) (q : Query) :
    Prop :=
  ∃ gs s', Returns act c s gs s' ∧ gs ≠ [] ∧ before = s'.queries ∧ q = s'.query gs

theorem Returns.discard {act : Infer α} {a : α} (h : Returns act c s a s₁) :
    Returns (discard act) c s ⟨⟩ s₁ := returns_discard.mpr ⟨a, h⟩

theorem AsksFor.bind {act : Infer α} {f : α → Infer (List Goal)} {a : α} {before : List Query}
    {q : Query} (hact : Returns act c s a s₁) (h : AsksFor (f a) c s₁ before q) :
    AsksFor (act >>= f) c s before q := by
  obtain ⟨gs, s', hgs, hne, hbefore, hq⟩ := h
  exact ⟨gs, s', returns_bind.mpr ⟨a, s₁, hact, hgs⟩, hne, hbefore, hq⟩

theorem asks_escalate {gs : List Goal} (hq : P s.queries (s.query gs)) :
    Asks P (escalate gs) c s := by
  refine Asks.get_bind (Asks.bind_steady (.ask .same hq) fun res => ?_)
  cases res with
  | error e =>
    exact (steady_trace _).bind fun _ => (steady_recordError _).withRange.bind fun _ => .pure _
  | ok ans => exact (steady_trace _).bind fun _ => steady_useAnswer gs ans

/-- What is left of the goals in the store. -/
def leftInStore : Infer (List Goal) := do
  solveSelectors
  simplifyGoals (← get).goals

theorem steady_leftInStore : Steady leftInStore :=
  steady_solveSelectors.bind fun _ => .get_bind (fun _ _ _ => rfl) fun _ => steady_simplifyGoals _

theorem simplifyStore_eq (ask : Bool) : simplifyStore ask = (do
    let gs ← leftInStore
    modify fun s => { s with goals := gs }
    if ask && !gs.isEmpty then
      let gs ← escalate gs
      modify fun s => { s with goals := gs }) := by
  simp only [simplifyStore, leftInStore, bind_assoc]

theorem silent_simplifyStore : Silent (simplifyStore false) := by
  rw [simplifyStore_eq]
  exact (steady_leftInStore.bind fun _ => (Steady.modify fun _ _ _ => rfl).bind fun _ =>
    .pure _).silent

theorem asks_simplifyStore (h : ∀ before q, AsksFor leftInStore c s before q → P before q) :
    Asks P (simplifyStore true) c s := by
  rw [simplifyStore_eq]
  refine steady_leftInStore.bind_asks fun gs s₁ hgs => ?_
  cases gs with
  | nil => exact ((Steady.modify fun _ _ _ => rfl).bind fun _ => .pure _).silent.asks
  | cons g gs =>
    have hq : P s₁.queries (s₁.query (g :: gs)) := h _ _ ⟨_, s₁, hgs, by simp, rfl, rfl⟩
    have hasked : Asks P (escalate (g :: gs)) c { s₁ with goals := g :: gs } := asks_escalate hq
    exact hasked.bind_steady fun _ => .modify fun _ _ _ => rfl

/-! ## Bindings with signatures -/

/-- Enter the scope of parameters and their assumptions. -/
def enterParams (ps : List Param) (asmps : List Ty) : Infer Unit := do
  modify fun s => { s with params := s.params ++ ps }
  ps.forM nameParam
  if !asmps.isEmpty then
    modify fun s => { s with assumptions := s.assumptions.add asmps }

theorem enterParams_bind (ps : List Param) (asmps : List Ty) (f : Unit → Infer α) :
    enterParams ps asmps >>= f = (do
      modify fun s => { s with params := s.params ++ ps }
      ps.forM nameParam
      if !asmps.isEmpty then
        modify fun s => { s with assumptions := s.assumptions.add asmps }
      f ⟨⟩) := by
  unfold enterParams
  cases asmps.isEmpty with
  | true => simp only [bind_assoc, pure_bind, Bool.not_true, Bool.false_eq_true, if_false]
  | false => simp only [bind_assoc, Bool.not_false, if_true]

theorem withParams_eq (ps : List Param) (asmps : List Ty) (act : Infer α) :
    withParams ps asmps act = do
      let outer ← get
      enterParams ps asmps
      let a ← act
      modify fun s =>
        { s with
          typeVars := ps.foldl (fun m p => match p.name with
            | some n => m.erase n.id
            | none => m) s.typeVars
          params := outer.params
          assumptions := outer.assumptions }
      return a := by
  unfold withParams
  refine bind_congr fun outer => ?_
  rewrite [enterParams_bind]
  rfl

/-- What is left of the goals of a binding that must follow from its signature. -/
def leftOfSignature (params : List Param) (gs : List Goal) : Infer (List Goal) := do
  let s := (← get).subst
  let (here, outer) := splitGoals params (gs.map fun g => { g with prop := s.apply g.prop })
  modify fun st => { st with goals := st.goals ++ outer }
  simplifyGoals here

theorem steady_leftOfSignature (params : List Param) (gs : List Goal) :
    Steady (leftOfSignature params gs) :=
  .get_bind (fun _ _ _ => rfl) fun _ => (Steady.modify fun _ _ _ => rfl).bind fun _ =>
    steady_simplifyGoals _

theorem proveSignature_eq (src : GoalSource) (params : List Param) (gs : List Goal) :
    proveSignature src params gs = (do
      let here ← leftOfSignature params gs
      let here ← if here.isEmpty then pure [] else escalate here
      if !here.isEmpty then
        withRange (firstRange here) (recordError (.unsolvedGoals here))
        trace (.unprovedGoals src.describe here.length)) := by
  simp only [proveSignature, leftOfSignature, bind_assoc]

theorem asks_proveSignature {src : GoalSource} {params : List Param} {gs : List Goal}
    (h : ∀ before q, AsksFor (leftOfSignature params gs) c s before q → P before q) :
    Asks P (proveSignature src params gs) c s := by
  rw [proveSignature_eq]
  refine (steady_leftOfSignature ..).bind_asks fun here s₁ hhere => ?_
  cases here with
  | nil => exact ((Steady.pure _).bind (steady_reportUnproved src)).silent.asks
  | cons g here =>
    have hq := h _ _ ⟨_, s₁, hhere, by simp, rfl, rfl⟩
    exact (asks_escalate hq).bind_steady (steady_reportUnproved src)

/-- The body of a binding is checked against its signature; the result is what is left of its
goals. -/
def leftOfSigned (b : Bind) (sc : Schema) : Infer (List Goal) :=
  withRange b.range do
    enterParams sc.params sc.props
    let out ← collectGoals do
      let e ← checkBody b ⟨sc.body, .definition b.name⟩
      simplifyStore false
      return e
    leftOfSignature sc.params out.2

theorem steady_enterParams (ps : List Param) (asmps : List Ty) : Steady (enterParams ps asmps) :=
  (Steady.modify fun _ _ _ => rfl).bind fun _ => (Steady.forM fun p => steady_nameParam p).bind
    fun _ => .ite (.modify fun _ _ _ => rfl) (.pure _)

theorem asks_collectGoals {act : Infer α} (h : Asks P act c { s with goals := [] }) :
    Asks P (collectGoals act) c s :=
  Asks.get_bind <| (Steady.modify fun _ _ _ => rfl).bind_asks fun _ _ hs => by
    obtain rfl := returns_modify.mp hs
    exact h.bind_steady fun _ => .get_bind (fun _ _ _ => rfl) fun _ =>
      (Steady.modify fun _ _ _ => rfl).bind fun _ => .pure _

theorem asks_checkMono {b : Bind} {t : Ty}
    (h : Asks P (checkBody b ⟨t, .definition b.name⟩) (c.located b.range) s) :
    Asks P (checkMono b t fun exp => checkBody b exp) c s := h.bind_steady fun _ => .pure _

/-- A binding with a signature asks while its body is checked, or then for its own goals. -/
theorem asks_checkSigned {b : Bind} {sc : Schema}
    (hbody : ∀ s₁, Returns (enterParams sc.params sc.props) (c.located b.range) s ⟨⟩ s₁ →
      Asks P (checkBody b ⟨sc.body, .definition b.name⟩) (c.located b.range)
        { s₁ with goals := [] })
    (hleft : ∀ before q, AsksFor (leftOfSigned b sc) c s before q → P before q) :
    Asks P (checkSigned b sc fun exp => checkBody b exp) c s := by
  show Asks P (if b.prim then _ else _) (c.located b.range) s
  split
  · exact (Steady.pure _).silent.asks
  · refine Asks.bind_steady ?_ fun _ => .pure _
    rw [withParams_eq]
    refine Asks.get_bind ((steady_enterParams ..).bind_asks fun u s₁ hs₁ => ?_)
    refine Asks.bind_steady ?_ fun _ => (Steady.modify fun _ _ _ => rfl).bind fun _ => .pure _
    refine (asks_collectGoals ((hbody s₁ hs₁).bind_silent fun _ =>
      silent_simplifyStore.bind_steady fun _ => .pure _)).bind fun out s₂ hs₂ => ?_
    refine (asks_proveSignature fun before q hq => hleft before q ?_).bind_steady fun _ => .pure _
    exact AsksFor.bind hs₁ (AsksFor.bind hs₂ hq)

/-! ## Groups -/

section Group

variable (plan : Plan) (recursive : Bool) (binds : List Bind)

/-- What a group does before its bindings that are not generalized. -/
def beforeOthers : Infer Nat :=
  if recursive then do
    let gs ← generalizeGroup plan (checkGeneral plan binds)
    gs.forM fun d => declare d.name (.known d.schema)
    return gs.length
  else return 0

/-- What a group does before its bindings that are generalized. -/
def beforeGeneral : Infer Unit :=
  if recursive then return ⟨⟩ else discard (checkOthers plan binds)

/-- A group up to one of those bindings, the ones before it being `pre`. -/
def beforeOther (pre : List Bind) : Infer Unit := do
  discard (beforeOthers plan recursive binds)
  discard (checkOthers plan pre)

/-- A group up to the body of `b`, the bindings `pre` of the group being those before `b`. The
result is what the body must be. -/
def beforeBody (pre : List Bind) (b : Bind) : Infer Expected := do
  if plan.generalizes b then
    beforeGeneral plan recursive binds
    modify fun s => { s with goals := [] }
    discard (checkGeneral plan pre)
    return ⟨((plan.general.find? b.name.id).map Prod.snd).getD default, .definition b.name⟩
  else
    beforeOther plan recursive binds pre
    match plan.signatures.find? b.name.id with
    | some sc =>
      withRange b.range (enterParams sc.params sc.props)
      modify fun s => { s with goals := [] }
      return ⟨sc.body, .definition b.name⟩
    | none => return ⟨(plan.monos.find? b.name.id).getD default, .definition b.name⟩

/-- All bindings of a group are checked; the result is what is left of the goals in the store. -/
def leftOfGroup : Infer (List Goal) := do
  let declared ← beforeOthers plan recursive binds
  discard (checkOthers plan binds)
  if !recursive then discard (generalizeGroup plan (checkGeneral plan binds))
  unstash (plan.declared + declared)
  leftInStore

/-- What a group asks, and when. -/
inductive GroupAsks (c : Context) (s : State) (before : List Query) (q : Query) : Prop
  /-- All bindings have been checked. -/
  | store : AsksFor (leftOfGroup plan recursive binds) c s before q → GroupAsks c s before q
  /-- The body of `b` has been checked; only its own goals are asked for. -/
  | signature {pre post : List Bind} {b : Bind} {sc : Schema} : binds = pre ++ b :: post →
      plan.generalizes b = false → plan.signatures.find? b.name.id = some sc →
      AsksFor (do
        beforeOther plan recursive binds pre
        leftOfSigned b sc) c s before q → GroupAsks c s before q
  /-- The body of `b` is being checked, and it is not quiet. -/
  | inside {pre post : List Bind} {b : Bind} {exp : Expected} {s' : State} :
      binds = pre ++ b :: post → ¬b.Quiet →
      Returns (beforeBody plan recursive binds pre b) c s exp s' → s'.queries <+: before →
      before ++ [q] <+: ((checkBody b exp).exec (c.located b.range) s').2.queries →
      GroupAsks c s before q

variable {plan recursive binds}

theorem asks_body {pre post : List Bind} {b : Bind} {exp : Expected} {s' : State}
    (hbinds : binds = pre ++ b :: post)
    (h : Returns (beforeBody plan recursive binds pre b) c s exp s') :
    Asks (GroupAsks plan recursive binds c s) (checkBody b exp) (c.located b.range) s' := by
  by_cases hb : b.Quiet
  · exact (silent_checkBody b exp hb).asks
  · have hfollows := (mirrored_checkBody (r := ⟨c.solver, false, []⟩) b exp).queries
    refine (Grows.of_isPrefix (hfollows (c.located b.range) s')).mono fun before q hq => ?_
    exact .inside hbinds hb h hq.1 hq.2

end Group

/-- Check those of the bindings that satisfy `p`. -/
def checkThose (p : Bind → Bool) (check : Bind → Infer Decl) : List Bind → Infer (List Decl)
  | [] => return []
  | b :: bs => do
    if p b then
      let d ← check b
      return d :: (← checkThose p check bs)
    else checkThose p check bs

theorem checkGeneral_eq (plan : Plan) (bs : List Bind) :
    checkGeneral plan bs = checkThose plan.generalizes (fun b =>
      checkMono b (((plan.general.find? b.name.id).map Prod.snd).getD default) fun exp =>
        checkBody b exp) bs := by
  induction bs with
  | nil => rw [checkGeneral, checkThose]
  | cons b bs ih => rw [checkGeneral, checkThose, ih]

/-- The check of a binding that is not generalized. -/
def checkOther (plan : Plan) (b : Bind) : Infer Decl :=
  match plan.signatures.find? b.name.id with
  | some sc => checkSigned b sc fun exp => checkBody b exp
  | none => checkMono b ((plan.monos.find? b.name.id).getD default) fun exp => checkBody b exp

theorem checkOthers_eq (plan : Plan) (bs : List Bind) :
    checkOthers plan bs = checkThose (fun b => !plan.generalizes b) (checkOther plan) bs := by
  induction bs with
  | nil => rw [checkOthers, checkThose]
  | cons b bs ih =>
    rw [checkOthers, checkThose, ih]
    cases plan.generalizes b with
    | true => rfl
    | false =>
      unfold checkOther
      cases plan.signatures.find? b.name.id <;> rfl

/-- Each of the bindings is checked after those before it. -/
theorem asks_checkThose {p : Bind → Bool} {check : Bind → Infer Decl} (bs : List Bind) {s : State}
    (h : ∀ pre b post ds s₁, bs = pre ++ b :: post → p b = true →
      Returns (checkThose p check pre) c s ds s₁ → Asks P (check b) c s₁) :
    Asks P (checkThose p check bs) c s := by
  induction bs generalizing s with
  | nil =>
    rw [checkThose]
    exact (Steady.pure _).silent.asks
  | cons b bs ih =>
    rw [checkThose]
    split
    · rename_i hb
      have hfirst : Asks P (check b) c s := h [] b bs [] s rfl hb (by rw [checkThose]; rfl)
      refine hfirst.bind fun d s₁ hd => Asks.bind_steady (ih ?_) fun _ => .pure _
      rintro pre b' post ds s₂ rfl hb' hpre
      refine h (b :: pre) b' post (d :: ds) s₂ rfl hb' ?_
      rw [checkThose, if_pos hb]
      exact returns_bind.mpr ⟨d, s₁, hd, returns_bind.mpr ⟨ds, s₂, hpre, rfl⟩⟩
    · rename_i hb
      refine ih ?_
      rintro pre b' post ds s₂ rfl hb' hpre
      refine h (b :: pre) b' post ds s₂ rfl hb' ?_
      rw [checkThose, if_neg hb]
      exact hpre

variable {plan : Plan} {recursive : Bool} {binds : List Bind}

theorem asks_general {u : Unit} (hs₁ : Returns (beforeGeneral plan recursive binds) c s u s₁) :
    Asks (GroupAsks plan recursive binds c s) (checkGeneral plan binds) c
      { s₁ with goals := [] } := by
  rw [checkGeneral_eq]
  refine asks_checkThose binds fun pre b post ds s₂ hbinds hb hpre => ?_
  rw [← checkGeneral_eq] at hpre
  have hbefore : Returns (beforeBody plan recursive binds pre b) c s
      ⟨((plan.general.find? b.name.id).map Prod.snd).getD default, .definition b.name⟩ s₂ := by
    rw [beforeBody, if_pos hb]
    refine returns_bind.mpr ⟨u, s₁, hs₁, returns_modify_bind.mpr ?_⟩
    exact returns_bind.mpr ⟨⟨⟩, s₂, hpre.discard, rfl⟩
  exact asks_checkMono (asks_body hbinds hbefore)

theorem asks_others {k : Nat} (hs₁ : Returns (beforeOthers plan recursive binds) c s k s₁) :
    Asks (GroupAsks plan recursive binds c s) (checkOthers plan binds) c s₁ := by
  rw [checkOthers_eq]
  refine asks_checkThose binds fun pre b post ds s₂ hbinds hb hpre => ?_
  rw [← checkOthers_eq] at hpre
  have hgeneralizes : plan.generalizes b = false := by simpa using hb
  have hs₂ : Returns (beforeOther plan recursive binds pre) c s ⟨⟩ s₂ :=
    returns_bind.mpr ⟨⟨⟩, s₁, hs₁.discard, hpre.discard⟩
  unfold checkOther
  split
  · rename_i sc hsc
    refine asks_checkSigned (fun s₃ hs₃ => asks_body hbinds ?_) fun before q hq =>
      .signature hbinds hgeneralizes hsc (AsksFor.bind hs₂ hq)
    rw [beforeBody, hgeneralizes, hsc]
    exact returns_bind.mpr ⟨⟨⟩, s₂, hs₂, returns_bind.mpr ⟨⟨⟩, s₃, hs₃, rfl⟩⟩
  · rename_i hsc
    refine asks_checkMono (asks_body hbinds ?_)
    rw [beforeBody, hgeneralizes, hsc]
    exact returns_bind.mpr ⟨⟨⟩, s₂, hs₂, rfl⟩

theorem asks_generalizeGroup {u : Unit}
    (hs₁ : Returns (beforeGeneral plan recursive binds) c s u s₁) :
    Asks (GroupAsks plan recursive binds c s) (generalizeGroup plan (checkGeneral plan binds))
      c s₁ := by
  unfold generalizeGroup
  split
  · exact (Steady.pure _).silent.asks
  · refine (asks_collectGoals ((asks_general hs₁).bind_silent fun _ => ?_)).bind_steady fun _ =>
      steady_generalize ..
    exact silent_simplifyStore.bind_steady fun _ => .pure _

/-- The end of a group asks for what is left of the goals in the store. -/
theorem asks_endOfGroup {k : Nat} {a : α} (h : ∀ before q, AsksFor (do
      unstash k
      leftInStore) c s before q → P before q) :
    Asks P (do
      unstash k
      simplifyStore true
      return a) c s := by
  refine (steady_unstash k).bind_asks fun u s₁ hs₁ => Asks.bind_steady ?_ fun _ => .pure _
  exact asks_simplifyStore fun before q hq => h before q (AsksFor.bind hs₁ hq)

/-- All that a group asks. -/
theorem asks_checkGroup : Asks (GroupAsks plan recursive binds c s)
    (checkGroup plan recursive binds (checkGeneral plan binds) (checkOthers plan binds)) c s := by
  cases recursive with
  | true =>
    have hgeneral : Returns (beforeGeneral plan true binds) c s ⟨⟩ s := rfl
    refine (asks_generalizeGroup hgeneral).bind fun gs s₁ hgs => ?_
    refine (Steady.forM fun _ => steady_declare ..).bind_asks fun u s₂ hs₂ => ?_
    have hbefore : Returns (beforeOthers plan true binds) c s gs.length s₂ :=
      returns_bind.mpr ⟨gs, s₁, hgs, returns_bind.mpr ⟨u, s₂, hs₂, rfl⟩⟩
    refine (asks_others hbefore).bind fun os s₃ hos => asks_endOfGroup fun before q hq => ?_
    exact .store (AsksFor.bind hbefore (AsksFor.bind hos.discard hq))
  | false =>
    have hbefore : Returns (beforeOthers plan false binds) c s 0 s := rfl
    refine (asks_others hbefore).bind fun os s₁ hos => ?_
    have hothers : Returns (beforeGeneral plan false binds) c s ⟨⟩ s₁ := hos.discard
    refine (asks_generalizeGroup hothers).bind fun gs s₂ hgs =>
      asks_endOfGroup fun before q hq => ?_
    exact .store (AsksFor.bind hbefore (AsksFor.bind hothers
      (AsksFor.bind hgs.discard hq)))

end SizedTypes.Infer
