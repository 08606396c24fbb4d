import SizedTypes.Infer.Expr
import SizedTypes.Proofs.Infer.Frame

/-!
# Declarations go out of scope

Checking an expression declares variables and opens scopes, and takes all of them back. So what an
expression leaves is what a computation leaves that declares nothing.
-/

set_option autoImplicit false

namespace SizedTypes.Infer

open Surface (Bind Expr Pattern UpdateHow)
open SizedTypes.Core (Decl Term)

/-! ## Variables that stay declared -/

/-- The state with one more variable. -/
def State.push (s : State) (v : Name × VarType) : State :=
  { s with
    stash := (v.1.id, s.vars.find? v.1.id) :: s.stash
    vars := s.vars.insert v.1.id v.2 }

/-- The state with more variables, the last innermost. -/
def State.pushAll (s : State) (vs : List (Name × VarType)) : State := vs.foldl State.push s

variable {c : Context} {s s₁ s' : State} {vs ws : List (Name × VarType)}

theorem pushAll_append (s : State) (vs ws : List (Name × VarType)) :
    s.pushAll (vs ++ ws) = (s.pushAll vs).pushAll ws := List.foldl_append ..

theorem sorted_pushAll (hs : s.vars.Sorted) (vs : List (Name × VarType)) :
    (s.pushAll vs).vars.Sorted := by
  induction vs generalizing s with
  | nil => exact hs
  | cons v vs ih => exact ih (s := s.push v) (Table.sorted_insert hs)

/-- What is declared depends on the variables and what they hide only. -/
theorem pushAll_congr (hvars : s'.vars = s.vars) (hstash : s'.stash = s.stash)
    (vs : List (Name × VarType)) : (s'.pushAll vs).vars = (s.pushAll vs).vars ∧
      (s'.pushAll vs).stash = (s.pushAll vs).stash := by
  induction vs generalizing s s' with
  | nil => exact ⟨hvars, hstash⟩
  | cons v vs ih =>
    refine ih ?_ ?_
    · simp only [State.push, hvars]
    · simp only [State.push, hvars, hstash]

theorem unstash1_push (hs : s.vars.Sorted) (v : Name × VarType) : (s.push v).unstash1 = s := by
  cases hfind : s.vars.find? v.1.id with
  | none =>
    simp only [State.push, State.unstash1, hfind]
    rw [Table.erase_insert hs hfind]
  | some w =>
    simp only [State.push, State.unstash1, hfind]
    rw [Table.insert_insert hs hfind]

theorem unstash_pushAll (hs : s.vars.Sorted) (vs : List (Name × VarType)) :
    vs.length.repeat State.unstash1 (s.pushAll vs) = s := by
  induction vs generalizing s with
  | nil => rfl
  | cons v vs ih =>
    have hrest := ih (s := s.push v) (Table.sorted_insert hs)
    show State.unstash1 (vs.length.repeat State.unstash1 ((s.push v).pushAll vs)) = s
    rw [hrest, unstash1_push hs]

theorem typeOf_push {E : External} {x : Int} (s : State) (v : Name × VarType) :
    (s.push v).typeOf E x = if x = v.1.id then some v.2 else s.typeOf E x := by
  unfold State.typeOf State.push
  rw [Table.find?_insert]
  split <;> rfl

/-- A variable is what it was declared as last, or what it was before. -/
theorem typeOf_pushAll {E : External} (s : State) (vs : List (Name × VarType)) (x : Int) :
    (∃ v ∈ vs, v.1.id = x ∧ (s.pushAll vs).typeOf E x = some v.2) ∨
      (∀ v ∈ vs, v.1.id ≠ x) ∧ (s.pushAll vs).typeOf E x = s.typeOf E x := by
  induction vs generalizing s with
  | nil => exact Or.inr ⟨List.forall_mem_nil _, rfl⟩
  | cons v vs ih =>
    rcases ih (s.push v) with ⟨w, hw, hid, htype⟩ | ⟨hnone, htype⟩
    · exact Or.inl ⟨w, List.mem_cons_of_mem _ hw, hid, htype⟩
    · rw [typeOf_push] at htype
      split at htype
      · rename_i hid
        exact Or.inl ⟨v, List.mem_cons_self .., hid.symm, htype⟩
      · rename_i hid
        exact Or.inr ⟨List.forall_mem_cons.mpr ⟨fun h => hid h.symm, hnone⟩, htype⟩

/-- Taking variables back looks at the variables and what they hide only. -/
theorem unstash_congr (hvars : s'.vars = s.vars) (hstash : s'.stash = s.stash) (n : Nat) :
    n.repeat State.unstash1 s' = { s' with
      vars := (n.repeat State.unstash1 s).vars, stash := (n.repeat State.unstash1 s).stash } := by
  induction n with
  | zero => rw [Nat.repeat, Nat.repeat, ← hvars, ← hstash]
  | succ n ih =>
    rw [Nat.repeat, Nat.repeat, ih]
    generalize n.repeat State.unstash1 s = t
    rcases hst : t.stash with _ | ⟨⟨id, _ | v⟩, rest⟩
    · simp [State.unstash1, hst]
    · simp [State.unstash1, hst]
    · simp [State.unstash1, hst]

/-- `s'` comes after `s` by a computation that declares the variables `vs`. -/
structure Declared (vs : List (Name × VarType)) (s s' : State) : Prop extends Kept s s' where
  vars : s'.vars = (s.pushAll vs).vars
  stash : s'.stash = (s.pushAll vs).stash

theorem Frame.declared (h : Frame s s') : Declared [] s s' := ⟨h.toKept, h.vars, h.stash⟩

namespace Declared

theorem trans (h : Declared vs s s₁) (h' : Declared ws s₁ s') : Declared (vs ++ ws) s s' := by
  obtain ⟨hvars, hstash⟩ := pushAll_congr h.vars h.stash ws
  refine ⟨h.toKept.trans h'.toKept, ?_, ?_⟩
  · rw [h'.vars, hvars, pushAll_append]
  · rw [h'.stash, hstash, pushAll_append]

theorem sorted (h : Declared vs s s') (hs : s.vars.Sorted) : s'.vars.Sorted := by
  rw [h.vars]
  exact sorted_pushAll hs vs

theorem push (s : State) (v : Name × VarType) : Declared [v] s (s.push v) :=
  ⟨.of_fields List.prefix_rfl rfl rfl, rfl, rfl⟩

theorem pushAll (s : State) (vs : List (Name × VarType)) : Declared vs s (s.pushAll vs) := by
  induction vs generalizing s with
  | nil => exact (Frame.refl s).declared
  | cons v vs ih => exact (push s v).trans (ih (s.push v))

/-- Once the variables are taken back, only scopes can be different. -/
theorem unstashed (h : Declared vs s s') (hs : s.vars.Sorted) :
    Declared [] s (vs.length.repeat State.unstash1 s') := by
  rw [unstash_congr h.vars h.stash, unstash_pushAll hs]
  exact ⟨h.toKept.trans (.of_fields List.prefix_rfl rfl rfl), rfl, rfl⟩

theorem frame (h : Declared [] s s') (hscopes : s'.scopes = s.scopes) : Frame s s' :=
  ⟨h.toKept, h.vars, h.stash, hscopes⟩

/-- Scopes can be opened before. -/
theorem of_opened {scopes : List Scope} (h : Declared vs { s with scopes } s') :
    Declared vs s s' := by
  obtain ⟨hvars, hstash⟩ := @pushAll_congr s { s with scopes } rfl rfl vs
  exact ⟨⟨h.errors, h.triangular, h.outer, h.closed, h.kept⟩, h.vars.trans hvars,
    h.stash.trans hstash⟩

/-- Scopes can be closed after, and parameters and assumptions go with them. -/
theorem closed_scopes (h : Declared vs s s') {scopes : List Scope} {params : List Param}
    {assumptions : Assumptions} : Declared vs s { s' with scopes, params, assumptions } :=
  ⟨⟨h.errors, h.triangular, h.outer, h.closed, h.kept⟩, h.vars, h.stash⟩

end Declared

theorem scopes_pushAll (s : State) (vs : List (Name × VarType)) :
    (s.pushAll vs).scopes = s.scopes := by
  induction vs generalizing s with
  | nil => rfl
  | cons v vs ih => exact ih (s.push v)

theorem scopes_unstash (s : State) (n : Nat) :
    (n.repeat State.unstash1 s).scopes = s.scopes := by
  rw [unstash_congr (s := s) rfl rfl]

theorem returns_declareEach {α : Type} {xs : List α} {f : α → Name × VarType} {a : Unit}
    (h : Returns (xs.forM fun x => declare (f x).1 (f x).2) c s a s') :
    s' = s.pushAll (xs.map f) := by
  induction xs generalizing s with
  | nil =>
    simp only [List.forM_eq_forM, List.forM_nil, returns_pure] at h
    exact h.2
  | cons x xs ih =>
    simp only [List.forM_eq_forM, List.forM_cons, declare, returns_modify_bind] at h
    exact ih h

/-! ## Computations that take back what they declare -/

/-- A computation that, from a table in order, leaves what one leaves that declares nothing. -/
structure Scoped {α : Type} (act : Infer α) : Prop where
  step : ∀ {c : Context} {s s' : State} {a : α}, Returns act c s a s' → s.vars.Sorted → Frame s s'

theorem Framed.scoped {α : Type} {act : Infer α} (h : Framed act) : Scoped act := ⟨fun ha _ => h.step ha⟩

namespace Scoped

variable {α β : Type}

theorem pure (a : α) : Scoped (Pure.pure a : Infer α) := (Framed.pure a).scoped

theorem bind {act : Infer α} {f : α → Infer β} (h : Scoped act) (h' : ∀ a, Scoped (f a)) :
    Scoped (act >>= f) where
  step hb hs := by
    obtain ⟨a, s₁, ha, hb⟩ := returns_bind.mp hb
    have hframe := h.step ha hs
    exact hframe.trans ((h' a).step hb (hframe.vars ▸ hs))

theorem withRange {r : Range} {act : Infer α} (h : Scoped act) : Scoped (withRange r act) where
  step ha hs := h.step (returns_withReader.mp ha) hs

theorem ite {p : Prop} [Decidable p] {act act' : Infer α} (h : Scoped act) (h' : Scoped act') :
    Scoped (if p then act else act') := by
  split
  · exact h
  · exact h'

end Scoped

/-! ## Functions -/

/-- A variable that is not generalized, as it is declared. -/
def monoVar (v : Name × Ty) : Name × VarType := (v.1, .known (.mono v.2))

theorem declared_checkParams {i : Nat} {ps : List Pattern} {ts : List Ty} {ms : List Matched}
    (h : Returns (checkParams i ps ts) c s ms s') :
    Declared ((ms.flatMap Matched.vars).map monoVar) s s' ∧ s'.scopes = s.scopes := by
  induction ps generalizing i ts ms s with
  | nil =>
    rw [checkParams, returns_pure] at h
    · obtain ⟨rfl, rfl⟩ := h
      exact ⟨(Frame.refl s').declared, rfl⟩
    · simp
  | cons p ps ih =>
    cases ts with
    | nil =>
      rw [checkParams, returns_pure] at h
      · obtain ⟨rfl, rfl⟩ := h
        exact ⟨(Frame.refl s').declared, rfl⟩
      · simp
    | cons t ts =>
      simp only [checkParams, returns_bind, returns_pure] at h
      obtain ⟨m, s₁, hm, ⟨⟩, s₂, hdeclare, rest, _, hrest, rfl, rfl⟩ := h
      have hframe := (framed_checkPattern ..).step hm
      obtain rfl := returns_declareEach (f := monoVar) hdeclare
      obtain ⟨hdeclared, hscopes⟩ := ih hrest
      rw [List.flatMap_cons, List.map_append]
      refine ⟨(hframe.declared.trans (Declared.pushAll s₁ _)).trans hdeclared, ?_⟩
      rw [hscopes, scopes_pushAll, hframe.scopes]

theorem scoped_checkLambda {params : List Pattern} {exp : Expected} {body : Checker}
    (hbody : ∀ exp, Scoped (body exp)) : Scoped (checkLambda params exp body) := by
  refine .ite (hbody exp) ((framed_expectArrow ..).scoped.bind fun r => ⟨fun h hs => ?_⟩)
  simp only [returns_bind, unstash, returns_modify, returns_pure] at h
  obtain ⟨ms, s₁, hparams, out, s₂, hout, ⟨⟩, _, rfl, -, rfl⟩ := h
  obtain ⟨hdeclared, hscopes⟩ := declared_checkParams hparams
  have hframe := (hbody _).step hout (hdeclared.sorted hs)
  have hall := (hdeclared.trans hframe.declared).unstashed hs
  rw [List.append_nil, List.length_map] at hall
  refine hall.frame ?_
  rw [scopes_unstash, hframe.scopes, hscopes]

/-! ## Bindings -/

theorem scoped_collectGoals {α : Type} {act : Infer α} (h : Scoped act) :
    Scoped (collectGoals act) :=
  Framed.get.scoped.bind fun _ => (framed_modifyGoals _).scoped.bind fun _ => h.bind fun _ =>
    Framed.get.scoped.bind fun _ => (framed_modifyGoals _).scoped.bind fun _ => .pure _

theorem scoped_modifyParams {f : State → State} (hf : ∀ s, f s = { s with
    params := (f s).params, typeVars := (f s).typeVars, assumptions := (f s).assumptions }) :
    Scoped (modify f : Infer PUnit) :=
  (Framed.modify fun s => by rw [hf]; exact .of_fields rfl rfl rfl List.prefix_rfl rfl rfl).scoped

theorem scoped_withParams {α : Type} {ps : List Param} {asmps : List Ty} {act : Infer α}
    (h : Scoped act) : Scoped (withParams ps asmps act) := by
  refine Framed.get.scoped.bind fun outer => (scoped_modifyParams fun _ => rfl).bind fun _ =>
    (Framed.forM fun p _ => framed_nameParam p).scoped.bind fun _ => ?_
  refine .ite ((scoped_modifyParams fun _ => rfl).bind fun _ => ?_) ?_
  all_goals exact h.bind fun _ => (scoped_modifyParams fun _ => rfl).bind fun _ => .pure _

theorem scoped_withExistentials {α : Type} {act : Infer α} (h : Scoped act) :
    Scoped (withExistentials act) where
  step {c s s' a} ha hs := by
    simp only [withExistentials, returns_bind, returns_modify, returns_pure] at ha
    obtain ⟨⟨⟩, _, rfl, b, s₁, hact, ⟨⟩, _, rfl, -, rfl⟩ := ha
    have hframe := h.step hact hs
    -- the scope that was opened is the one that is closed
    have houter : s₁.existentials.tail = s.existentials := hframe.outer
    refine ⟨⟨hframe.errors, hframe.triangular, ?_, fun hnil => houter.trans hnil, ?_⟩, hframe.vars,
      hframe.stash, hframe.scopes⟩
    · exact congrArg List.tail houter
    · intro ident t ht
      rw [State.existential, houter]
      exact ht

theorem scoped_checkMono {b : Bind} {t : Ty} {body : Checker} (h : ∀ exp, Scoped (body exp)) :
    Scoped (checkMono b t body) := ((h _).bind fun _ => .pure _).withRange

theorem scoped_checkSigned {b : Bind} {sc : Schema} {body : Checker} (h : ∀ exp, Scoped (body exp)) :
    Scoped (checkSigned b sc body) := by
  refine (Scoped.ite (.pure _) ?_).withRange
  refine (scoped_withParams ?_).bind fun _ => .pure _
  refine (scoped_collectGoals ?_).bind fun _ => (framed_proveSignature ..).scoped.bind fun _ => .pure _
  exact (h _).bind fun _ => (framed_simplifyStore _).scoped.bind fun _ => .pure _

theorem scoped_checkSingle {b : Bind} {body : Checker} (h : ∀ exp, Scoped (body exp)) :
    Scoped (checkSingle b body) := by
  unfold checkSingle
  split
  · exact (framed_checkSignature _).scoped.bind fun _ => scoped_checkSigned h
  · exact (framed_freshType ..).scoped.bind fun _ => scoped_checkMono h

/-! ## Groups -/

theorem declared_planDeclare {plan plan' : Plan} {recursive : Bool} {n : Name} {v : VarType}
    (h : Returns (plan.declare recursive n v) c s plan' s') :
    ∃ vs, plan'.declared = plan.declared + vs.length ∧ Declared vs s s' ∧ s'.scopes = s.scopes := by
  unfold Plan.declare at h
  split at h
  · simp only [declare, returns_modify_bind, returns_pure] at h
    obtain ⟨rfl, rfl⟩ := h
    exact ⟨[(n, v)], rfl, .push s (n, v), rfl⟩
  · obtain ⟨rfl, rfl⟩ := returns_pure.mp h
    exact ⟨[], rfl, (Frame.refl _).declared, rfl⟩

/-- How one binding is planned, and what it is declared as for recursive uses. -/
inductive Planned (plan : Plan) (b : Bind) : Plan → VarType → Prop
  | signed (sc : Schema) (hsig : b.signature ≠ none) :
    Planned plan b { plan with signatures := plan.signatures.insert b.name.id sc } (.known sc)
  | mono (v : TyVar) (hsig : b.signature = none) (hmono : plan.mono = true) :
    Planned plan b { plan with monos := plan.monos.insert b.name.id (.free v) }
      (.known (.mono (.free v)))
  | general (v : TyVar) (hsig : b.signature = none) (hmono : plan.mono = false) :
    Planned plan b { plan with general := plan.general.insert b.name.id (v.id, .free v) }
      (.inGroup v.id b.name (.free v))

theorem Planned.declared {plan plan' : Plan} {b : Bind} {v : VarType} (h : Planned plan b plan' v) :
    plan'.declared = plan.declared := by
  cases h <;> rfl

theorem returns_planAdd {plan plan' : Plan} {recursive : Bool} {b : Bind}
    (h : Returns (plan.add recursive b) c s plan' s') : ∃ c' s₁ plan₁ v, Frame s s₁ ∧
      Planned plan b plan₁ v ∧ Returns (plan₁.declare recursive b.name v) c' s₁ plan' s' := by
  unfold Plan.add at h
  replace h := returns_withReader.mp h
  split at h
  · rename_i hsig
    obtain ⟨sc, s₁, hsc, h⟩ := returns_bind.mp h
    exact ⟨_, s₁, _, _, (framed_checkSignature _).step hsc, .signed sc (hsig ▸ nofun), h⟩
  · rename_i hsig
    dsimp only at h
    split at h
    · obtain ⟨_, _, h, -⟩ := returns_bind.mp h
      exact absurd h not_returns_throw
    · obtain ⟨v, s₁, hv, h⟩ := returns_bind.mp h
      split at h
      · exact ⟨_, s₁, _, _, (framed_freshVar ..).step hv, .mono v hsig (by assumption), h⟩
      · rename_i hmono
        refine ⟨_, s₁, _, _, (framed_freshVar ..).step hv, .general v hsig ?_, h⟩
        simpa using hmono

theorem declared_planAdd {plan plan' : Plan} {recursive : Bool} {b : Bind}
    (h : Returns (plan.add recursive b) c s plan' s') :
    ∃ vs, plan'.declared = plan.declared + vs.length ∧ Declared vs s s' ∧ s'.scopes = s.scopes := by
  obtain ⟨c', s₁, plan₁, v, hframe, hplanned, h⟩ := returns_planAdd h
  obtain ⟨vs, hlen, hdeclared, hscopes⟩ := declared_planDeclare h
  rw [hplanned.declared] at hlen
  exact ⟨vs, hlen, hframe.declared.trans hdeclared, hscopes.trans hframe.scopes⟩

theorem declared_planAll {recursive : Bool} {binds : List Bind} {plan plan' : Plan}
    (h : Returns (binds.foldlM (fun plan b => plan.add recursive b) plan) c s plan' s') :
    ∃ vs, plan'.declared = plan.declared + vs.length ∧ Declared vs s s' ∧ s'.scopes = s.scopes := by
  induction binds generalizing plan s with
  | nil =>
    obtain ⟨rfl, rfl⟩ := returns_pure.mp h
    exact ⟨[], rfl, (Frame.refl _).declared, rfl⟩
  | cons b bs ih =>
    rw [List.foldlM_cons, returns_bind] at h
    obtain ⟨plan₁, s₁, hb, h⟩ := h
    obtain ⟨vs, hlen, hdeclared, hscopes⟩ := declared_planAdd hb
    obtain ⟨ws, hlen', hdeclared', hscopes'⟩ := ih h
    refine ⟨vs ++ ws, ?_, hdeclared.trans hdeclared', hscopes'.trans hscopes⟩
    rw [hlen', hlen, List.length_append, Nat.add_assoc]

theorem declared_planGroup {top recursive : Bool} {binds : List Bind} {plan : Plan}
    (h : Returns (planGroup top recursive binds) c s plan s') :
    ∃ vs, vs.length = plan.declared ∧ Declared vs s s' ∧ s'.scopes = s.scopes := by
  unfold planGroup at h
  rw [returns_read_bind] at h
  dsimp only at h
  rw [returns_bind] at h
  obtain ⟨⟨⟩, s₁, htrace, h⟩ := h
  have hframe := (framed_trace _).step htrace
  obtain ⟨vs, hlen, hdeclared, hscopes⟩ := declared_planAll h
  refine ⟨vs, ?_, hframe.declared.trans hdeclared, hscopes.trans hframe.scopes⟩
  rw [hlen, Nat.zero_add]

theorem scoped_generalizeGroup {plan : Plan} {general : Infer (List Decl)} (h : Scoped general) :
    Scoped (generalizeGroup plan general) := by
  refine .ite (.pure _) ((scoped_collectGoals ?_).bind fun _ => (framed_generalize ..).scoped)
  exact h.bind fun _ => (framed_simplifyStore _).scoped.bind fun _ => .pure _

/-- A definition, as it is declared. -/
def declVar (d : Decl) : Name × VarType := (d.name, .known d.schema)

/-- The definitions of a group in the order of its bindings. -/
def inOrder (binds : List Bind) (ds : List Decl) : List Decl :=
  binds.filterMap fun b => (Table.ofList (ds.map fun d => (d.name.id, d))).find? b.name.id

theorem mem_of_mem_inOrder {binds : List Bind} {ds : List Decl} {d : Decl}
    (h : d ∈ inOrder binds ds) : d ∈ ds := by
  obtain ⟨b, -, hfind⟩ := List.mem_filterMap.mp h
  obtain ⟨d', hd', heq⟩ := List.mem_map.mp (Table.mem_ofList (Table.mem_of_find? hfind))
  exact (Prod.mk.inj heq).2 ▸ hd'

/-- In a recursive group the bindings to generalize come first, and their schemas are declared for
the others. -/
theorem returns_checkGroup {plan : Plan} {recursive : Bool} {binds : List Bind}
    {general others : Infer (List Decl)} {out : List Decl}
    (h : Returns (checkGroup plan recursive binds general others) c s out s') :
    (recursive = true ∧ ∃ gs s₁ os s₂, Returns (generalizeGroup plan general) c s gs s₁ ∧
      Returns others c (s₁.pushAll (gs.map declVar)) os s₂ ∧
      Returns (simplifyStore true) c ((plan.declared + gs.length).repeat State.unstash1 s₂) ⟨⟩ s' ∧
      out = inOrder binds (gs ++ os)) ∨
    (recursive = false ∧ ∃ os s₁ gs s₂, Returns others c s os s₁ ∧
      Returns (generalizeGroup plan general) c s₁ gs s₂ ∧
      Returns (simplifyStore true) c (plan.declared.repeat State.unstash1 s₂) ⟨⟩ s' ∧
      out = inOrder binds (os ++ gs)) := by
  unfold checkGroup at h
  dsimp only at h
  split at h
  · rename_i hrec
    simp only [returns_bind, unstash, returns_modify, returns_pure] at h
    obtain ⟨gs, s₁, hgs, ⟨⟩, s₂, hdeclare, os, s₃, hos, ⟨⟩, _, rfl, ⟨⟩, _, hstore, rfl, rfl⟩ := h
    obtain rfl := returns_declareEach (f := declVar) hdeclare
    exact Or.inl ⟨hrec, gs, s₁, os, s₃, hgs, hos, hstore, rfl⟩
  · rename_i hrec
    simp only [returns_bind, unstash, returns_modify, returns_pure] at h
    obtain ⟨os, s₁, hos, gs, s₂, hgs, ⟨⟩, _, rfl, ⟨⟩, _, hstore, rfl, rfl⟩ := h
    exact Or.inr ⟨by simpa using hrec, os, s₁, gs, s₂, hos, hgs, hstore, rfl⟩

/-- A group takes back what was declared for its recursive uses. -/
theorem frame_checkGroup {s₀ : State} {plan : Plan} {recursive : Bool} {binds : List Bind}
    {general others : Infer (List Decl)} {out : List Decl} (hplan : Declared vs s₀ s)
    (hscopes : s.scopes = s₀.scopes) (hlen : vs.length = plan.declared) (hs : s₀.vars.Sorted)
    (hgeneral : Scoped general) (hothers : Scoped others)
    (h : Returns (checkGroup plan recursive binds general others) c s out s') : Frame s₀ s' := by
  obtain ⟨-, gs, s₁, os, s₂, hgs, hos, hstore, -⟩ | ⟨-, os, s₁, gs, s₂, hos, hgs, hstore, -⟩ :=
    returns_checkGroup h
  · have hframe₁ := (scoped_generalizeGroup hgeneral).step hgs (hplan.sorted hs)
    have hbefore := (hplan.trans hframe₁.declared).trans (.pushAll s₁ (gs.map declVar))
    have hframe₂ := hothers.step hos (hbefore.sorted hs)
    have hall := (hbefore.trans hframe₂.declared).unstashed hs
    simp only [List.append_nil, List.length_append, List.length_map, hlen] at hall
    refine (hall.frame ?_).trans ((framed_simplifyStore true).step hstore)
    rw [scopes_unstash, hframe₂.scopes, scopes_pushAll, hframe₁.scopes, hscopes]
  · have hframe₁ := hothers.step hos (hplan.sorted hs)
    have hbefore := hplan.trans hframe₁.declared
    have hframe₂ := (scoped_generalizeGroup hgeneral).step hgs (hbefore.sorted hs)
    have hall := (hbefore.trans hframe₂.declared).unstashed hs
    simp only [List.append_nil, hlen] at hall
    refine (hall.frame ?_).trans ((framed_simplifyStore true).step hstore)
    rw [scopes_unstash, hframe₂.scopes, hframe₁.scopes, hscopes]

/-! ## Scopes -/

/-- `s'` comes after `s` by declarations: the variables `vs` are declared, and the content of the
innermost scope can be different. -/
structure Filled (vs : List (Name × VarType)) (s s' : State) : Prop extends Declared vs s s' where
  outerScopes : s'.scopes.tail = s.scopes.tail
  scopeKinds : s'.scopes.map Scope.kind = s.scopes.map Scope.kind

theorem Declared.filled (h : Declared vs s s') (hscopes : s'.scopes = s.scopes) :
    Filled vs s s' := ⟨h, congrArg List.tail hscopes, congrArg (List.map Scope.kind) hscopes⟩

theorem Frame.filled (h : Frame s s') : Filled [] s s' := h.declared.filled h.scopes

theorem Filled.trans (h : Filled vs s s₁) (h' : Filled ws s₁ s') : Filled (vs ++ ws) s s' :=
  ⟨h.toDeclared.trans h'.toDeclared, h'.outerScopes.trans h.outerScopes,
    h'.scopeKinds.trans h.scopeKinds⟩

/-- Only the content of the innermost scope changes. -/
theorem returns_modifyScope {f : Core.Module → Core.Module} {a : Unit}
    (h : Returns (modifyScope f) c s a s') : ∃ sc rest, s.scopes = sc :: rest ∧
      s' = { s with scopes := { sc with content := f sc.content } :: rest } := by
  unfold modifyScope at h
  rw [returns_get_bind] at h
  split at h
  · exact absurd h not_returns_throw
  · rename_i sc rest hscopes
    exact ⟨sc, rest, hscopes, returns_modify.mp h⟩

theorem filled_modifyScope {f : Core.Module → Core.Module} {a : Unit}
    (h : Returns (modifyScope f) c s a s') : Filled [] s s' := by
  obtain ⟨sc, rest, hscopes, rfl⟩ := returns_modifyScope h
  refine ⟨⟨.of_fields List.prefix_rfl rfl rfl, rfl, rfl⟩, ?_, ?_⟩
  · rw [hscopes]
    rfl
  · rw [hscopes]
    rfl

/-- The scope that is closed is the innermost, of the given sort. -/
theorem returns_popScope {kind : ScopeKind} {m : Core.Module}
    (h : Returns (popScope kind) c s m s') : ∃ sc rest, s.scopes = sc :: rest ∧ sc.kind = kind ∧
      m = sc.content ∧ s' = { s with scopes := rest } := by
  unfold popScope at h
  rw [returns_get_bind] at h
  split at h
  · exact absurd h not_returns_throw
  · rename_i sc rest hscopes
    split at h
    · rename_i hkind
      simp only [returns_modify_bind, returns_pure] at h
      exact ⟨sc, rest, hscopes, hkind, h.1, h.2⟩
    · exact absurd h not_returns_throw

end SizedTypes.Infer
