import SizedTypes.Proofs.Infer.Frame
import SizedTypes.Proofs.Ty.Transparent

/-!
# Written types without variables

A type that is written where neither wildcards nor existential variables are allowed has no
variables, in the arguments of synonyms neither, unless an error is recorded: what it refers to has
none, and only a type that is wrong is replaced by a variable.
-/

set_option autoImplicit false

namespace SizedTypes

/-! ## Closed types -/

/-- There are no variables in a type, in the arguments of its synonyms neither. -/
def Ty.Closed (t : Ty) : Prop := t.leafIds = []

namespace Ty

theorem closed_iff {t : Ty} : t.Closed ↔ ∀ i ∈ t.leafIds, False := List.eq_nil_iff_forall_not_mem

theorem inherited_closed : Inherited Closed := by
  simpa only [← closed_iff] using inherited_leafIds fun _ => False

/-- A type that shows no variables is closed, except for the variables that its synonyms hide. -/
@[simp] theorem closed_bound (p : Param) : (bound p).Closed := rfl

@[simp] theorem closed_con {c : Con} {args : List Ty} :
    (con c args).Closed ↔ ∀ a ∈ args, a.Closed := by
  simp only [closed_iff, mem_leafIds_con]
  exact ⟨fun h a ha i hi => h i ⟨a, ha, hi⟩, fun h i ⟨a, ha, hi⟩ => h a ha i hi⟩

@[simp] theorem closed_record {fs : List (String × Ty)} :
    (record fs).Closed ↔ ∀ f ∈ fs, f.2.Closed := by
  simp only [closed_iff, mem_leafIds_record]
  exact ⟨fun h f hf i hi => h i ⟨f, hf, hi⟩, fun h i ⟨f, hf, hi⟩ => h f hf i hi⟩

@[simp] theorem closed_synonym {n : Name} {args : List Ty} {body : Ty} :
    (synonym n args body).Closed ↔ (∀ a ∈ args, a.Closed) ∧ body.Closed := by
  simp only [closed_iff, mem_leafIds_synonym]
  exact ⟨fun h => ⟨fun a ha i hi => h i (.inl ⟨a, ha, hi⟩), fun i hi => h i (.inr hi)⟩,
    fun ⟨hargs, hbody⟩ i hi => hi.elim (fun ⟨a, ha, hi⟩ => hargs a ha i hi) (hbody i)⟩

@[simp] theorem closed_newtype {n : Name} {ps : List Param} {fs : List (String × Ty)}
    {args : List Ty} : (newtype n ps fs args).Closed ↔ ∀ a ∈ args, a.Closed :=
  closed_con (c := .bit)

theorem Closed.conjuncts {p : Ty} (h : p.Closed) : ∀ q ∈ p.conjuncts, q.Closed :=
  Simplify.conjuncts_inherit inherited_closed h

theorem Closed.conjunctsList {ps : List Ty} (h : ∀ p ∈ ps, p.Closed) :
    ∀ q ∈ conjunctsList ps, q.Closed := by
  induction ps with
  | nil => exact List.forall_mem_nil _
  | cons p ps ih =>
    obtain ⟨hp, hps⟩ := List.forall_mem_cons.mp h
    intro q hq
    rcases List.mem_append.mp hq with hq | hq
    · exact hp.conjuncts q hq
    · exact ih hps q hq

/-- Closed types in place of parameters leave a closed type closed. -/
theorem Closed.bind {t : Ty} (h : t.Closed) {onBound : Param → Ty}
    (hbound : ∀ p, (onBound p).Closed) : (t.bind free onBound).Closed := by
  induction t using Ty.induct with
  | free v => cases h
  | bound p => exact hbound p
  | con c args ih =>
    rw [closed_con] at h
    rw [Ty.bind, closed_con, bindList_eq_map]
    exact List.forall_mem_map.mpr fun a ha => ih a ha (h a ha)
  | record fs ih =>
    rw [closed_record] at h
    rw [Ty.bind, closed_record, bindFields_eq_map]
    exact List.forall_mem_map.mpr fun f hf => ih f hf (h f hf)
  | synonym n args body iha ihb =>
    rw [closed_synonym] at h
    rw [Ty.bind, closed_synonym, bindList_eq_map]
    exact ⟨List.forall_mem_map.mpr fun a ha => iha a ha (h.1 a ha), ihb h.2⟩
  | newtype n ps fs args ih =>
    rw [closed_newtype] at h
    rw [Ty.bind, closed_newtype, bindList_eq_map]
    exact List.forall_mem_map.mpr fun a ha => ih a ha (h a ha)

theorem Closed.instantiate {t : Ty} (h : t.Closed) {ps : List Param} {args : List Ty}
    (hargs : ∀ a ∈ args, a.Closed) : (t.instantiate (Schema.assignment ps args)).Closed := by
  refine h.bind fun p => ?_
  cases hfind : (Schema.assignment ps args).find? p.id with
  | none => exact closed_bound p
  | some a =>
    obtain ⟨e, he, heq⟩ := List.mem_map.mp (Table.mem_ofList (Table.mem_of_find? hfind))
    rw [Option.getD_some, ← (Prod.mk.inj heq).2]
    exact hargs _ (List.of_mem_zip he).2

end Ty

def Schema.Closed (sc : Schema) : Prop := (∀ p ∈ sc.props, p.Closed) ∧ sc.body.Closed

def TypeSynonym.Closed (ts : TypeSynonym) : Prop := (∀ p ∈ ts.props, p.Closed) ∧ ts.body.Closed

def Newtype.Closed (nt : Newtype) : Prop := (∀ p ∈ nt.props, p.Closed) ∧ ∀ f ∈ nt.fields, f.2.Closed

def PrimType.Closed (pt : PrimType) : Prop := ∀ p ∈ pt.props, p.Closed

/-- The constructor function of a closed newtype has a closed schema. -/
theorem Newtype.Closed.conSchema {nt : Newtype} (h : nt.Closed) : nt.conSchema.Closed := by
  refine ⟨h.1, Ty.closed_con.mpr (List.forall_mem_cons.mpr ⟨Ty.closed_record.mpr h.2, ?_⟩)⟩
  refine List.forall_mem_singleton.mpr (Ty.closed_newtype.mpr ?_)
  exact List.forall_mem_map.mpr fun p _ => Ty.closed_bound p

/-- The declared types of a module or an environment are closed. -/
structure ClosedTypes (synonyms : Table Int TypeSynonym) (newtypes : Table Int Newtype)
    (primTypes : Table Int PrimType) : Prop where
  synonyms : ∀ e ∈ synonyms, e.2.Closed
  newtypes : ∀ e ∈ newtypes, e.2.Closed
  primTypes : ∀ e ∈ primTypes, e.2.Closed

def External.ClosedTypes (E : External) : Prop :=
  SizedTypes.ClosedTypes E.synonyms E.newtypes E.primTypes

def Core.Module.ClosedTypes (m : Core.Module) : Prop :=
  SizedTypes.ClosedTypes m.synonyms m.newtypes m.primTypes

/-- What is found in scopes is in one of the tables. -/
theorem Scope.mem_of_lookup {α : Type} {table : Core.Module → Table Int α} {external : Table Int α}
    {id : Int} {scopes : List Scope} {a : α} (h : lookup table external id scopes = some a) :
    (id, a) ∈ external ∨ ∃ sc ∈ scopes, (id, a) ∈ table sc.content := by
  induction scopes with
  | nil => exact Or.inl (Table.mem_of_find? h)
  | cons sc scopes ih =>
    rw [lookup] at h
    split at h
    · rename_i hfind
      cases h
      exact Or.inr ⟨sc, List.mem_cons_self .., Table.mem_of_find? hfind⟩
    · rcases ih h with h | ⟨sc', hmem, h⟩
      · exact Or.inl h
      · exact Or.inr ⟨sc', List.mem_cons_of_mem _ hmem, h⟩

namespace Infer

open Surface (TypeExpr)

namespace Kinding

/-! ## Checks without variables around -/

/-- Nothing around the check of a written type has variables. -/
structure Bare (E : External) (k : Kinding) (s : State) : Prop where
  external : E.ClosedTypes
  scopes : ∀ sc ∈ s.scopes, sc.content.ClosedTypes
  existentials : s.existentials = []
  wildcards : k.allowWildcards = false
  goals : ∀ g ∈ k.goals, g.prop.Closed

/-- Under `pre`, and with nothing around that has variables, a check without errors gives what
satisfies `post`. -/
structure Closes {α : Type} (pre : Prop) (act : KindInfer α) (post : α → Prop) : Prop where
  framed : KindFramed act
  step : ∀ {c : Context} {k k' : Kinding} {s s' : State} {a : α}, KindReturns act c k s a k' s' →
    Bare c.external k s → s'.errors = [] → pre → post a ∧ Bare c.external k' s'

namespace Closes

variable {α β : Type} {pre : Prop} {P : α → Prop} {Q : β → Prop}

theorem pure {a : α} (h : pre → P a) : Closes pre (Pure.pure a) P where
  framed := .pure a
  step hr hbare _ hpre := by
    obtain ⟨rfl, rfl, rfl⟩ := kindReturns_pure.mp hr
    exact ⟨h hpre, hbare⟩

theorem bind {act : KindInfer α} {f : α → KindInfer β} (h : Closes pre act P)
    (h' : ∀ a, Closes (pre ∧ P a) (f a) Q) : Closes pre (act >>= f) Q where
  framed := h.framed.bind fun a => (h' a).framed
  step hr hbare herrors hpre := by
    obtain ⟨a, k₁, s₁, ha, hr⟩ := kindReturns_bind.mp hr
    -- an error is never taken back
    have herrors₁ := ((h' a).framed.step hr).errors
    rw [herrors, List.prefix_nil] at herrors₁
    obtain ⟨hP, hbare₁⟩ := h.step ha hbare herrors₁ hpre
    exact (h' a).step hr hbare₁ herrors ⟨hpre, hP⟩

theorem weaken {pre' : Prop} {P' : α → Prop} {act : KindInfer α} (h : Closes pre act P)
    (hpre : pre' → pre) (hpost : ∀ a, P a → P' a) : Closes pre' act P' where
  framed := h.framed
  step hr hbare herrors hpre' := (h.step hr hbare herrors (hpre hpre')).imp_left (hpost _)

theorem of_true {act : KindInfer α} (h : Closes True act P) : Closes pre act P :=
  h.weaken (fun _ => trivial) fun _ hP => hP

/-- A computation of the run has nothing to do with the check. -/
theorem lift {act : Infer α} (h : Framed act) : Closes pre (liftM act : KindInfer α) fun _ => True where
  framed := .lift h
  step hr hbare _ _ := by
    obtain ⟨rfl, hact⟩ := kindReturns_lift.mp hr
    have hframe := h.step hact
    exact ⟨trivial, { hbare with
      scopes := by rw [hframe.scopes]; exact hbare.scopes
      existentials := hframe.closed hbare.existentials }⟩

/-- After an error anything holds. -/
theorem error {e : TypeError} : Closes pre (liftM (recordError e) : KindInfer Unit) fun _ => False where
  framed := .lift (framed_recordError e)
  step hr _ herrors _ := by
    obtain ⟨rfl, hact⟩ := kindReturns_lift.mp hr
    unfold recordError currentRange at hact
    simp only [bind_assoc, returns_read_bind, pure_bind, returns_modify] at hact
    rw [hact] at herrors
    simp at herrors

theorem of_false {act : KindInfer α} (h : KindFramed act) (hpre : ¬pre) : Closes pre act P :=
  ⟨h, fun _ _ _ hp => absurd hp hpre⟩

theorem throw {e : InternalError} : Closes pre (MonadExcept.throw e : KindInfer α) P :=
  ⟨.throw e, fun hr _ _ _ => absurd hr not_kindReturns_throw⟩

theorem located {r : Range} {act : KindInfer α} (h : Closes pre act P) :
    Closes pre (Kinding.located r act) P where
  framed := .located h.framed
  step {c _ _ _ _ _} hr hbare herrors hpre :=
    h.step (c := { c with range := r.orElse c.range }) hr hbare herrors hpre

theorem ite {p : Prop} [Decidable p] {act act' : KindInfer α} (h : Closes pre act P)
    (h' : Closes pre act' P) : Closes pre (if p then act else act') P := by
  split
  · exact h
  · exact h'

theorem get : Closes pre (MonadState.get : KindInfer Kinding) fun k => k.allowWildcards = false where
  framed := .get
  step hr hbare _ _ := by
    cases hr
    exact ⟨hbare.wildcards, hbare⟩

theorem getState : Closes pre (getThe State : KindInfer State) fun _ => True where
  framed := .getState
  step hr hbare _ _ := by
    cases hr
    exact ⟨trivial, hbare⟩

/-- Parameters of the declaration are no concern of the check. -/
theorem setParams {f : Kinding → Table Int Param} :
    Closes pre (modify fun k => { k with params := f k } : KindInfer PUnit) fun _ => True where
  framed := .modify _
  step hr hbare _ _ := by
    obtain ⟨rfl, rfl⟩ := kindReturns_modify.mp hr
    exact ⟨trivial, { hbare with }⟩

theorem mapM {xs : List α} {f : α → KindInfer β} (h : ∀ x ∈ xs, Closes pre (f x) fun _ => True) :
    Closes pre (xs.mapM f) fun _ => True := by
  induction xs with
  | nil => exact pure fun _ => trivial
  | cons x xs ih =>
    rw [List.mapM_cons]
    refine (h x (by simp)).bind fun _ => Closes.bind (P := fun _ => True) ?_ fun _ => pure fun _ => trivial
    exact (ih fun y hy => h y (by simp [hy])).weaken And.left fun _ h => h

end Closes

/-! ## Written types -/

variable {pre : Prop}

theorem closes_declare (ps : List Surface.TypeParam) : Closes pre (declare ps) fun _ => True := by
  refine .mapM fun p _ => Closes.getState.bind fun s => ?_
  have hrest : ∀ {pre : Prop}, Closes pre (do
      let tp ← freshParam p.kind (some p.name)
      modify fun k => { k with params := k.params.insert p.name.id tp }
      return tp) fun _ => True :=
    (Closes.lift (framed_freshParam ..)).bind fun _ => Closes.setParams.bind fun _ =>
      .pure fun _ => trivial
  dsimp only
  split
  · exact .ite ((Closes.lift (framed_recordWarning _)).bind fun _ => hrest) hrest
  · exact hrest

theorem closes_emit {src : GoalSource} {ps : List Ty} (h : pre → ∀ p ∈ ps, p.Closed) :
    Closes pre (emit src ps) fun _ => True where
  framed := framed_emit src ps
  step hr hbare _ hpre := by
    unfold emit currentRange at hr
    simp only [kindReturns_lift_bind, kindReturns_modify, returns_read_bind, returns_pure] at hr
    obtain ⟨_, _, ⟨-, rfl⟩, rfl, rfl⟩ := hr
    refine ⟨trivial, { hbare with goals := fun g hg => ?_ }⟩
    rcases List.mem_append.mp hg with hg | hg
    · exact hbare.goals g hg
    · obtain ⟨p, hp, rfl⟩ := List.mem_map.mp hg
      exact Ty.Closed.conjunctsList (h hpre) p hp

theorem closes_atKind {k : Kind} {r : Ty × Kind} (h : pre → r.1.Closed) :
    Closes pre (atKind k r) Ty.Closed := by
  refine .ite (Closes.error.bind fun _ => ?_) (.pure h)
  exact .of_false (.lift (framed_freshType ..)) And.right

theorem closes_placeholder {e : TypeError} {k : Kind} {P : Ty × Kind → Prop} :
    Closes pre (do recordError e; placeholder k) P :=
  Closes.error.bind fun _ => .of_false (framed_placeholder k) And.right

/-- What a closed head stands for. -/
def Head.Closed : Head → Prop
  | .builtin _ => True
  | .synonym ts => ts.Closed
  | .newtype nt => nt.Closed
  | .primitive pt => pt.Closed

theorem Head.Closed.build {h : Head} (hh : h.Closed) {args : List Ty}
    (hargs : ∀ a ∈ args, a.Closed) : (h.build args).Closed := by
  cases h with
  | builtin c => exact Ty.closed_con.mpr hargs
  | synonym ts => exact Ty.closed_synonym.mpr ⟨hargs, hh.2.instantiate hargs⟩
  | newtype nt => exact Ty.closed_newtype.mpr hargs
  | primitive pt => exact Ty.closed_con.mpr hargs

theorem closed_sideConditions {f : SizeOp} {args : List Ty} (hargs : ∀ a ∈ args, a.Closed) :
    ∀ p ∈ sideConditions f args, p.Closed := by
  unfold sideConditions
  split <;> simp_all [Ty.geq, Ty.fin, Ty.neq, Ty.compare, Ty.num]

theorem Head.Closed.conditions {h : Head} (hh : h.Closed) {args : List Ty}
    (hargs : ∀ a ∈ args, a.Closed) : ∀ p ∈ (h.conditions args).2, p.Closed := by
  cases h with
  | builtin c =>
    cases c with
    | op f => exact closed_sideConditions hargs
    | _ => exact List.forall_mem_nil _
  | synonym ts => exact List.forall_mem_map.mpr fun p hp => (hh.1 p hp).instantiate hargs
  | newtype nt => exact List.forall_mem_map.mpr fun p hp => (hh.1 p hp).instantiate hargs
  | primitive pt => exact hh

/-- What a name refers to is closed, where it is not a parameter. -/
def Referent.Closed : Referent → Prop
  | .head h => h.Closed
  | _ => True

/-- What a table of declared types has is closed. -/
theorem closes_lookup {α : Type} {table : Core.Module → Table Int α}
    {external : External → Table Int α} {P : α → Prop} {id : Int}
    (hscopes : ∀ m : Core.Module, m.ClosedTypes → ∀ e ∈ table m, P e.2)
    (hexternal : ∀ E : External, E.ClosedTypes → ∀ e ∈ external E, P e.2) :
    Closes pre (liftM (do
        return Scope.lookup table (external (← read).external) id (← get).scopes : Infer (Option α)) :
      KindInfer (Option α)) fun r => ∀ a, r = some a → P a where
  framed := .lift (Framed.read.bind fun _ => Framed.get.bind fun _ => .pure _)
  step hr hbare _ _ := by
    obtain ⟨rfl, hread⟩ := kindReturns_lift.mp hr
    rw [returns_read_bind, returns_get_bind, returns_pure] at hread
    obtain ⟨rfl, rfl⟩ := hread
    refine ⟨fun a ha => ?_, hbare⟩
    rcases Scope.mem_of_lookup ha with hmem | ⟨sc, hsc, hmem⟩
    · exact hexternal _ hbare.external _ hmem
    · exact hscopes _ (hbare.scopes sc hsc) _ hmem

theorem closes_resolve (n : Name) (arity : Nat) (hint : Kind) :
    Closes pre (resolve n arity hint) Referent.Closed := by
  refine Closes.get.bind fun k => ?_
  split
  · exact .ite (.pure fun _ => trivial) (Closes.setParams.bind fun _ => .pure fun _ => trivial)
  · refine Closes.getState.bind fun s => ?_
    refine (Closes.lift (Framed.get.bind fun _ => .pure _)).bind fun p => ?_
    dsimp only
    generalize (if arity = 0 then _ else none) = outer
    split
    · exact .pure fun _ => trivial
    · refine (closes_lookup (fun _ h => h.synonyms) fun _ h => h.synonyms).bind fun ts => ?_
      split
      · exact .pure fun h => h.2 _ rfl
      · refine (closes_lookup (fun _ h => h.newtypes) fun _ h => h.newtypes).bind fun nt => ?_
        split
        · exact .pure fun h => h.2 _ rfl
        · refine (closes_lookup (fun _ h => h.primTypes) fun _ h => h.primTypes).bind fun pt => ?_
          split
          · exact .pure fun h => h.2 _ rfl
          · exact .throw

theorem closes_existential {ident : String} {k : Kind} : Closes pre (existential ident k) Ty.Closed where
  framed := framed_existential ident k
  step h hbare herrors hpre := by
    unfold existential at h
    rw [kindReturns_getState_bind, hbare.existentials] at h
    have hfail : Closes pre (do
        recordError (.undefinedExistential ident)
        freshType k .errorPlaceholder : KindInfer Ty) Ty.Closed :=
      Closes.error.bind fun _ => .of_false (.lift (framed_freshType ..)) And.right
    exact hfail.step h hbare herrors hpre

mutual
theorem closes_infer : ∀ (t : TypeExpr) (hint : Kind), Closes True (infer t hint) fun r => r.1.Closed
  | .located r t, hint => by
    rw [infer]
    exact (closes_infer t hint).located
  | .bit, _ | .num _, _ | .char _, _ => by
    rw [infer]
    exact .pure fun _ => rfl
  | .seq len elem, _ => by
    rw [infer]
    refine (closes_infer len _).bind fun r => (closes_atKind And.right).bind fun n =>
      (closes_infer elem _).of_true.bind fun r => (closes_atKind And.right).bind fun a =>
      .pure fun h => ?_
    exact Ty.closed_con.mpr (by simp [h.1.1.2, h.2])
  | .arrow a b, _ => by
    rw [infer]
    refine (closes_infer a _).bind fun r => (closes_atKind And.right).bind fun n =>
      (closes_infer b _).of_true.bind fun r => (closes_atKind And.right).bind fun a =>
      .pure fun h => ?_
    exact Ty.closed_con.mpr (by simp [h.1.1.2, h.2])
  | .tuple ts, _ => by
    rw [infer]
    exact (closes_checkEach ts).bind fun _ => .pure fun h => Ty.closed_con.mpr h.2
  | .record fs, _ => by
    rw [infer]
    refine (closes_checkFields fs).bind fun _ => .pure fun h => Ty.closed_record.mpr ?_
    exact fun f hf => h.2 f (Table.mem_ofList hf)
  | .wildcard, hint => by
    have hfresh : KindFramed (do
        return (← freshType (hint.orElse .type) .wildcard, hint.orElse .type) :
          KindInfer (Ty × Kind)) :=
      (KindFramed.lift (framed_freshType ..)).bind fun _ => .pure _
    rw [infer]
    refine Closes.get.bind fun k => ?_
    dsimp only
    split
    · exact Closes.error.bind fun _ => .of_false hfresh And.right
    · rename_i hallowed
      exact .of_false hfresh fun h => hallowed (by simp [h.2])
  | .existential ident, hint => by
    rw [infer]
    exact closes_existential.bind fun _ => .pure And.right
  | .builtin c args, hint => by
    rw [infer]
    refine .ite closes_placeholder ?_
    exact (closes_checkArgs args _).bind fun r =>
      (closes_emit fun h => Head.Closed.conditions (h := .builtin c) trivial h.2).bind fun _ =>
      .pure fun h => Ty.closed_con.mpr h.1.2
  | .named n args, hint => by
    rw [infer]
    refine (closes_resolve ..).bind fun r => ?_
    split
    · exact .pure fun _ => Ty.closed_bound _
    · exact closes_placeholder
    · refine .ite closes_placeholder ?_
      exact (closes_checkArgs args _).of_true.bind fun r =>
        (closes_emit fun h => Head.Closed.conditions h.1.2 h.2).bind fun _ =>
        .pure fun h => Head.Closed.build h.1.1.2 h.1.2

theorem closes_checkEach : ∀ ts : List TypeExpr,
    Closes True (Kinding.checkEach ts) fun ts => ∀ t ∈ ts, t.Closed
  | [] => by
    rw [Kinding.checkEach]
    exact .pure fun _ => List.forall_mem_nil _
  | t :: ts => by
    rw [Kinding.checkEach]
    exact (closes_infer t _).bind fun _ => (closes_atKind And.right).bind fun _ =>
      (closes_checkEach ts).of_true.bind fun _ =>
      .pure fun h => List.forall_mem_cons.mpr ⟨h.1.2, h.2⟩

theorem closes_checkFields : ∀ fs : List (String × TypeExpr),
    Closes True (checkFields fs) fun fs => ∀ f ∈ fs, f.2.Closed
  | [] => by
    rw [checkFields]
    exact .pure fun _ => List.forall_mem_nil _
  | (l, t) :: fs => by
    rw [checkFields]
    exact (closes_infer t _).bind fun _ => (closes_atKind And.right).bind fun _ =>
      (closes_checkFields fs).of_true.bind fun _ =>
      .pure fun h => List.forall_mem_cons.mpr ⟨h.1.2, h.2⟩

theorem closes_checkArgs : ∀ (ts : List TypeExpr) (k : Kind),
    Closes True (checkArgs k ts) fun r => ∀ t ∈ r.1, t.Closed
  | [], k => by
    rw [checkArgs]
    exact .pure fun _ => List.forall_mem_nil _
  | t :: ts, .arrow dom cod => by
    rw [checkArgs]
    exact (closes_infer t _).bind fun _ => (closes_atKind And.right).bind fun _ =>
      (closes_checkArgs ts cod).of_true.bind fun _ =>
      .pure fun h => List.forall_mem_cons.mpr ⟨h.1.2, h.2⟩
  | _ :: _, .type | _ :: _, .num | _ :: _, .prop | _ :: _, .unknown => by
    rw [checkArgs]
    · exact .pure fun _ => List.forall_mem_nil _
    · simp
end

theorem closes_check (t : TypeExpr) (k : Kind) : Closes pre (check t k) Ty.Closed :=
  (closes_infer t k).of_true.bind fun _ => closes_atKind And.right

theorem closes_checkProps (ts : List TypeExpr) :
    Closes pre (checkProps ts) fun ps => ∀ p ∈ ps, p.Closed := by
  induction ts generalizing pre with
  | nil => exact .pure fun _ => List.forall_mem_nil _
  | cons t ts ih =>
    refine (closes_check t _).bind fun p => ih.bind fun ps => .pure fun h => ?_
    exact List.forall_mem_append.mpr ⟨h.1.2.conjuncts, h.2⟩

/-- Parameters at other kinds. -/
theorem closed_settleTy {ps : List Param} {t : Ty} (h : t.Closed) : (settleTy ps t).Closed :=
  h.bind fun _ => Ty.closed_bound _

end Kinding
end Infer
end SizedTypes
