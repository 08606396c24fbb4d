import SizedTypes.Infer.Expr
import SizedTypes.Proofs.Infer.Respects.Goals

/-!
# Relations that small checks respect

Solving selector goals, using a variable, checking a literal or a pattern and opening an
application respect what small computations respect.
-/

set_option autoImplicit false

namespace SizedTypes.Infer

open Surface (Enumeration Pattern TypeArg TypeExpr)

variable {R : State → State → Prop}

/-! ## Selector goals -/

/-- What the steps are besides, where the books of selector goals can be changed at will. -/
class SelectorRules (R : State → State → Prop) : Prop extends Rules R where
  solution (s : State) (solutions : Table Int Solution) : R s { s with solutions }
  pending (s : State) (pending : List SelectorGoal) : R s { s with pending }

section SelectorRules

variable [SelectorRules R]

theorem respects_setSolution (id : Int) (soln : Solution) : Respects R (setSolution id soln) :=
  .modify fun s => SelectorRules.solution s _

theorem respects_modifyPending (f : State → List SelectorGoal) :
    Respects R (modify fun s => { s with pending := f s } : Infer PUnit) :=
  .modify fun s => SelectorRules.pending s _

theorem respects_solveSelectorAt (g : SelectorGoal) (record : Ty) :
    Respects R (solveSelectorAt g record) := by
  unfold solveSelectorAt
  split
  · exact (respects_unifyFrom ..).bind fun _ => (respects_addGoals ..).bind fun _ =>
      respects_setSolution ..
  · exact (respects_freshType ..).bind fun _ => (respects_unifyFrom ..).bind fun _ =>
      (respects_newSelectorGoal ..).bind fun _ => respects_setSolution ..
  · exact (respects_freshType ..).bind fun _ => (respects_unifyFrom ..).bind fun _ =>
      (respects_newSelectorGoal ..).bind fun _ => respects_setSolution ..
  · exact (respects_recordError _).bind fun _ => respects_setSolution ..

theorem respects_solveSelector (g : SelectorGoal) : Respects R (solveSelector g) := by
  refine (respects_applied _).bind fun record => ?_
  split
  · exact .pure _
  · exact (respects_solveSelectorAt g record).withRange.bind fun _ => .pure _

theorem respects_solveSelectorsOnce (gs : List SelectorGoal) : Respects R (solveSelectorsOnce gs) := by
  induction gs with
  | nil => exact .pure _
  | cons g gs ih =>
    have hrest := fun b : Bool => ih.bind fun more => Respects.pure (b || more)
    refine (respects_solveSelector g).bind fun solved => .ite ?_ (hrest _)
    exact (respects_modifyPending _).bind fun _ => hrest _

theorem respects_selectorRounds : Respects R solveSelectors := by
  refine Respects.get.bind fun s => ?_
  generalize selectorRounds s = fuel
  induction fuel with
  | zero => exact .pure _
  | succ fuel ih =>
    exact Respects.get.bind fun _ => (respects_modifyPending _).bind fun _ =>
      (respects_solveSelectorsOnce _).bind fun _ => .ite ih (.pure _)

end SelectorRules

variable [Rules R]

/-! ## Uses and literals -/

@[simp] theorem respects_checkVar (n : Name) (args : List TypeArg) (exp : Expected) :
    Respects R (checkVar n args exp) := by
  refine (respects_lookupVar n).bind fun v => ?_
  split
  · have hrest : ∀ name token t, Respects R (do
        unifyExact exp t
        return Core.Term.groupVar name token) := fun _ _ _ =>
      (respects_unifyExact ..).bind fun _ => .pure _
    split
    · exact hrest _ _ _
    · exact (respects_checkType ..).bind fun _ => (respects_recordError _).bind fun _ => hrest _ _ _
  · exact Respects.get.bind fun _ => (respects_typeArgs ..).bind fun _ =>
      (respects_instantiate ..).bind fun _ => (respects_addGoals ..).bind fun _ =>
      (respects_unifyExact ..).bind fun _ => .pure _

@[simp] theorem respects_checkPrim (src : GoalSource) (ident : String) (args : List (String × Ty))
    (exp : Expected) : Respects R (checkPrim src ident args exp) := by
  refine (respects_prim ident).bind fun n => (respects_lookupVar n).bind fun v => ?_
  split
  · refine (Respects.pure _).bind fun sc => Respects.get.bind fun s => ?_
    dsimp only
    split
    · exact .throw_bind
    · exact (respects_instantiate ..).bind fun _ => (respects_addGoals ..).bind fun _ =>
        (respects_unifyExact ..).bind fun _ => .pure _
  · exact .throw_bind

@[simp] theorem respects_checkNum (value base digits : Int) (exp : Expected) :
    Respects R (checkNum value base digits exp) := respects_checkPrim ..

@[simp] theorem respects_checkString (str : String) (exp : Expected) :
    Respects R (checkString str exp) :=
  (respects_unifyExact ..).bind fun _ => (Respects.mapM fun _ _ => respects_checkPrim ..).bind fun _ =>
    .pure _

theorem respects_checkBound (label : String)
    (t : Option TypeExpr) : Respects R (checkBound label t) := by
  cases t with
  | none => exact .pure _
  | some t => exact (respects_checkType ..).bind fun _ => .pure _

@[simp] theorem respects_checkEnumeration (e : Enumeration) (exp : Expected) :
    Respects R (checkEnumeration e exp) := by
  unfold checkEnumeration
  cases e.elem with
  | none =>
    exact (Respects.pure _).bind fun _ => (respects_checkBound ..).bind fun _ =>
      (Respects.mapM fun _ _ => respects_checkBound ..).bind fun _ => respects_checkPrim ..
  | some t =>
    exact (respects_checkType ..).bind fun _ => (Respects.pure _).bind fun _ =>
      (respects_checkBound ..).bind fun _ =>
      (Respects.mapM fun _ _ => respects_checkBound ..).bind fun _ => respects_checkPrim ..

/-! ## Patterns -/

@[simp] theorem respects_monoDecl (n : Name) (t : Ty) (e : Core.Term) : Respects R (monoDecl n t e) :=
  respects_currentRange.bind fun _ => .pure _

theorem respects_part (whole : Matched) (sel : Selector) (t : Ty) (m : Matched) :
    Respects R (whole.part sel t m) := (respects_monoDecl ..).bind fun _ => .pure _

theorem respects_checkSplit (exp : Expected) : Respects R (checkSplit exp) :=
  (respects_freshType ..).bind fun _ => (respects_freshType ..).bind fun _ =>
    (respects_freshType ..).bind fun _ => (respects_unifyFrom ..).bind fun _ =>
    (respects_addGoals ..).bind fun _ => (respects_checkPrim ..).bind fun _ =>
    (respects_freshName _).bind fun _ => (respects_freshName _).bind fun _ =>
    (respects_monoDecl ..).bind fun _ => .pure _

mutual
theorem respects_checkPattern : ∀ (p : Pattern) (exp : Expected), Respects R (checkPattern p exp)
  | .located r p, exp => by
    rw [checkPattern]
    exact (respects_checkPattern p exp).withRange
  | .var n, exp => by
    rw [checkPattern]
    exact .pure _
  | .wildcard, exp => by
    rw [checkPattern]
    exact (respects_freshName _).bind fun _ => .pure _
  | .typed p t, exp => by
    rw [checkPattern]
    exact (respects_checkType ..).bind fun _ => (respects_unifyExact ..).bind fun _ =>
      respects_checkPattern p _
  | .tuple ps, exp => by
    rw [checkPattern]
    exact (respects_expectTuple ..).bind fun _ => (respects_freshName _).bind fun _ =>
      respects_checkParts ps _ _
  | .record fs, exp => by
    rw [checkPattern]
    exact (respects_expectRecord ..).bind fun _ => (respects_freshName _).bind fun _ =>
      respects_checkFieldParts fs _ _
  | .list ps, exp => by
    rw [checkPattern]
    exact (respects_expectSeq _).bind fun _ => (respects_unifyFrom ..).bind fun _ =>
      (respects_freshName _).bind fun _ => respects_checkParts ps _ _
  | .split left right, exp => by
    rw [checkPattern]
    exact (respects_checkSplit _).bind fun _ => (respects_checkPattern left _).bind fun _ =>
      (respects_part ..).bind fun _ => (respects_checkPattern right _).bind fun _ =>
      (respects_part ..).bind fun _ => .pure _

theorem respects_checkParts : ∀ (ps : List Pattern) (slots : List (Selector × Expected))
    (whole : Matched), Respects R (checkParts ps slots whole)
  | p :: ps, (sel, exp) :: slots, whole => by
    rw [checkParts]
    exact (respects_checkPattern p exp).bind fun _ => (respects_part ..).bind fun _ =>
      respects_checkParts ps slots _
  | [], _, whole => by simp [checkParts]
  | _ :: _, [], whole => by simp [checkParts]

theorem respects_checkFieldParts : ∀ (fs : List (String × Pattern)) (fields : Table String Ty)
    (whole : Matched), Respects R (checkFieldParts fs fields whole)
  | [], _, whole => by
    rw [checkFieldParts]
    exact .pure _
  | (l, p) :: fs, fields, whole => by
    rw [checkFieldParts]
    exact (respects_checkPattern p _).bind fun _ => (respects_part ..).bind fun _ =>
      respects_checkFieldParts fs fields _
end

/-! ## Applications and comprehensions -/

theorem respects_openSpine (k : Nat) (exp : Expected)
    (slots : List (Ty × Nat)) : Respects R (openSpine k exp slots) := by
  unfold openSpine
  split
  · exact .pure _
  · exact (Respects.mapM fun _ _ => respects_freshType ..).bind fun _ =>
      (respects_freshType ..).bind fun _ => .pure _

theorem respects_checkRepeated (vs : List (Name × Ty))
    (seen : List Int) : Respects R (checkRepeated seen vs) := by
  induction vs generalizing seen with
  | nil => exact .pure _
  | cons v vs ih => exact .ite ((respects_recordError _).bind fun _ => ih _) (ih _)

end SizedTypes.Infer
