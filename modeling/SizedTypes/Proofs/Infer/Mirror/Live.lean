import Mathlib.Data.List.Induction
import SizedTypes.Proofs.Infer.Mirror.Recursion

/-!
# Runs that are not cancelled

A run that is not cancelled in the end has not been cancelled before. So it leaves nothing out, and
it is the run of the same program with a solver that gives the same answers and never cancels.
-/

set_option autoImplicit false

namespace SizedTypes.Infer

open Surface (Bind Expr UpdateHow)
open SizedTypes.Core (Decl Term)

variable {r : Course} {α β : Type}

namespace Course

/-- The run is not cancelled after all it asks. -/
def Live (r : Course) : Prop := r.cancelledAfter r.queries = false

theorem cancelledAfter_of_prefix {qs qs' : List Query} (h : qs <+: qs')
    (hlive : r.cancelledAfter qs' = false) : r.cancelledAfter qs = false := by
  obtain ⟨more, rfl⟩ := h
  induction more using List.reverseRecOn with
  | nil => rwa [List.append_nil] at hlive
  | append_singleton more q ih =>
    rw [← List.append_assoc, cancelledAfter_append, Bool.or_eq_false_iff] at hlive
    exact ih hlive.1

end Course

/-- With the solver that never cancels, the computation does in the run what it does with the
solver of the run. -/
def Unaffected (r : Course) {α : Type} (act : Infer α) : Prop := Mirrored r act fun _ : Unit => act

namespace Unaffected

theorem bind {act : Infer α} {f : α → Infer β} (h : Unaffected r act)
    (h' : ∀ a, Unaffected r (f a)) : Unaffected r (act >>= f) :=
  (Mirrored.bind h h').choose fun _ => ⟨⟨⟩, rfl⟩

theorem ite {p : Prop} [Decidable p] {act act' : Infer α} (h : Unaffected r act)
    (h' : Unaffected r act') : Unaffected r (if p then act else act') := Mirrored.ite h h'

theorem withRange {range : Range} {act : Infer α} (h : Unaffected r act) :
    Unaffected r (withRange range act) := Mirrored.withRange h

/-- In such a run nothing is left out. -/
theorem unlessCancelled {a : α} {act : Infer α} (hlive : r.Live) (h : Unaffected r act) :
    Unaffected r (do
      if (← get).cancelled then return a
      act) where
  toFollows := (Mirrored.unlessCancelled h).toFollows
  exec_live c s hc hs hq := by
    have hqueries := (Mirrored.unlessCancelled (a := a) h).toFollows.queries c s
    have hs₀ : s.cancelled = false :=
      (hs : s.cancelled = _).trans (Course.cancelledAfter_of_prefix (hqueries.trans hq) hlive)
    rw [exec_unlessCancelled, hs₀] at hq
    exact (h.exec_live c s hc hs hq).unlessCancelled hs₀

end Unaffected

theorem Steady.unaffected {act : Infer α} (h : Steady act) : Unaffected r act := h.mirrored

theorem Steady.bind_unaffected {act : Infer α} {f : α → Infer β} (h : Steady act)
    (h' : ∀ a, Unaffected r (f a)) : Unaffected r (act >>= f) := h.unaffected.bind h'

theorem Unaffected.bind_steady {act : Infer α} {f : α → Infer β} (h : Unaffected r act)
    (h' : ∀ a, Steady (f a)) : Unaffected r (act >>= f) := h.bind fun a => (h' a).unaffected

/-! ## The recursion -/

section Recursion

-- only `checkDecls` looks at it, and all others of the recursion reach that
set_option linter.unusedSectionVars false
variable (hlive : r.Live)
include hlive

mutual
theorem unaffected_checkExpr : ∀ (e : Expr) (exp : Expected) (slots : List (Ty × Nat)),
    Unaffected r (checkExpr e exp slots)
  | .located range e, exp, slots => by
    rw [checkExpr]
    exact ((unaffected_checkExpr e exp []).bind_steady fun _ =>
      .read_bind (fun _ _ => rfl) fun _ => .pure _).withRange
  | .var n, exp, slots => Steady.unaffected <| by
    rw [checkExpr]
    exact steady_checkVar ..
  | .typeApp f args, exp, slots => Steady.unaffected <| by
    rw [checkExpr]
    split
    · exact steady_checkVar ..
    · exact .throw _
  | .num value base digits, exp, slots => Steady.unaffected <| by
    rw [checkExpr]
    exact steady_checkNum ..
  | .frac num den, exp, slots => Steady.unaffected <| by
    rw [checkExpr]
    exact steady_checkPrim ..
  | .char code, exp, slots => Steady.unaffected <| by
    rw [checkExpr]
    exact steady_checkPrim ..
  | .string str, exp, slots => Steady.unaffected <| by
    rw [checkExpr]
    exact steady_checkString ..
  | .typeValue t, exp, slots => Steady.unaffected <| by
    rw [checkExpr]
    exact (steady_checkType ..).bind fun _ => steady_checkPrim ..
  | .enumeration bounds, exp, slots => Steady.unaffected <| by
    rw [checkExpr]
    exact steady_checkEnumeration ..
  | .from first, exp, slots => by
    rw [checkExpr]
    exact (steady_prim _).bind_unaffected fun _ => (steady_openSpine ..).bind_unaffected fun _ =>
      (steady_checkVar ..).bind_unaffected fun _ =>
      (unaffected_checkExpr first _ []).bind_steady fun _ => .pure _
  | .fromThen first next, exp, slots => by
    rw [checkExpr]
    exact (steady_prim _).bind_unaffected fun _ => (steady_openSpine ..).bind_unaffected fun _ =>
      (steady_checkVar ..).bind_unaffected fun _ => (steady_openSpine ..).bind_unaffected fun _ =>
      (unaffected_checkExpr first _ []).bind fun _ =>
      (unaffected_checkExpr next _ []).bind_steady fun _ => .pure _
  | .tuple es, exp, slots => by
    rw [checkExpr]
    exact (steady_expectTuple ..).bind_unaffected fun _ =>
      (unaffected_checkEach es _).bind_steady fun _ => .pure _
  | .record fs, exp, slots => by
    rw [checkExpr]
    exact (steady_expectRecord ..).bind_unaffected fun _ =>
      (unaffected_checkRecordFields fs _).bind_steady fun _ => .pure _
  | .list es, exp, slots => by
    rw [checkExpr]
    exact (steady_expectSeq _).bind_unaffected fun _ =>
      (steady_unifyExact ..).bind_unaffected fun _ =>
      (unaffected_checkEach es _).bind_steady fun _ => .pure _
  | .select e sel, exp, slots => by
    rw [checkExpr]
    exact (steady_freshType ..).bind_unaffected fun _ =>
      (unaffected_checkExpr e _ []).bind_steady fun _ => (steady_newSelectorGoal ..).bind fun _ =>
      .pure _
  | .update record fields, exp, slots => by
    rw [checkExpr]
    exact (unaffected_checkExpr record exp []).bind fun _ => unaffected_checkUpdates fields exp _
  | .updater fields, exp, slots => by
    rw [checkExpr]
    exact (steady_freshName _).bind_unaffected fun _ => mirrored_checkLambda (fun _ =>
      (steady_checkVar ..).bind_unaffected fun _ => unaffected_checkUpdates fields _ _) _ _
  | .comp result arms, exp, slots => by
    rw [checkExpr]
    exact (steady_expectSeq _).bind_unaffected fun _ => (unaffected_checkArms arms []).bind fun _ =>
      (steady_unifyFrom ..).bind_unaffected fun _ =>
      (Steady.forM fun _ => steady_declareMono ..).bind_unaffected fun _ =>
      (unaffected_checkExpr result _ []).bind_steady fun _ => (steady_unstash _).bind fun _ =>
      .pure _
  | .app f a, exp, slots => by
    rw [checkExpr]
    exact (steady_openSpine ..).bind_unaffected fun _ => (unaffected_checkExpr f _ _).bind fun _ =>
      (unaffected_checkExpr a _ []).bind_steady fun _ => .pure _
  | .ifThenElse c t e, exp, slots => by
    rw [checkExpr]
    exact (unaffected_checkExpr c _ []).bind fun _ => (unaffected_checkExpr t exp []).bind fun _ =>
      (unaffected_checkExpr e exp []).bind_steady fun _ => .pure _
  | .block body ds, exp, slots => by
    rw [checkExpr]
    exact (steady_freshName _).bind_unaffected fun _ => (steady_openScope ..).bind_unaffected
      fun _ => (unaffected_checkDecls ds false).bind fun _ =>
      (unaffected_checkExpr body exp []).bind_steady fun _ => (steady_unstash _).bind fun _ =>
      steady_closeBlock.bind fun _ => .pure _
  | .typed e t, exp, slots => by
    rw [checkExpr]
    exact (steady_checkType ..).bind_unaffected fun _ =>
      (unaffected_checkExpr e _ []).bind_steady fun _ => (steady_unifyExact ..).bind fun _ => .pure _
  | .lambda ps body, exp, slots => by
    rw [checkExpr]
    exact mirrored_checkLambda (fun exp => unaffected_checkExpr body exp []) ps exp

theorem unaffected_checkEach : ∀ (es : List Expr) (exps : List Expected),
    Unaffected r (checkEach es exps)
  | e :: es, exp :: exps => by
    rw [checkEach]
    exact (unaffected_checkExpr e exp []).bind fun _ => (unaffected_checkEach es exps).bind_steady
      fun _ => .pure _
  | [], exps => Steady.unaffected (by simp [checkEach])
  | e :: es, [] => Steady.unaffected (by simp [checkEach])

theorem unaffected_checkRecordFields : ∀ (fs : List (String × Expr)) (fields : Table String Ty),
    Unaffected r (checkRecordFields fs fields)
  | [], fields => by
    rw [checkRecordFields]
    exact (Steady.pure _).unaffected
  | (l, e) :: fs, fields => by
    rw [checkRecordFields]
    exact (unaffected_checkExpr e _ []).bind fun _ =>
      (unaffected_checkRecordFields fs fields).bind_steady fun _ => .pure _

theorem unaffected_checkUpdates : ∀ (fs : List (List Selector × UpdateHow × Expr)) (exp : Expected)
    (out : Term), Unaffected r (checkUpdates fs exp out)
  | [], exp, out => by
    rw [checkUpdates]
    exact (Steady.pure _).unaffected
  | (path, how, e) :: fs, exp, out => by
    have hupdate : Unaffected r (checkUpdate path how exp out fun exp => checkExpr e exp []) :=
      mirrored_checkUpdate (fun exp => unaffected_checkExpr e exp []) path how exp out
    rw [checkUpdates]
    exact hupdate.bind fun _ => unaffected_checkUpdates fs exp _

theorem unaffected_checkArms : ∀ (arms : List (List Surface.Match)) (seen : List Int),
    Unaffected r (checkArms seen arms)
  | [], seen => by
    rw [checkArms]
    exact (Steady.pure _).unaffected
  | ms :: arms, seen => by
    rw [checkArms]
    exact (unaffected_checkMatches ms {}).bind fun _ => (steady_unstash _).bind_unaffected fun _ =>
      (steady_checkRepeated ..).bind_unaffected fun _ =>
      (unaffected_checkArms arms _).bind_steady fun _ => .pure _

theorem unaffected_checkMatches : ∀ (ms : List Surface.Match) (arm : Arm),
    Unaffected r (checkMatches ms arm)
  | [], arm => by
    rw [checkMatches]
    exact (Steady.pure _).unaffected
  | .draw p e :: ms, arm => by
    rw [checkMatches]
    exact (steady_freshType ..).bind_unaffected fun _ => (steady_freshType ..).bind_unaffected
      fun _ => (unaffected_checkExpr e _ []).bind fun _ => (steady_checkPattern ..).bind_unaffected
      fun _ => (steady_draw ..).bind_unaffected fun _ => unaffected_checkMatches ms _
  | .define b :: ms, arm => by
    have hbind : Unaffected r (checkSingle b fun exp => checkBody b exp) :=
      mirrored_checkSingle (fun exp => unaffected_checkBody b exp) b
    rw [checkMatches]
    exact hbind.bind fun _ => (steady_define ..).bind_unaffected fun _ =>
      unaffected_checkMatches ms _

theorem unaffected_checkBody : ∀ (b : Bind) (exp : Expected), Unaffected r (checkBody b exp)
  | .mk n params (some e) sig mono prim range, exp => by
    rw [checkBody]
    exact mirrored_withExistentials (mirrored_checkLambda
      (fun exp => unaffected_checkExpr e exp []) params exp)
  | .mk n params none sig mono prim range, exp => by
    rw [checkBody]
    exact (Steady.throw _).unaffected

theorem unaffected_checkGeneral : ∀ (bs : List Bind) (plan : Plan),
    Unaffected r (checkGeneral plan bs)
  | [], plan => by
    rw [checkGeneral]
    exact (Steady.pure _).unaffected
  | b :: bs, plan => by
    have hmono : ∀ t, Unaffected r (checkMono b t fun exp => checkBody b exp) :=
      mirrored_checkMono (fun exp => unaffected_checkBody b exp) b
    have hrest := unaffected_checkGeneral bs plan
    rw [checkGeneral]
    exact .ite ((hmono _).bind fun _ => hrest.bind_steady fun _ => .pure _) hrest

theorem unaffected_checkOthers : ∀ (bs : List Bind) (plan : Plan),
    Unaffected r (checkOthers plan bs)
  | [], plan => by
    rw [checkOthers]
    exact (Steady.pure _).unaffected
  | b :: bs, plan => by
    have hmono : ∀ t, Unaffected r (checkMono b t fun exp => checkBody b exp) :=
      mirrored_checkMono (fun exp => unaffected_checkBody b exp) b
    have hsigned : ∀ sc, Unaffected r (checkSigned b sc fun exp => checkBody b exp) :=
      mirrored_checkSigned (fun exp => unaffected_checkBody b exp) b
    have hrest := unaffected_checkOthers bs plan
    rw [checkOthers]
    refine .ite hrest ?_
    split
    · exact (hsigned _).bind fun _ => hrest.bind_steady fun _ => .pure _
    · exact (hmono _).bind fun _ => hrest.bind_steady fun _ => .pure _

theorem unaffected_checkDecls : ∀ (ds : List Surface.Decl) (top : Bool),
    Unaffected r (checkDecls top ds)
  | [], top => by
    rw [checkDecls]
    exact (Steady.pure _).unaffected
  | d :: ds, top => by
    rw [checkDecls]
    exact .unlessCancelled hlive <| (unaffected_checkDecl d top).bind fun _ =>
      (unaffected_checkDecls ds top).bind_steady fun _ => .pure _

theorem unaffected_checkDecl : ∀ (d : Surface.Decl) (top : Bool), Unaffected r (checkDecl top d)
  | .group recursive bs, top => by
    have hgroup : ∀ plan, Unaffected r
        (checkGroup plan recursive bs (checkGeneral plan bs) (checkOthers plan bs)) := fun plan =>
      (mirrored_checkGroup (unaffected_checkGeneral bs plan) (unaffected_checkOthers bs plan)
        plan recursive bs).choose fun _ => ⟨⟨⟩, rfl⟩
    rw [checkDecl]
    exact (steady_planGroup ..).bind_unaffected fun plan => (hgroup plan).bind_steady fun _ =>
      (Steady.forM fun _ => steady_declare ..).bind fun _ => (steady_modifyScope _).bind fun _ =>
      .pure _
  | .submodule n ds range, top => by
    have hinner : ∀ s₀ : State, Unaffected r (do
        openScope .submodule n
        let declared ← checkDecls true ds
        modify fun s => { s with params := s₀.params, assumptions := s₀.assumptions }
        closeSubmodule
        return declared) := fun s₀ =>
      (steady_openScope ..).bind_unaffected fun _ =>
        (unaffected_checkDecls ds true).bind_steady fun _ =>
        (Steady.modify fun _ _ _ => rfl).bind fun _ => steady_closeSubmodule.bind fun _ => .pure _
    rw [checkDecl]
    exact (Mirrored.get_bind (fun _ _ _ => rfl) hinner).withRange
  | .synonym .., top | .newtype .., top | .primType .., top | .paramType .., top
  | .paramProps .., top | .paramFun .., top =>
    (steady_checkDecl (by simp) (by simp) top).unaffected
end

end Recursion

end SizedTypes.Infer
