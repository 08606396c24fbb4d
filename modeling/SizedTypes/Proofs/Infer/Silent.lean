import SizedTypes.Proofs.Infer.Mirror.Recursion
import SizedTypes.Proofs.Surface.Conditions

/-!
# Checks that ask nothing

The check of a quiet body does not ask the solver.
-/

set_option autoImplicit false

namespace SizedTypes.Infer

open Surface (Bind Expr Match Pattern Quiet UpdateHow nestedArms nestedDecls nestedEach nestedFields
  nestedMatches nestedUpdates quiet_append quiet_cons_expr subtermsArms subtermsDecls subtermsFields
  subtermsList subtermsMatches subtermsUpdates)
open SizedTypes.Core (Decl Term)

/-- A computation that asks nothing, whether it returns or not. -/
structure Silent {α : Type} (act : Infer α) : Prop where
  queries : ∀ c s, (act.exec c s).2.queries = s.queries

variable {α β : Type}

theorem Steady.silent {act : Infer α} (h : Steady act) : Silent act where
  queries c s := by
    rw [h.exec_record c s]
    rfl

namespace Silent

theorem bind {act : Infer α} {f : α → Infer β} (h : Silent act) (h' : ∀ a, Silent (f a)) :
    Silent (act >>= f) where
  queries c s := by
    have hact := h.queries c s
    rw [exec_bind]
    rcases hexec : act.exec c s with ⟨e | a, s₁⟩ <;> rw [hexec] at hact
    · exact hact
    · exact ((h' a).queries c s₁).trans hact

theorem bind_steady {act : Infer α} {f : α → Infer β} (h : Silent act) (h' : ∀ a, Steady (f a)) :
    Silent (act >>= f) := h.bind fun a => (h' a).silent

theorem get_bind {f : State → Infer α} (h : ∀ s, Silent (f s)) : Silent (get >>= f) :=
  ⟨fun c s => (h s).queries c s⟩

theorem withRange {r : Range} {act : Infer α} (h : Silent act) : Silent (withRange r act) :=
  ⟨fun c s => h.queries (c.located r) s⟩

theorem ite {p : Prop} [Decidable p] {act act' : Infer α} (h : Silent act) (h' : Silent act') :
    Silent (if p then act else act') := by
  split
  · exact h
  · exact h'

end Silent

theorem Steady.bind_silent {act : Infer α} {f : α → Infer β} (h : Steady act)
    (h' : ∀ a, Silent (f a)) : Silent (act >>= f) := h.silent.bind h'

/-! ## Checks of parts -/

theorem silent_withExistentials {act : Infer α} (h : Silent act) : Silent (withExistentials act) :=
  (Steady.modify fun _ _ _ => rfl).bind_silent fun _ => h.bind_steady fun _ =>
    (Steady.modify fun _ _ _ => rfl).bind fun _ => .pure _

section Checkers

variable {body : Checker} (h : ∀ exp, Silent (body exp))
include h

theorem silent_checkLambda (ps : List Pattern) (exp : Expected) :
    Silent (checkLambda ps exp body) :=
  .ite (h exp) <| (steady_expectArrow ..).bind_silent fun _ =>
    (steady_checkParams ..).bind_silent fun _ => (h _).bind_steady fun _ =>
    (steady_unstash _).bind fun _ => .pure _

theorem silent_checkMono (b : Bind) (t : Ty) : Silent (checkMono b t body) :=
  ((h _).bind_steady fun _ => .pure _).withRange

theorem silent_checkUpdate (path : List Selector) (how : UpdateHow) (exp : Expected) (out : Term) :
    Silent (checkUpdate path how exp out body) := by
  unfold checkUpdate
  split
  · refine (steady_freshType ..).bind_silent fun _ => (steady_newSelectorGoal ..).bind_silent
      fun _ => ?_
    cases how with
    | set => exact (h _).bind_steady fun _ => .pure _
    | modify =>
      exact (h _).bind_steady fun _ => (steady_freshName _).bind fun _ =>
        (steady_monoDecl ..).bind fun _ => .pure _
  · exact (Steady.throw _).silent

end Checkers

/-! ## The recursion -/

mutual
theorem silent_checkExpr : ∀ (e : Expr) (exp : Expected) (slots : List (Ty × Nat)),
    Quiet e.nested e.subterms → Silent (checkExpr e exp slots)
  | .located range e, exp, slots, h => by
    simp only [Expr.nested, Expr.subterms, quiet_cons_expr] at h
    rw [checkExpr]
    exact ((silent_checkExpr e exp [] h.2).bind_steady fun _ =>
      .read_bind (fun _ _ => rfl) fun _ => .pure _).withRange
  | .var n, exp, slots, _ => by
    rw [checkExpr]
    exact (steady_checkVar ..).silent
  | .typeApp f args, exp, slots, _ => by
    rw [checkExpr]
    split
    · exact (steady_checkVar ..).silent
    · exact (Steady.throw _).silent
  | .num value base digits, exp, slots, _ => by
    rw [checkExpr]
    exact (steady_checkNum ..).silent
  | .frac num den, exp, slots, _ => by
    rw [checkExpr]
    exact (steady_checkPrim ..).silent
  | .char code, exp, slots, _ => by
    rw [checkExpr]
    exact (steady_checkPrim ..).silent
  | .string str, exp, slots, _ => by
    rw [checkExpr]
    exact (steady_checkString ..).silent
  | .typeValue t, exp, slots, _ => by
    rw [checkExpr]
    exact ((steady_checkType ..).bind fun _ => steady_checkPrim ..).silent
  | .enumeration bounds, exp, slots, _ => by
    rw [checkExpr]
    exact (steady_checkEnumeration ..).silent
  | .from first, exp, slots, h => by
    simp only [Expr.nested, Expr.subterms, quiet_cons_expr] at h
    rw [checkExpr]
    exact (steady_prim _).bind_silent fun _ => (steady_openSpine ..).bind_silent fun _ =>
      (steady_checkVar ..).bind_silent fun _ => (silent_checkExpr first _ [] h.2).bind_steady
      fun _ => .pure _
  | .fromThen first next, exp, slots, h => by
    simp only [Expr.nested, Expr.subterms, quiet_cons_expr, quiet_append] at h
    rw [checkExpr]
    exact (steady_prim _).bind_silent fun _ => (steady_openSpine ..).bind_silent fun _ =>
      (steady_checkVar ..).bind_silent fun _ => (steady_openSpine ..).bind_silent fun _ =>
      (silent_checkExpr first _ [] h.2.1).bind fun _ =>
      (silent_checkExpr next _ [] h.2.2).bind_steady fun _ => .pure _
  | .tuple es, exp, slots, h => by
    simp only [Expr.nested, Expr.subterms, quiet_cons_expr] at h
    rw [checkExpr]
    exact (steady_expectTuple ..).bind_silent fun _ => (silent_checkEach es _ h.2).bind_steady
      fun _ => .pure _
  | .record fs, exp, slots, h => by
    simp only [Expr.nested, Expr.subterms, quiet_cons_expr] at h
    rw [checkExpr]
    exact (steady_expectRecord ..).bind_silent fun _ =>
      (silent_checkRecordFields fs _ h.2).bind_steady fun _ => .pure _
  | .list es, exp, slots, h => by
    simp only [Expr.nested, Expr.subterms, quiet_cons_expr] at h
    rw [checkExpr]
    exact (steady_expectSeq _).bind_silent fun _ => (steady_unifyExact ..).bind_silent fun _ =>
      (silent_checkEach es _ h.2).bind_steady fun _ => .pure _
  | .select e sel, exp, slots, h => by
    simp only [Expr.nested, Expr.subterms, quiet_cons_expr] at h
    rw [checkExpr]
    exact (steady_freshType ..).bind_silent fun _ => (silent_checkExpr e _ [] h.2).bind_steady
      fun _ => (steady_newSelectorGoal ..).bind fun _ => .pure _
  | .update record fields, exp, slots, h => by
    simp only [Expr.nested, Expr.subterms, quiet_cons_expr, quiet_append] at h
    rw [checkExpr]
    exact (silent_checkExpr record exp [] h.2.1).bind fun _ =>
      silent_checkUpdates fields exp _ h.2.2
  | .updater fields, exp, slots, h => by
    simp only [Expr.nested, Expr.subterms, quiet_cons_expr] at h
    rw [checkExpr]
    exact (steady_freshName _).bind_silent fun _ => silent_checkLambda (fun _ =>
      (steady_checkVar ..).bind_silent fun _ => silent_checkUpdates fields _ _ h.2) _ _
  | .comp result arms, exp, slots, h => by
    simp only [Expr.nested, Expr.subterms, quiet_cons_expr, quiet_append] at h
    rw [checkExpr]
    exact (steady_expectSeq _).bind_silent fun _ => (silent_checkArms arms [] h.1 h.2.2).bind
      fun _ => (steady_unifyFrom ..).bind_silent fun _ =>
      (Steady.forM fun _ => steady_declareMono ..).bind_silent fun _ =>
      (silent_checkExpr result _ [] h.2.1).bind_steady fun _ => (steady_unstash _).bind fun _ =>
      .pure _
  | .app f a, exp, slots, h => by
    simp only [Expr.nested, Expr.subterms, quiet_cons_expr, quiet_append] at h
    rw [checkExpr]
    exact (steady_openSpine ..).bind_silent fun _ => (silent_checkExpr f _ _ h.2.1).bind fun _ =>
      (silent_checkExpr a _ [] h.2.2).bind_steady fun _ => .pure _
  | .ifThenElse c t e, exp, slots, h => by
    simp only [Expr.nested, Expr.subterms, quiet_cons_expr, quiet_append] at h
    rw [checkExpr]
    exact (silent_checkExpr c _ [] h.2.1).bind fun _ => (silent_checkExpr t exp [] h.2.2.1).bind
      fun _ => (silent_checkExpr e exp [] h.2.2.2).bind_steady fun _ => .pure _
  | .block body ds, exp, slots, h => by
    simp only [Expr.nested, Expr.subterms, quiet_cons_expr, quiet_append] at h
    rw [checkExpr]
    exact (steady_freshName _).bind_silent fun _ => (steady_openScope ..).bind_silent fun _ =>
      (silent_checkDecls ds false h.2.2).bind fun _ =>
      (silent_checkExpr body exp [] h.2.1).bind_steady fun _ => (steady_unstash _).bind fun _ =>
      steady_closeBlock.bind fun _ => .pure _
  | .typed e t, exp, slots, h => by
    simp only [Expr.nested, Expr.subterms, quiet_cons_expr] at h
    rw [checkExpr]
    exact (steady_checkType ..).bind_silent fun _ => (silent_checkExpr e _ [] h.2).bind_steady
      fun _ => (steady_unifyExact ..).bind fun _ => .pure _
  | .lambda ps body, exp, slots, h => by
    simp only [Expr.nested, Expr.subterms, quiet_cons_expr] at h
    rw [checkExpr]
    exact silent_checkLambda (fun exp => silent_checkExpr body exp [] h.2) ps exp

theorem silent_checkEach : ∀ (es : List Expr) (exps : List Expected),
    Quiet (nestedEach es) (subtermsList es) → Silent (checkEach es exps)
  | e :: es, exp :: exps, h => by
    simp only [nestedEach, subtermsList, quiet_append] at h
    rw [checkEach]
    exact (silent_checkExpr e exp [] h.1).bind fun _ => (silent_checkEach es exps h.2).bind_steady
      fun _ => .pure _
  | [], exps, _ => by
    rw [checkEach]
    · exact (Steady.pure _).silent
    · simp
  | e :: es, [], _ => by
    rw [checkEach]
    · exact (Steady.pure _).silent
    · simp

theorem silent_checkRecordFields : ∀ (fs : List (String × Expr)) (fields : Table String Ty),
    Quiet (nestedFields fs) (subtermsFields fs) → Silent (checkRecordFields fs fields)
  | [], fields, _ => by
    rw [checkRecordFields]
    exact (Steady.pure _).silent
  | (l, e) :: fs, fields, h => by
    simp only [nestedFields, subtermsFields, quiet_append] at h
    rw [checkRecordFields]
    exact (silent_checkExpr e _ [] h.1).bind fun _ =>
      (silent_checkRecordFields fs fields h.2).bind_steady fun _ => .pure _

theorem silent_checkUpdates : ∀ (fs : List (List Selector × UpdateHow × Expr)) (exp : Expected)
    (out : Term), Quiet (nestedUpdates fs) (subtermsUpdates fs) → Silent (checkUpdates fs exp out)
  | [], exp, out, _ => by
    rw [checkUpdates]
    exact (Steady.pure _).silent
  | (path, how, e) :: fs, exp, out, h => by
    simp only [nestedUpdates, subtermsUpdates, quiet_append] at h
    rw [checkUpdates]
    exact (silent_checkUpdate (fun exp => silent_checkExpr e exp [] h.1) path how exp out).bind
      fun _ => silent_checkUpdates fs exp _ h.2

theorem silent_checkArms : ∀ (arms : List (List Match)) (seen : List Int),
    (arms.any fun ms => ms.any Match.signed) = false → Quiet (nestedArms arms) (subtermsArms arms) →
    Silent (checkArms seen arms)
  | [], seen, _, _ => by
    rw [checkArms]
    exact (Steady.pure _).silent
  | ms :: arms, seen, hsigned, h => by
    simp only [List.any_cons, Bool.or_eq_false_iff] at hsigned
    simp only [nestedArms, subtermsArms, quiet_append] at h
    rw [checkArms]
    exact (silent_checkMatches ms {} hsigned.1 h.1).bind fun _ => (steady_unstash _).bind_silent
      fun _ => (steady_checkRepeated ..).bind_silent fun _ =>
      (silent_checkArms arms _ hsigned.2 h.2).bind_steady fun _ => .pure _

theorem silent_checkMatches : ∀ (ms : List Match) (arm : Arm), ms.any Match.signed = false →
    Quiet (nestedMatches ms) (subtermsMatches ms) → Silent (checkMatches ms arm)
  | [], arm, _, _ => by
    rw [checkMatches]
    exact (Steady.pure _).silent
  | .draw p e :: ms, arm, hsigned, h => by
    simp only [List.any_cons, Bool.or_eq_false_iff] at hsigned
    simp only [nestedMatches, subtermsMatches, quiet_append] at h
    rw [checkMatches]
    exact (steady_freshType ..).bind_silent fun _ => (steady_freshType ..).bind_silent fun _ =>
      (silent_checkExpr e _ [] h.1).bind fun _ => (steady_checkPattern ..).bind_silent fun _ =>
      (steady_draw ..).bind_silent fun _ => silent_checkMatches ms _ hsigned.2 h.2
  | .define b :: ms, arm, hsigned, h => by
    simp only [List.any_cons, Bool.or_eq_false_iff] at hsigned
    simp only [nestedMatches, subtermsMatches, quiet_append] at h
    have hsignature : b.signature = none := by simpa [Match.signed] using hsigned.1
    rw [checkMatches, checkSingle, hsignature]
    exact ((steady_freshType ..).bind_silent fun _ =>
      silent_checkMono (fun exp => silent_checkBody b exp h.1) b _).bind fun _ =>
      (steady_define ..).bind_silent fun _ => silent_checkMatches ms _ hsigned.2 h.2

theorem silent_checkBody : ∀ (b : Bind) (exp : Expected), b.Quiet → Silent (checkBody b exp)
  | .mk n params (some e) sig mono prim range, exp, h => by
    rw [checkBody]
    exact silent_withExistentials
      (silent_checkLambda (fun exp => silent_checkExpr e exp [] h) params exp)
  | .mk n params none sig mono prim range, exp, _ => by
    rw [checkBody]
    exact (Steady.throw _).silent

theorem silent_checkDecls : ∀ (ds : List Surface.Decl) (top : Bool),
    Quiet (nestedDecls ds) (subtermsDecls ds) → Silent (checkDecls top ds)
  | [], top, _ => by
    rw [checkDecls]
    exact (Steady.pure _).silent
  | d :: ds, top, h => by
    obtain ⟨hgroup, hsubmodule, hrest⟩ := h.decls_cons
    rw [checkDecls]
    exact .get_bind fun _ => .ite (Steady.pure _).silent <|
      (silent_checkDecl d top hgroup hsubmodule).bind fun _ =>
      (silent_checkDecls ds top hrest).bind_steady fun _ => .pure _

theorem silent_checkDecl : ∀ (d : Surface.Decl) (top : Bool),
    (∀ recursive bs, d ≠ .group recursive bs) →
    (∀ n inner range, d = .submodule n inner range →
      Quiet (nestedDecls inner) (subtermsDecls inner)) → Silent (checkDecl top d)
  | .group recursive bs, top, hgroup, _ => absurd rfl (hgroup recursive bs)
  | .submodule n inner range, top, _, hsubmodule => by
    rw [checkDecl]
    exact Silent.withRange <| .get_bind fun _ => (steady_openScope ..).bind_silent fun _ =>
      (silent_checkDecls inner true (hsubmodule n inner range rfl)).bind_steady fun _ =>
      (Steady.modify fun _ _ _ => rfl).bind fun _ => steady_closeSubmodule.bind fun _ => .pure _
  | .synonym .., top, _, _ | .newtype .., top, _, _ | .primType .., top, _, _
  | .paramType .., top, _, _ | .paramProps .., top, _, _ | .paramFun .., top, _, _ =>
    (steady_checkDecl (by simp) (by simp) top).silent
end

end SizedTypes.Infer
