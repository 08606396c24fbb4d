import SizedTypes.Infer.Expr
import SizedTypes.Proofs.Infer.Monad

/-!
# Heads of checked terms

Abstractions over type parameters and over evidence are put around definitions only. So no
expression is elaborated to one, and the definitions of a group do not start with one before the
group is generalized.
-/

set_option autoImplicit false

namespace SizedTypes

namespace Core.Term

/-- Whether a term is an abstraction over a type parameter or over evidence. -/
def isGeneralized : Term → Bool
  | typeAbs _ _ | proofAbs _ _ => true
  | _ => false

theorem isGeneralized_instantiated {e : Term} (h : e.isGeneralized = false) (args : List Ty)
    (proofs : Nat) : (e.instantiated args proofs).isGeneralized = false := by
  have htypes : ∀ (as : List Ty) (e : Term), e.isGeneralized = false →
      (as.foldl typeApp e).isGeneralized = false := by
    intro as
    induction as with
    | nil => exact fun _ h => h
    | cons a as ih => exact fun e _ => ih (typeApp e a) rfl
  have hproofs : ∀ (us : List Unit) (e : Term), e.isGeneralized = false →
      (us.foldl (fun e _ => proofApp e) e).isGeneralized = false := by
    intro us
    induction us with
    | nil => exact fun _ h => h
    | cons u us ih => exact fun e _ => ih (proofApp e) rfl
  exact hproofs _ _ (htypes _ _ h)

/-- Substitution keeps the head of a term, unless that is a use of a binding under way. -/
theorem isGeneralized_substitute {e : Term} (h : e.isGeneralized = false) {f : Ty → Ty}
    {g : Name → Int → Option Term}
    (hg : ∀ n token t, g n token = some t → t.isGeneralized = false) :
    (e.substitute f g).isGeneralized = false := by
  cases e with
  | groupVar n token =>
    rw [substitute]
    cases hcall : g n token with
    | none => rfl
    | some t => exact hg n token t hcall
  | typeAbs p e => cases h
  | proofAbs p e => cases h
  | _ => rfl

end Core.Term

namespace Infer

open Surface (Bind Enumeration Expr TypeArg UpdateHow)
open SizedTypes.Core (Decl Term)

/-- Whatever a computation returns has the property. -/
structure Yields {α : Type} (P : α → Prop) (act : Infer α) : Prop where
  step : ∀ {c : Context} {s s' : State} {a : α}, Returns act c s a s' → P a

namespace Yields

variable {α β : Type} {P : α → Prop} {Q : β → Prop}

theorem pure {a : α} (h : P a) : Yields P (Pure.pure a) where
  step hr := (returns_pure.mp hr).1 ▸ h

theorem throw (e : InternalError) : Yields P (MonadExcept.throw e) where
  step hr := absurd hr not_returns_throw

theorem throw_bind {e : InternalError} {f : β → Infer α} :
    Yields P (MonadExcept.throw e >>= f) where
  step hr := by
    obtain ⟨b, s₁, hthrow, -⟩ := returns_bind.mp hr
    exact absurd hthrow not_returns_throw

theorem bind {act : Infer β} {f : β → Infer α} (h : ∀ b, Yields P (f b)) :
    Yields P (act >>= f) where
  step hr := by
    obtain ⟨b, s₁, -, hr⟩ := returns_bind.mp hr
    exact (h b).step hr

/-- The rest of the computation starts from what the first part returns. -/
theorem andThen {act : Infer β} {f : β → Infer α} (h : Yields Q act)
    (h' : ∀ b, Q b → Yields P (f b)) : Yields P (act >>= f) where
  step hr := by
    obtain ⟨b, s₁, hact, hr⟩ := returns_bind.mp hr
    exact (h' b (h.step hact)).step hr

theorem withRange {r : Range} {act : Infer α} (h : Yields P act) : Yields P (withRange r act) where
  step hr := h.step (returns_withReader.mp hr)

end Yields

/-! ## Checked terms -/

/-- The computation elaborates no abstraction over type parameters or evidence. -/
def Plain (act : Infer Term) : Prop := Yields (fun e => e.isGeneralized = false) act

theorem plain_return {e : Term} (h : e.isGeneralized = false) : Plain (pure e) := .pure h

theorem plain_checkVar (n : Name) (args : List TypeArg) (exp : Expected) :
    Plain (checkVar n args exp) := by
  refine .bind fun v => ?_
  split
  · have hrest : ∀ name token t, Plain (do
        unifyExact exp t
        return Term.groupVar name token) := fun _ _ _ => .bind fun _ => .pure rfl
    split
    · exact hrest _ _ _
    · exact .bind fun _ => .bind fun _ => hrest _ _ _
  · refine .bind fun _ => .bind fun _ => .bind fun inst => .bind fun _ => .bind fun _ => .pure ?_
    exact Term.isGeneralized_instantiated rfl ..

theorem plain_checkPrim (src : GoalSource) (ident : String) (args : List (String × Ty))
    (exp : Expected) : Plain (checkPrim src ident args exp) := by
  refine .bind fun n => .bind fun v => ?_
  split
  · refine .bind fun sc => .bind fun s => ?_
    dsimp only
    split
    · exact .throw_bind
    · exact .bind fun _ => .bind fun _ => .bind fun _ => .pure
        (Term.isGeneralized_instantiated rfl ..)
  · exact .throw_bind

theorem plain_checkEnumeration (e : Enumeration) (exp : Expected) :
    Plain (checkEnumeration e exp) := by
  unfold checkEnumeration
  cases e.elem with
  | none => exact .bind fun _ => .bind fun _ => .bind fun _ => plain_checkPrim ..
  | some t => exact .bind fun _ => .bind fun _ => .bind fun _ => .bind fun _ => plain_checkPrim ..

theorem plain_checkLambda (params : List Surface.Pattern) (exp : Expected) {body : Checker}
    (h : ∀ exp, Plain (body exp)) : Plain (checkLambda params exp body) := by
  unfold checkLambda
  split
  · exact h exp
  · refine .bind fun r => .bind fun ms => .andThen (h _) fun out hout => .bind fun _ => .pure ?_
    cases ms.zip r.1 with
    | nil =>
      rw [List.foldr_nil, underDecls]
      split
      · exact hout
      · rfl
    | cons e es => rfl

theorem plain_checkUpdate (path : List Selector) (how : UpdateHow) (exp : Expected) (out : Term)
    (value : Checker) : Plain (checkUpdate path how exp out value) := by
  unfold checkUpdate
  split
  · refine .bind fun _ => .bind fun _ => ?_
    cases how with
    | set => exact .bind fun _ => .pure rfl
    | modify => exact .bind fun _ => .bind fun _ => .bind fun _ => .pure rfl
  · exact .throw _

theorem plain_checkUpdates (fs : List (List Selector × UpdateHow × Expr)) (exp : Expected)
    {out : Term} (h : out.isGeneralized = false) : Plain (checkUpdates fs exp out) := by
  induction fs generalizing out with
  | nil => exact plain_return h
  | cons f fs ih =>
    rw [checkUpdates]
    exact .andThen (plain_checkUpdate ..) fun _ hout => ih hout

theorem plain_checkExpr : ∀ (e : Expr) (exp : Expected) (slots : List (Ty × Nat)),
    Plain (checkExpr e exp slots)
  | .located r e, exp, _ => by
    rw [checkExpr]
    refine .withRange (.andThen (plain_checkExpr e exp []) fun out hout => .bind fun c =>
      .pure ?_)
    split
    · rfl
    · exact hout
  | .var n, exp, _ => by
    rw [checkExpr]
    exact plain_checkVar ..
  | .typeApp f args, exp, _ => by
    rw [checkExpr]
    split
    · exact plain_checkVar ..
    · exact .throw _
  | .num value base digits, exp, _ => by
    rw [checkExpr]
    exact plain_checkPrim ..
  | .frac num den, exp, _ => by
    rw [checkExpr]
    exact plain_checkPrim ..
  | .char code, exp, _ => by
    rw [checkExpr]
    exact plain_checkPrim ..
  | .string s, exp, _ => by
    rw [checkExpr]
    exact .bind fun _ => .bind fun _ => .pure rfl
  | .typeValue t, exp, _ => by
    rw [checkExpr]
    exact .bind fun _ => plain_checkPrim ..
  | .enumeration e, exp, _ => by
    rw [checkExpr]
    exact plain_checkEnumeration ..
  | .from first, exp, _ => by
    rw [checkExpr]
    exact .bind fun _ => .bind fun _ => .bind fun _ => .bind fun _ => .pure rfl
  | .fromThen first next, exp, _ => by
    rw [checkExpr]
    exact .bind fun _ => .bind fun _ => .bind fun _ => .bind fun _ => .bind fun _ =>
      .bind fun _ => .pure rfl
  | .tuple es, exp, _ => by
    rw [checkExpr]
    exact .bind fun _ => .bind fun _ => .pure rfl
  | .record fs, exp, _ => by
    rw [checkExpr]
    exact .bind fun _ => .bind fun _ => .pure rfl
  | .list es, exp, _ => by
    rw [checkExpr]
    exact .bind fun _ => .bind fun _ => .bind fun _ => .pure rfl
  | .select e sel, exp, _ => by
    rw [checkExpr]
    exact .bind fun _ => .bind fun _ => .bind fun _ => .pure rfl
  | .update record fields, exp, _ => by
    rw [checkExpr]
    exact .andThen (plain_checkExpr record exp []) fun out hout => plain_checkUpdates _ _ hout
  | .updater fields, exp, _ => by
    rw [checkExpr]
    refine .bind fun x => plain_checkLambda _ _ fun exp => ?_
    exact .andThen (plain_checkVar ..) fun out hout => plain_checkUpdates _ _ hout
  | .comp result arms, exp, _ => by
    rw [checkExpr]
    exact .bind fun _ => .bind fun _ => .bind fun _ => .bind fun _ => .bind fun _ =>
      .bind fun _ => .pure rfl
  | .app f a, exp, slots => by
    rw [checkExpr]
    exact .bind fun _ => .bind fun _ => .bind fun _ => .pure rfl
  | .ifThenElse c t e, exp, _ => by
    rw [checkExpr]
    exact .bind fun _ => .bind fun _ => .bind fun _ => .pure rfl
  | .block body ds, exp, _ => by
    rw [checkExpr]
    exact .bind fun _ => .bind fun _ => .bind fun _ => .bind fun _ => .bind fun _ =>
      .bind fun _ => .pure rfl
  | .typed e t, exp, _ => by
    rw [checkExpr]
    exact .bind fun t => .andThen (plain_checkExpr e ⟨t, .wildcard⟩ []) fun out hout =>
      .bind fun _ => .pure hout
  | .lambda ps body, exp, _ => by
    rw [checkExpr]
    exact plain_checkLambda _ _ fun exp => plain_checkExpr body exp []

theorem plain_checkBody (b : Bind) (exp : Expected) : Plain (checkBody b exp) := by
  obtain ⟨n, params, _ | e, sig, prim, mono, r⟩ := b
  · rw [checkBody]
    exact .throw _
  · rw [checkBody]
    refine .bind fun _ => .andThen ?_ fun _ hout => .bind fun _ => .pure hout
    exact plain_checkLambda _ _ fun exp => plain_checkExpr e exp []

/-- The definitions of a group that is to be generalized have terms, which do not abstract over
type parameters or evidence yet. -/
theorem plain_checkGeneral (plan : Plan) (bs : List Bind) :
    Yields (fun ds => ∀ d ∈ ds, ∃ e, d.body = some e ∧ e.isGeneralized = false)
      (checkGeneral plan bs) := by
  induction bs with
  | nil => exact .pure (List.forall_mem_nil _)
  | cons b bs ih =>
    rw [checkGeneral]
    split
    · refine .andThen (Q := fun d : Decl => ∃ e, d.body = some e ∧ e.isGeneralized = false) ?_
        fun d hd => .andThen ih fun ds hds => .pure (List.forall_mem_cons.mpr ⟨hd, hds⟩)
      exact .withRange (.andThen (plain_checkBody b _) fun e he => .pure ⟨e, rfl, he⟩)
    · exact ih

end Infer
end SizedTypes
