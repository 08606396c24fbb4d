import Mathlib.Logic.Basic
import SizedTypes.Core.Visit
import SizedTypes.Infer.Resolve

/-!
# The types in a term

Which types a substitution and the resolution of selections leave in a term. A substitution
leaves the types that it makes and those of the terms that it puts in. Resolution leaves the final
forms of the types that were there, and of the types that the routes of pending selections and
updates carry.
-/

set_option autoImplicit false

namespace SizedTypes

open SizedTypes.Core

namespace Core

/-- A type with the property `P` is among the parts. -/
def AnyType (P : Ty → Prop) (ps : List Part) : Prop := ∃ t ∈ typesOf ps, P t

variable {P : Ty → Prop}

@[simp] theorem anyType_nil : AnyType P [] ↔ False := by simp [AnyType, typesOf]

@[simp] theorem anyType_type {t : Ty} {ps : List Part} :
    AnyType P (.type t :: ps) ↔ P t ∨ AnyType P ps := by simp [AnyType, typesOf]

@[simp] theorem anyType_node {e : Term} {ps : List Part} :
    AnyType P (.node e :: ps) ↔ AnyType P ps := by simp [AnyType, typesOf]

@[simp] theorem anyType_append {ps qs : List Part} :
    AnyType P (ps ++ qs) ↔ AnyType P ps ∨ AnyType P qs := by
  simp [AnyType, typesOf, or_and_right, exists_or]

@[simp] theorem anyType_schemaParts {sc : Schema} :
    AnyType P (schemaParts sc) ↔ P sc.body ∨ ∃ p ∈ sc.props, P p := by
  have hprops : AnyType P (sc.props.map .type) ↔ ∃ p ∈ sc.props, P p := by
    induction sc.props with
    | nil => simp
    | cons p ps ih => simp [ih]
  rw [schemaParts, anyType_append, hprops]
  simp [or_comm]

/-! ## Substitution -/

section Substitute

set_option linter.unusedSectionVars false

variable {f : Ty → Ty} {g : Name → Int → Option Term} (hf : ∀ t, ¬P (f t))
  (hg : ∀ n token e, g n token = some e → ¬AnyType P e.parts)

include hf hg

mutual
/-- Every type of a term after a substitution is made by it or comes with a term put in. -/
theorem Term.anyType_substitute :
    ∀ e : Term, ¬AnyType P (e.substitute f g).parts
  | .var n => by simp [Term.substitute, Term.parts]
  | .groupVar n token => by
    rw [Term.substitute]
    cases h : g n token with
    | none => simp [Term.parts]
    | some e => exact hg n token e h
  | .typeApp e t => by simp [Term.substitute, Term.parts, e.anyType_substitute, hf]
  | .proofApp e => by simp [Term.substitute, Term.parts, e.anyType_substitute]
  | .app fn arg => by
    simp [Term.substitute, Term.parts, fn.anyType_substitute, arg.anyType_substitute]
  | .abs n t body => by simp [Term.substitute, Term.parts, body.anyType_substitute, hf]
  | .typeAbs p body => by simp [Term.substitute, Term.parts, body.anyType_substitute]
  | .proofAbs prop body => by
    simp [Term.substitute, Term.parts, body.anyType_substitute, hf]
  | .tuple es => by simp [Term.substitute, Term.parts, anyType_substituteList es]
  | .record fs => by simp [Term.substitute, Term.parts, anyType_substituteFields fs]
  | .select e sel => by simp [Term.substitute, Term.parts, e.anyType_substitute]
  | .update t e sel v => by
    simp [Term.substitute, Term.parts, e.anyType_substitute, v.anyType_substitute, hf]
  | .list es t => by simp [Term.substitute, Term.parts, anyType_substituteList es, hf]
  | .comp len elem result arms => by
    simp [Term.substitute, Term.parts, result.anyType_substitute,
      anyType_substituteArms arms, hf]
  | .ifThenElse c t e => by
    simp [Term.substitute, Term.parts, c.anyType_substitute, t.anyType_substitute,
      e.anyType_substitute]
  | .block e gs => by
    simp [Term.substitute, Term.parts, e.anyType_substitute,
      anyType_substituteGroups gs]
  | .located r e => by simp [Term.substitute, Term.parts, e.anyType_substitute]
  | .pendingSelect goal e => by simp [Term.substitute, Term.parts, e.anyType_substitute]
  | .pendingUpdate goal e v => by
    simp [Term.substitute, Term.parts, e.anyType_substitute, v.anyType_substitute]

theorem anyType_substituteList :
    ∀ es : List Term, ¬AnyType P (partsList (substituteList f g es))
  | [] => by simp [substituteList, partsList]
  | e :: es => by
    simp [substituteList, partsList, e.anyType_substitute, anyType_substituteList es]

theorem anyType_substituteFields :
    ∀ fs : List (String × Term), ¬AnyType P (partsFields (substituteFields f g fs))
  | [] => by simp [substituteFields, partsFields]
  | (l, e) :: fs => by
    simp [substituteFields, partsFields, e.anyType_substitute,
      anyType_substituteFields fs]

theorem anyType_substituteArms :
    ∀ arms : List (List Match), ¬AnyType P (partsArms (substituteArms f g arms))
  | [] => by simp [substituteArms, partsArms]
  | arm :: arms => by
    simp [substituteArms, partsArms, anyType_substituteMatches arm,
      anyType_substituteArms arms]

theorem anyType_substituteMatches :
    ∀ ms : List Match, ¬AnyType P (partsMatches (substituteMatches f g ms))
  | [] => by simp [substituteMatches, partsMatches]
  | .draw n len t e :: ms => by
    simp [substituteMatches, partsMatches, e.anyType_substitute,
      anyType_substituteMatches ms, hf]
  | .define d :: ms => by
    simp [substituteMatches, partsMatches, d.anyType_substitute,
      anyType_substituteMatches ms]

theorem Decl.anyType_substitute :
    ∀ d : Decl, ¬AnyType P (d.substitute f g).parts
  | .mk n sc (some e) prim r => by
    simp [Decl.substitute, Decl.parts, Schema.mapTypes, e.anyType_substitute, hf]
  | .mk n sc none prim r => by simp [Decl.substitute, Decl.parts, Schema.mapTypes, hf]

theorem anyType_substituteDecls :
    ∀ ds : List Decl, ¬AnyType P (partsDecls (substituteDecls f g ds))
  | [] => by simp [substituteDecls, partsDecls]
  | d :: ds => by
    simp [substituteDecls, partsDecls, d.anyType_substitute,
      anyType_substituteDecls ds]

theorem anyType_substituteGroups :
    ∀ gs : List Group, ¬AnyType P (partsGroups (substituteGroups f g gs))
  | [] => by simp [substituteGroups, partsGroups]
  | .mk r ds :: gs => by
    simp [substituteGroups, partsGroups, anyType_substituteDecls ds,
      anyType_substituteGroups gs]
end

end Substitute

end Core

/-! ## Resolution -/

namespace Resolver

/-- The types that a lift puts into a selection. -/
def liftSelectTypes : Lift → List Ty
  | .seq len elem inner => [len, inner, elem]
  | .arrow arg => [arg]

/-- The types that a lift puts into an update. -/
def liftUpdateTypes : Lift → List Ty
  | .seq len elem inner => [len, elem, inner]
  | .arrow arg => [arg]

/-- The types that a part of a term contributes to the resolved term, before they get their final
forms: its own, and for a pending selection or update those of its route. -/
def partTypes (r : Resolver) : Part → List Ty
  | .type t => [t]
  | .node (.pendingSelect goal _) => (r.routeOf goal).lifts.flatMap liftSelectTypes
  | .node (.pendingUpdate goal _ _) =>
    (r.routeOf goal).record :: (r.routeOf goal).lifts.flatMap liftUpdateTypes
  | .node _ => []

/-- One of the parts contributes a type with the property `P` in its final form. -/
def AnyFinal (r : Resolver) (P : Ty → Prop) (ps : List Part) : Prop :=
  ∃ p ∈ ps, ∃ t ∈ r.partTypes p, P (r.zonk t)

variable {r : Resolver} {P : Ty → Prop}

@[simp] theorem anyFinal_nil : r.AnyFinal P [] ↔ False := by simp [AnyFinal]

@[simp] theorem anyFinal_cons {p : Part} {ps : List Part} :
    r.AnyFinal P (p :: ps) ↔ (∃ t ∈ r.partTypes p, P (r.zonk t)) ∨ r.AnyFinal P ps := by
  simp [AnyFinal]

@[simp] theorem anyFinal_append {ps qs : List Part} :
    r.AnyFinal P (ps ++ qs) ↔ r.AnyFinal P ps ∨ r.AnyFinal P qs := by
  simp [AnyFinal, or_and_right, exists_or]

theorem anyType_selectAlong {zonk : Ty → Ty} {sel : Selector} {lifts : List Lift} {e : Term}
    {supply : Supply} : AnyType P (selectAlong zonk sel lifts e supply).1.parts ↔
      AnyType P e.parts ∨ ∃ t ∈ lifts.flatMap liftSelectTypes, P (zonk t) := by
  induction lifts generalizing e supply with
  | nil =>
    have heq : (selectAlong zonk sel [] e supply).1 = .select e sel := rfl
    simp [heq, Term.parts]
  | cons l lifts ih =>
    cases l with
    | seq len elem inner =>
      let x := supply.fresh "x"
      have heq : (selectAlong zonk sel (.seq len elem inner :: lifts) e supply).1 =
          .comp (zonk len) (zonk inner) (selectAlong zonk sel lifts (.var x.1) x.2).1
            [[.draw x.1 (zonk len) (zonk elem) e]] := rfl
      simp only [heq, Term.parts, partsArms, partsMatches, ih, liftSelectTypes, List.flatMap_cons,
        List.mem_append, anyType_node, anyType_append, anyType_type, anyType_nil, List.mem_cons,
        List.not_mem_nil, or_false, or_and_right, exists_or, exists_eq_left, false_or]
      grind
    | arrow arg =>
      let x := supply.fresh "x"
      have heq : (selectAlong zonk sel (.arrow arg :: lifts) e supply).1 =
          .abs x.1 (zonk arg) (selectAlong zonk sel lifts (.app e (.var x.1)) x.2).1 := rfl
      simp only [heq, Term.parts, ih, liftSelectTypes, List.flatMap_cons, List.mem_append,
        anyType_node, anyType_append, anyType_type, anyType_nil, List.mem_cons,
        List.not_mem_nil, or_false, or_and_right, exists_or, exists_eq_left]
      grind

theorem anyType_updateAlong {zonk : Ty → Ty} {sel : Selector} {record : Ty} {lifts : List Lift}
    {e v : Term} {supply : Supply} :
    AnyType P (updateAlong zonk sel record lifts e v supply).1.parts ↔
      (AnyType P e.parts ∨ AnyType P v.parts) ∨
        P (zonk record) ∨ ∃ t ∈ lifts.flatMap liftUpdateTypes, P (zonk t) := by
  induction lifts generalizing e v supply with
  | nil =>
    have heq : (updateAlong zonk sel record [] e v supply).1 = .update (zonk record) e sel v := rfl
    simp only [heq, Term.parts, anyType_node, anyType_type, anyType_append, List.flatMap_nil,
      List.not_mem_nil, false_and, exists_false, or_false]
    grind
  | cons l lifts ih =>
    cases l with
    | seq len elem inner =>
      let x := supply.fresh "x"
      let y := x.2.fresh "y"
      have heq : (updateAlong zonk sel record (.seq len elem inner :: lifts) e v supply).1 =
          .comp (zonk len) (zonk elem)
            (updateAlong zonk sel record lifts (.var x.1) (.var y.1) y.2).1
            [[.draw x.1 (zonk len) (zonk elem) e], [.draw y.1 (zonk len) (zonk inner) v]] := rfl
      simp only [heq, Term.parts, partsArms, partsMatches, ih, liftUpdateTypes, List.flatMap_cons,
        List.mem_append, anyType_node, anyType_append, anyType_type, anyType_nil, List.mem_cons,
        List.not_mem_nil, or_false, or_and_right, exists_or, exists_eq_left, false_or]
      grind
    | arrow arg =>
      let x := supply.fresh "x"
      have heq : (updateAlong zonk sel record (.arrow arg :: lifts) e v supply).1 =
          .abs x.1 (zonk arg)
            (updateAlong zonk sel record lifts (.app e (.var x.1)) (.app v (.var x.1)) x.2).1 := rfl
      simp only [heq, Term.parts, ih, liftUpdateTypes, List.flatMap_cons, List.mem_append,
        anyType_node, anyType_append, anyType_type, anyType_nil, List.mem_cons,
        List.not_mem_nil, or_false, or_and_right, exists_or, exists_eq_left]
      grind

@[simp] theorem partTypes_type {t : Ty} : r.partTypes (.type t) = [t] := rfl

@[simp] theorem anyFinal_schemaParts {sc : Schema} :
    r.AnyFinal P (schemaParts sc) ↔ P (r.zonk sc.body) ∨ ∃ p ∈ sc.props, P (r.zonk p) := by
  have hprops : r.AnyFinal P (sc.props.map .type) ↔ ∃ p ∈ sc.props, P (r.zonk p) := by
    simp [AnyFinal]
  rw [schemaParts, anyFinal_append, hprops]
  simp [or_comm]

mutual
/-- The types of a resolved term are the final forms of what its parts contribute. -/
theorem anyType_term : ∀ (e : Term) (supply : Supply),
    AnyType P (r.term e supply).1.parts ↔ r.AnyFinal P e.parts
  | .var n, supply => by
    simp [show (r.term (.var n) supply).1 = .var n from rfl, Term.parts, partTypes]
  | .groupVar n token, supply => by
    simp [show (r.term (.groupVar n token) supply).1 = .groupVar n token from rfl, Term.parts,
      partTypes]
  | .typeApp e t, supply => by
    have heq : (r.term (.typeApp e t) supply).1 = .typeApp (r.term e supply).1 (r.zonk t) := rfl
    simp [heq, Term.parts, partTypes, anyType_term e]
  | .proofApp e, supply => by
    have heq : (r.term (.proofApp e) supply).1 = .proofApp (r.term e supply).1 := rfl
    simp [heq, Term.parts, partTypes, anyType_term e]
  | .app fn arg, supply => by
    have heq : (r.term (.app fn arg) supply).1 =
      .app (r.term fn supply).1 (r.term arg (r.term fn supply).2).1 := rfl
    simp [heq, Term.parts, partTypes, anyType_term fn, anyType_term arg]
  | .abs n t body, supply => by
    have heq : (r.term (.abs n t body) supply).1 = .abs n (r.zonk t) (r.term body supply).1 := rfl
    simp [heq, Term.parts, partTypes, anyType_term body]
  | .typeAbs p body, supply => by
    have heq : (r.term (.typeAbs p body) supply).1 = .typeAbs p (r.term body supply).1 := rfl
    simp [heq, Term.parts, partTypes, anyType_term body]
  | .proofAbs prop body, supply => by
    have heq : (r.term (.proofAbs prop body) supply).1 =
      .proofAbs (r.zonk prop) (r.term body supply).1 := rfl
    simp [heq, Term.parts, partTypes, anyType_term body]
  | .tuple es, supply => by
    have heq : (r.term (.tuple es) supply).1 = .tuple (r.terms es supply).1 := rfl
    simp [heq, Term.parts, partTypes, anyType_terms es]
  | .record fs, supply => by
    have heq : (r.term (.record fs) supply).1 = .record (r.fields fs supply).1 := rfl
    simp [heq, Term.parts, partTypes, anyType_fields fs]
  | .select e sel, supply => by
    have heq : (r.term (.select e sel) supply).1 = .select (r.term e supply).1 sel := rfl
    simp [heq, Term.parts, partTypes, anyType_term e]
  | .update t e sel v, supply => by
    have heq : (r.term (.update t e sel v) supply).1 =
      .update (r.zonk t) (r.term e supply).1 sel (r.term v (r.term e supply).2).1 := rfl
    simp [heq, Term.parts, partTypes, anyType_term e, anyType_term v]
  | .list es t, supply => by
    have heq : (r.term (.list es t) supply).1 = .list (r.terms es supply).1 (r.zonk t) := rfl
    simp [heq, Term.parts, partTypes, anyType_terms es]
  | .comp len elem result arms, supply => by
    have heq : (r.term (.comp len elem result arms) supply).1 =
      .comp (r.zonk len) (r.zonk elem) (r.term result (r.arms arms supply).2).1
        (r.arms arms supply).1 := rfl
    simp [heq, Term.parts, partTypes, anyType_term result, anyType_arms arms]
  | .ifThenElse c t e, supply => by
    have heq : (r.term (.ifThenElse c t e) supply).1 =
      .ifThenElse (r.term c supply).1 (r.term t (r.term c supply).2).1
        (r.term e (r.term t (r.term c supply).2).2).1 := rfl
    simp [heq, Term.parts, partTypes, anyType_term c, anyType_term t, anyType_term e]
  | .block e gs, supply => by
    have heq : (r.term (.block e gs) supply).1 =
      .block (r.term e supply).1 (r.groups gs (r.term e supply).2).1 := rfl
    simp [heq, Term.parts, partTypes, anyType_term e, anyType_groups gs]
  | .located range e, supply => by
    have heq : (r.term (.located range e) supply).1 = .located range (r.term e supply).1 := rfl
    simp [heq, Term.parts, partTypes, anyType_term e]
  | .pendingSelect goal e, supply => by
    have heq : (r.term (.pendingSelect goal e) supply).1 =
      (r.select goal (r.term e supply).1 (r.term e supply).2).1 := rfl
    rw [heq, select, anyType_selectAlong, anyType_term e, Term.parts, anyFinal_cons, or_comm]
    rfl
  | .pendingUpdate goal e v, supply => by
    have heq : (r.term (.pendingUpdate goal e v) supply).1 =
      (r.update goal (r.term e supply).1 (r.term v (r.term e supply).2).1
        (r.term v (r.term e supply).2).2).1 := rfl
    rw [heq, update, anyType_updateAlong, anyType_term e, anyType_term v, Term.parts,
      anyFinal_cons, anyFinal_append, or_comm]
    simp [partTypes]

theorem anyType_terms : ∀ (es : List Term) (supply : Supply),
    AnyType P (partsList (r.terms es supply).1) ↔ r.AnyFinal P (partsList es)
  | [], supply => by simp [show (r.terms [] supply).1 = [] from rfl, partsList]
  | e :: es, supply => by
    have heq : (r.terms (e :: es) supply).1 =
      (r.term e supply).1 :: (r.terms es (r.term e supply).2).1 := rfl
    simp [heq, partsList, anyType_term e, anyType_terms es]

theorem anyType_fields : ∀ (fs : List (String × Term)) (supply : Supply),
    AnyType P (partsFields (r.fields fs supply).1) ↔ r.AnyFinal P (partsFields fs)
  | [], supply => by simp [show (r.fields [] supply).1 = [] from rfl, partsFields]
  | (l, e) :: fs, supply => by
    have heq : (r.fields ((l, e) :: fs) supply).1 =
      (l, (r.term e supply).1) :: (r.fields fs (r.term e supply).2).1 := rfl
    simp [heq, partsFields, anyType_term e, anyType_fields fs]

theorem anyType_arms : ∀ (arms : List (List Match)) (supply : Supply),
    AnyType P (partsArms (r.arms arms supply).1) ↔ r.AnyFinal P (partsArms arms)
  | [], supply => by simp [show (r.arms [] supply).1 = [] from rfl, partsArms]
  | arm :: arms, supply => by
    have heq : (r.arms (arm :: arms) supply).1 =
      (r.quals arm supply).1 :: (r.arms arms (r.quals arm supply).2).1 := rfl
    simp [heq, partsArms, anyType_quals arm, anyType_arms arms]

theorem anyType_quals : ∀ (ms : List Match) (supply : Supply),
    AnyType P (partsMatches (r.quals ms supply).1) ↔ r.AnyFinal P (partsMatches ms)
  | [], supply => by simp [show (r.quals [] supply).1 = [] from rfl, partsMatches]
  | .draw n len t e :: ms, supply => by
    have heq : (r.quals (.draw n len t e :: ms) supply).1 =
      .draw n (r.zonk len) (r.zonk t) (r.term e supply).1
        :: (r.quals ms (r.term e supply).2).1 := rfl
    simp [heq, partsMatches, anyType_term e, anyType_quals ms]
  | .define d :: ms, supply => by
    have heq : (r.quals (.define d :: ms) supply).1 =
      .define (r.decl d supply).1 :: (r.quals ms (r.decl d supply).2).1 := rfl
    simp [heq, partsMatches, anyType_decl d, anyType_quals ms]

theorem anyType_decl : ∀ (d : Decl) (supply : Supply),
    AnyType P (r.decl d supply).1.parts ↔ r.AnyFinal P d.parts
  | .mk n sc (some e) prim range, supply => by
    have heq : (r.decl (.mk n sc (some e) prim range) supply).1 =
      .mk n (sc.mapTypes r.zonk) (some (r.term e supply).1) prim range := rfl
    simp [heq, Decl.parts, Schema.mapTypes, anyType_term e]
  | .mk n sc none prim range, supply => by
    have heq : (r.decl (.mk n sc none prim range) supply).1 =
      .mk n (sc.mapTypes r.zonk) none prim range := rfl
    simp [heq, Decl.parts, Schema.mapTypes]

theorem anyType_decls : ∀ (ds : List Decl) (supply : Supply),
    AnyType P (partsDecls (r.decls ds supply).1) ↔ r.AnyFinal P (partsDecls ds)
  | [], supply => by simp [show (r.decls [] supply).1 = [] from rfl, partsDecls]
  | d :: ds, supply => by
    have heq : (r.decls (d :: ds) supply).1 =
      (r.decl d supply).1 :: (r.decls ds (r.decl d supply).2).1 := rfl
    simp [heq, partsDecls, anyType_decl d, anyType_decls ds]

theorem anyType_groups : ∀ (gs : List Group) (supply : Supply),
    AnyType P (partsGroups (r.groups gs supply).1) ↔ r.AnyFinal P (partsGroups gs)
  | [], supply => by simp [show (r.groups [] supply).1 = [] from rfl, partsGroups]
  | .mk recursive ds :: gs, supply => by
    have heq : (r.groups (.mk recursive ds :: gs) supply).1 =
      .mk recursive (r.decls ds supply).1 :: (r.groups gs (r.decls ds supply).2).1 := rfl
    simp [heq, partsGroups, anyType_decls ds, anyType_groups gs]
end

end Resolver
end SizedTypes
