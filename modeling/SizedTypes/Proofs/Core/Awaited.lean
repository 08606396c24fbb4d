import SizedTypes.Core.Visit
import SizedTypes.Infer.Resolve

/-!
# The selector goals that a term waits for

A selection or an update is pending until its selector goal is solved. Substitution, abstraction and
instantiation keep the goals that a term waits for; a resolved term waits for none.
-/

set_option autoImplicit false

namespace SizedTypes

open SizedTypes.Core

namespace Core

/-- The selector goal that a part waits for. -/
def Part.goal? : Part → Option Int
  | .node (.pendingSelect goal _) => some goal
  | .node (.pendingUpdate goal _ _) => some goal
  | _ => none

/-- The selector goals that parts wait for, in order. -/
def awaited (ps : List Part) : List Int := ps.filterMap Part.goal?

@[simp] theorem awaited_nil : awaited [] = [] := rfl

@[simp] theorem awaited_cons {p : Part} {ps : List Part} :
    awaited (p :: ps) = p.goal?.toList ++ awaited ps := by
  unfold awaited
  cases h : p.goal? <;> simp [h]

@[simp] theorem awaited_append {ps qs : List Part} :
    awaited (ps ++ qs) = awaited ps ++ awaited qs := List.filterMap_append

@[simp] theorem goal?_type {t : Ty} : (Part.type t).goal? = none := rfl

@[simp] theorem awaited_schemaParts {sc : Schema} : awaited (schemaParts sc) = [] := by
  have hprops : awaited (sc.props.map .type) = [] := by
    induction sc.props with
    | nil => rfl
    | cons p ps ih => simp [ih]
  simp [schemaParts, hprops]

/-- The goals of definitions one after the other. -/
theorem awaited_partsDecls (ds : List Decl) :
    awaited (partsDecls ds) = ds.flatMap fun d => awaited d.parts := by
  induction ds with
  | nil => rfl
  | cons d ds ih => simp [partsDecls, ih]

/-- The goals of groups one after the other. -/
theorem awaited_partsGroups (gs : List Group) :
    awaited (partsGroups gs) = gs.flatMap fun g => awaited (partsDecls g.decls) := by
  induction gs with
  | nil => rfl
  | cons g gs ih =>
    obtain ⟨recursive, ds⟩ := g
    simp [partsGroups, Group.decls, ih]

@[simp] theorem awaited_singles (ds : List Decl) :
    awaited (partsGroups (Group.singles ds)) = awaited (partsDecls ds) := by
  simp [awaited_partsGroups, awaited_partsDecls, Group.singles, Group.decls, List.flatMap_map]

/-! ## Substitution -/

theorem Term.awaited_instantiated (e : Term) (args : List Ty) (proofs : Nat) :
    awaited (e.instantiated args proofs).parts = awaited e.parts := by
  have happly : awaited (args.foldl Term.typeApp e).parts = awaited e.parts := by
    induction args generalizing e with
    | nil => rfl
    | cons t ts ih =>
      rw [List.foldl_cons, ih]
      simp [Term.parts, Part.goal?]
  unfold Term.instantiated
  rw [← happly]
  generalize args.foldl Term.typeApp e = e
  induction proofs generalizing e with
  | zero => rfl
  | succ n ih =>
    rw [List.replicate_succ, List.foldl_cons, ih]
    simp [Term.parts, Part.goal?]

theorem Term.awaited_generalized (e : Term) (params : List Param) (props : List Ty) :
    awaited (e.generalized params props).parts = awaited e.parts := by
  unfold Term.generalized
  induction params with
  | nil =>
    induction props with
    | nil => rfl
    | cons p ps ih => simpa [Term.parts, Part.goal?] using ih
  | cons p ps ih => simpa [Term.parts, Part.goal?] using ih

section Substitute

set_option linter.unusedSectionVars false

variable {f : Ty → Ty} {g : Name → Int → Option Term}
  (hg : ∀ n token e, g n token = some e → awaited e.parts = [])

include hg

mutual
/-- Substitution keeps the goals that a term waits for, unless it puts in terms that wait. -/
theorem Term.awaited_substitute : ∀ e : Term, awaited (e.substitute f g).parts = awaited e.parts
  | .var n => by simp [Term.substitute, Term.parts]
  | .groupVar n token => by
    rw [Term.substitute]
    cases h : g n token with
    | none => simp [Term.parts]
    | some e => simp [Term.parts, Part.goal?, hg n token e h]
  | .typeApp e t => by simp [Term.substitute, Term.parts, Part.goal?, e.awaited_substitute]
  | .proofApp e => by simp [Term.substitute, Term.parts, Part.goal?, e.awaited_substitute]
  | .app fn arg => by
    simp [Term.substitute, Term.parts, Part.goal?, fn.awaited_substitute, arg.awaited_substitute]
  | .abs n t body => by simp [Term.substitute, Term.parts, Part.goal?, body.awaited_substitute]
  | .typeAbs p body => by simp [Term.substitute, Term.parts, Part.goal?, body.awaited_substitute]
  | .proofAbs prop body => by
    simp [Term.substitute, Term.parts, Part.goal?, body.awaited_substitute]
  | .tuple es => by simp [Term.substitute, Term.parts, Part.goal?, awaited_substituteList es]
  | .record fs => by simp [Term.substitute, Term.parts, Part.goal?, awaited_substituteFields fs]
  | .select e sel => by simp [Term.substitute, Term.parts, Part.goal?, e.awaited_substitute]
  | .update t e sel v => by
    simp [Term.substitute, Term.parts, Part.goal?, e.awaited_substitute, v.awaited_substitute]
  | .list es t => by simp [Term.substitute, Term.parts, Part.goal?, awaited_substituteList es]
  | .comp len elem result arms => by
    simp [Term.substitute, Term.parts, Part.goal?, result.awaited_substitute,
      awaited_substituteArms arms]
  | .ifThenElse c t e => by
    simp [Term.substitute, Term.parts, Part.goal?, c.awaited_substitute, t.awaited_substitute,
      e.awaited_substitute]
  | .block e gs => by
    simp [Term.substitute, Term.parts, Part.goal?, e.awaited_substitute,
      awaited_substituteGroups gs]
  | .located r e => by simp [Term.substitute, Term.parts, Part.goal?, e.awaited_substitute]
  | .pendingSelect goal e => by
    simp [Term.substitute, Term.parts, Part.goal?, e.awaited_substitute]
  | .pendingUpdate goal e v => by
    simp [Term.substitute, Term.parts, Part.goal?, e.awaited_substitute, v.awaited_substitute]

theorem awaited_substituteList :
    ∀ es : List Term, awaited (partsList (substituteList f g es)) = awaited (partsList es)
  | [] => by simp [substituteList, partsList]
  | e :: es => by
    simp [substituteList, partsList, e.awaited_substitute, awaited_substituteList es]

theorem awaited_substituteFields : ∀ fs : List (String × Term),
    awaited (partsFields (substituteFields f g fs)) = awaited (partsFields fs)
  | [] => by simp [substituteFields, partsFields]
  | (l, e) :: fs => by
    simp [substituteFields, partsFields, e.awaited_substitute, awaited_substituteFields fs]

theorem awaited_substituteArms : ∀ arms : List (List Match),
    awaited (partsArms (substituteArms f g arms)) = awaited (partsArms arms)
  | [] => by simp [substituteArms, partsArms]
  | arm :: arms => by
    simp [substituteArms, partsArms, awaited_substituteMatches arm, awaited_substituteArms arms]

theorem awaited_substituteMatches : ∀ ms : List Match,
    awaited (partsMatches (substituteMatches f g ms)) = awaited (partsMatches ms)
  | [] => by simp [substituteMatches, partsMatches]
  | .draw n len t e :: ms => by
    simp [substituteMatches, partsMatches, e.awaited_substitute, awaited_substituteMatches ms]
  | .define d :: ms => by
    simp [substituteMatches, partsMatches, d.awaited_substitute, awaited_substituteMatches ms]

theorem Decl.awaited_substitute : ∀ d : Decl, awaited (d.substitute f g).parts = awaited d.parts
  | .mk n sc (some e) prim r => by simp [Decl.substitute, Decl.parts, e.awaited_substitute]
  | .mk n sc none prim r => by simp [Decl.substitute, Decl.parts]

theorem awaited_substituteDecls : ∀ ds : List Decl,
    awaited (partsDecls (substituteDecls f g ds)) = awaited (partsDecls ds)
  | [] => by simp [substituteDecls, partsDecls]
  | d :: ds => by
    simp [substituteDecls, partsDecls, d.awaited_substitute, awaited_substituteDecls ds]

theorem awaited_substituteGroups : ∀ gs : List Group,
    awaited (partsGroups (substituteGroups f g gs)) = awaited (partsGroups gs)
  | [] => by simp [substituteGroups, partsGroups]
  | .mk r ds :: gs => by
    simp [substituteGroups, partsGroups, awaited_substituteDecls ds, awaited_substituteGroups gs]
end

end Substitute

end Core

/-! ## Resolution -/

namespace Resolver

variable {r : Resolver} {zonk : Ty → Ty}

theorem awaited_selectAlong {sel : Selector} {lifts : List Lift} {e : Term} {supply : Supply} :
    awaited (selectAlong zonk sel lifts e supply).1.parts = awaited e.parts := by
  induction lifts generalizing e supply with
  | nil =>
    have heq : (selectAlong zonk sel [] e supply).1 = .select e sel := rfl
    simp [heq, Term.parts, Part.goal?]
  | cons l lifts ih =>
    let x := supply.fresh "x"
    cases l with
    | seq len elem inner =>
      have heq : (selectAlong zonk sel (.seq len elem inner :: lifts) e supply).1 =
          .comp (zonk len) (zonk inner) (selectAlong zonk sel lifts (.var x.1) x.2).1
            [[.draw x.1 (zonk len) (zonk elem) e]] := rfl
      simp [heq, Term.parts, partsArms, partsMatches, Part.goal?, ih]
    | arrow arg =>
      have heq : (selectAlong zonk sel (.arrow arg :: lifts) e supply).1 =
          .abs x.1 (zonk arg) (selectAlong zonk sel lifts (.app e (.var x.1)) x.2).1 := rfl
      simp [heq, Term.parts, Part.goal?, ih]

theorem awaited_updateAlong {sel : Selector} {record : Ty} {lifts : List Lift} {e v : Term}
    {supply : Supply} : awaited (updateAlong zonk sel record lifts e v supply).1.parts =
      awaited e.parts ++ awaited v.parts := by
  induction lifts generalizing e v supply with
  | nil =>
    have heq : (updateAlong zonk sel record [] e v supply).1 = .update (zonk record) e sel v := rfl
    simp [heq, Term.parts, Part.goal?]
  | cons l lifts ih =>
    let x := supply.fresh "x"
    cases l with
    | seq len elem inner =>
      let y := x.2.fresh "y"
      have heq : (updateAlong zonk sel record (.seq len elem inner :: lifts) e v supply).1 =
          .comp (zonk len) (zonk elem)
            (updateAlong zonk sel record lifts (.var x.1) (.var y.1) y.2).1
            [[.draw x.1 (zonk len) (zonk elem) e], [.draw y.1 (zonk len) (zonk inner) v]] := rfl
      simp [heq, Term.parts, partsArms, partsMatches, Part.goal?, ih]
    | arrow arg =>
      have heq : (updateAlong zonk sel record (.arrow arg :: lifts) e v supply).1 =
          .abs x.1 (zonk arg)
            (updateAlong zonk sel record lifts (.app e (.var x.1)) (.app v (.var x.1)) x.2).1 := rfl
      simp [heq, Term.parts, Part.goal?, ih]

mutual
/-- A resolved term waits for no selector goal. -/
theorem awaited_term : ∀ (e : Term) (supply : Supply), awaited (r.term e supply).1.parts = []
  | .var n, supply => rfl
  | .groupVar n token, supply => rfl
  | .typeApp e t, supply => by
    have heq : (r.term (.typeApp e t) supply).1 = .typeApp (r.term e supply).1 (r.zonk t) := rfl
    simp [heq, Term.parts, Part.goal?, awaited_term e]
  | .proofApp e, supply => by
    have heq : (r.term (.proofApp e) supply).1 = .proofApp (r.term e supply).1 := rfl
    simp [heq, Term.parts, Part.goal?, awaited_term e]
  | .app fn arg, supply => by
    have heq : (r.term (.app fn arg) supply).1 =
      .app (r.term fn supply).1 (r.term arg (r.term fn supply).2).1 := rfl
    simp [heq, Term.parts, Part.goal?, awaited_term fn, awaited_term arg]
  | .abs n t body, supply => by
    have heq : (r.term (.abs n t body) supply).1 = .abs n (r.zonk t) (r.term body supply).1 := rfl
    simp [heq, Term.parts, Part.goal?, awaited_term body]
  | .typeAbs p body, supply => by
    have heq : (r.term (.typeAbs p body) supply).1 = .typeAbs p (r.term body supply).1 := rfl
    simp [heq, Term.parts, Part.goal?, awaited_term body]
  | .proofAbs prop body, supply => by
    have heq : (r.term (.proofAbs prop body) supply).1 =
      .proofAbs (r.zonk prop) (r.term body supply).1 := rfl
    simp [heq, Term.parts, Part.goal?, awaited_term body]
  | .tuple es, supply => by
    have heq : (r.term (.tuple es) supply).1 = .tuple (r.terms es supply).1 := rfl
    simp [heq, Term.parts, Part.goal?, awaited_terms es]
  | .record fs, supply => by
    have heq : (r.term (.record fs) supply).1 = .record (r.fields fs supply).1 := rfl
    simp [heq, Term.parts, Part.goal?, awaited_fields fs]
  | .select e sel, supply => by
    have heq : (r.term (.select e sel) supply).1 = .select (r.term e supply).1 sel := rfl
    simp [heq, Term.parts, Part.goal?, awaited_term e]
  | .update t e sel v, supply => by
    have heq : (r.term (.update t e sel v) supply).1 =
      .update (r.zonk t) (r.term e supply).1 sel (r.term v (r.term e supply).2).1 := rfl
    simp [heq, Term.parts, Part.goal?, awaited_term e, awaited_term v]
  | .list es t, supply => by
    have heq : (r.term (.list es t) supply).1 = .list (r.terms es supply).1 (r.zonk t) := rfl
    simp [heq, Term.parts, Part.goal?, awaited_terms es]
  | .comp len elem result arms, supply => by
    have heq : (r.term (.comp len elem result arms) supply).1 =
      .comp (r.zonk len) (r.zonk elem) (r.term result (r.arms arms supply).2).1
        (r.arms arms supply).1 := rfl
    simp [heq, Term.parts, Part.goal?, awaited_term result, awaited_arms arms]
  | .ifThenElse c t e, supply => by
    have heq : (r.term (.ifThenElse c t e) supply).1 =
      .ifThenElse (r.term c supply).1 (r.term t (r.term c supply).2).1
        (r.term e (r.term t (r.term c supply).2).2).1 := rfl
    simp [heq, Term.parts, Part.goal?, awaited_term c, awaited_term t, awaited_term e]
  | .block e gs, supply => by
    have heq : (r.term (.block e gs) supply).1 =
      .block (r.term e supply).1 (r.groups gs (r.term e supply).2).1 := rfl
    simp [heq, Term.parts, Part.goal?, awaited_term e, awaited_groups gs]
  | .located range e, supply => by
    have heq : (r.term (.located range e) supply).1 = .located range (r.term e supply).1 := rfl
    simp [heq, Term.parts, Part.goal?, awaited_term e]
  | .pendingSelect goal e, supply => by
    have heq : (r.term (.pendingSelect goal e) supply).1 =
      (r.select goal (r.term e supply).1 (r.term e supply).2).1 := rfl
    rw [heq, select, awaited_selectAlong, awaited_term e]
  | .pendingUpdate goal e v, supply => by
    have heq : (r.term (.pendingUpdate goal e v) supply).1 =
      (r.update goal (r.term e supply).1 (r.term v (r.term e supply).2).1
        (r.term v (r.term e supply).2).2).1 := rfl
    rw [heq, update, awaited_updateAlong, awaited_term e, awaited_term v, List.append_nil]

theorem awaited_terms : ∀ (es : List Term) (supply : Supply),
    awaited (partsList (r.terms es supply).1) = []
  | [], supply => rfl
  | e :: es, supply => by
    have heq : (r.terms (e :: es) supply).1 =
      (r.term e supply).1 :: (r.terms es (r.term e supply).2).1 := rfl
    simp [heq, partsList, awaited_term e, awaited_terms es]

theorem awaited_fields : ∀ (fs : List (String × Term)) (supply : Supply),
    awaited (partsFields (r.fields fs supply).1) = []
  | [], supply => rfl
  | (l, e) :: fs, supply => by
    have heq : (r.fields ((l, e) :: fs) supply).1 =
      (l, (r.term e supply).1) :: (r.fields fs (r.term e supply).2).1 := rfl
    simp [heq, partsFields, awaited_term e, awaited_fields fs]

theorem awaited_arms : ∀ (arms : List (List Match)) (supply : Supply),
    awaited (partsArms (r.arms arms supply).1) = []
  | [], supply => rfl
  | arm :: arms, supply => by
    have heq : (r.arms (arm :: arms) supply).1 =
      (r.quals arm supply).1 :: (r.arms arms (r.quals arm supply).2).1 := rfl
    simp [heq, partsArms, awaited_quals arm, awaited_arms arms]

theorem awaited_quals : ∀ (ms : List Match) (supply : Supply),
    awaited (partsMatches (r.quals ms supply).1) = []
  | [], supply => rfl
  | .draw n len t e :: ms, supply => by
    have heq : (r.quals (.draw n len t e :: ms) supply).1 =
      .draw n (r.zonk len) (r.zonk t) (r.term e supply).1
        :: (r.quals ms (r.term e supply).2).1 := rfl
    simp [heq, partsMatches, awaited_term e, awaited_quals ms]
  | .define d :: ms, supply => by
    have heq : (r.quals (.define d :: ms) supply).1 =
      .define (r.decl d supply).1 :: (r.quals ms (r.decl d supply).2).1 := rfl
    simp [heq, partsMatches, awaited_decl d, awaited_quals ms]

theorem awaited_decl : ∀ (d : Decl) (supply : Supply), awaited (r.decl d supply).1.parts = []
  | .mk n sc (some e) prim range, supply => by
    have heq : (r.decl (.mk n sc (some e) prim range) supply).1 =
      .mk n (sc.mapTypes r.zonk) (some (r.term e supply).1) prim range := rfl
    simp [heq, Decl.parts, awaited_term e]
  | .mk n sc none prim range, supply => by
    have heq : (r.decl (.mk n sc none prim range) supply).1 =
      .mk n (sc.mapTypes r.zonk) none prim range := rfl
    simp [heq, Decl.parts]

theorem awaited_decls : ∀ (ds : List Decl) (supply : Supply),
    awaited (partsDecls (r.decls ds supply).1) = []
  | [], supply => rfl
  | d :: ds, supply => by
    have heq : (r.decls (d :: ds) supply).1 =
      (r.decl d supply).1 :: (r.decls ds (r.decl d supply).2).1 := rfl
    simp [heq, partsDecls, awaited_decl d, awaited_decls ds]

theorem awaited_groups : ∀ (gs : List Group) (supply : Supply),
    awaited (partsGroups (r.groups gs supply).1) = []
  | [], supply => rfl
  | .mk recursive ds :: gs, supply => by
    have heq : (r.groups (.mk recursive ds :: gs) supply).1 =
      .mk recursive (r.decls ds supply).1 :: (r.groups gs (r.decls ds supply).2).1 := rfl
    simp [heq, partsGroups, awaited_decls ds, awaited_groups gs]
end

end Resolver
end SizedTypes
