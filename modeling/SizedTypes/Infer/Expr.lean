import SizedTypes.Infer.Bindings
import SizedTypes.Infer.Literals
import SizedTypes.Infer.TypeDecls

/-!
# Expressions and declarations

Checking an expression against an expected type elaborates it into a term. Local declarations
make this one recursion over the whole surface language.
-/

set_option autoImplicit false

namespace SizedTypes.Infer

open Surface (Bind Expr Match UpdateHow)
open SizedTypes.Core (Decl Group Term)

/-! ## Applications -/

/-- The argument slots of an application. The types of all arguments are made before the head is
checked, so that its type informs the arguments. `slots` are those of an application under way,
the last first; without them an application of `k + 1` arguments starts. The results are what
the head must be, the last slot and the others. -/
def openSpine (k : Nat) (exp : Expected) (slots : List (Ty × Nat)) :
    Infer (Expected × (Ty × Nat) × List (Ty × Nat)) := do
  match slots with
  | slot :: rest => return (exp, slot, rest)
  | [] =>
    let init ← (List.range k).mapM fun (i : Nat) => freshType .type (.argument i)
    let last ← freshType .type (.argument k)
    return (⟨.arrows (init ++ [last]) exp.type, .call⟩, (last, k), init.zipIdx.reverse)

/-! ## Selections and updates -/

/-- Where the type of a selected record comes from. -/
def selectSource : Selector → TypeSource
  | .field l => .recordField l
  | .component i => .tupleField i
  | .element _ => .seqElement

/-- One update of the record that `out` elaborates. -/
def checkUpdate (path : List Selector) (how : UpdateHow) (exp : Expected) (out : Term)
    (value : Checker) : Infer Term := do
  match path with
  | [sel] =>
    let src : TypeSource := .recordField sel.text
    let t ← freshType .type src
    let goal ← newSelectorGoal sel exp.type t
    match how with
    | .set => return .pendingUpdate goal out (← value ⟨t, src⟩)
    | .modify =>
      let f ← value ⟨.arrow t t, src⟩
      let x ← freshName "upd"
      let d ← monoDecl x exp.type out
      return .block
        (.pendingUpdate goal (.var x) (.app f (.pendingSelect goal (.var x)))) (Group.singles [d])
  | _ => throw .updatePath

/-! ## Comprehensions -/

/-- One arm of a comprehension. -/
structure Arm where
  quals : List Core.Match := []
  /-- The product of the lengths of the generators. -/
  len : Option Ty := none
  vars : List (Name × Ty) := []
deriving Inhabited

/-- Add a generator. Its variables are in scope for the qualifiers after it. -/
def Arm.draw (arm : Arm) (n elem : Ty) (e : Term) (m : Matched) : Infer Arm := do
  m.vars.forM fun v => declareMono v.1 v.2
  return {
    quals := arm.quals ++ .draw m.name n elem e :: m.decls.map .define
    len := match arm.len with
      | none => some n
      | some len => some (.op .mul [len, n])
    vars := arm.vars ++ m.vars }

/-- Add a definition. -/
def Arm.define (arm : Arm) (d : Decl) : Infer Arm := do
  declare d.name (.known d.schema)
  return { arm with
    quals := arm.quals ++ [.define d]
    vars := arm.vars ++ [(d.name, d.schema.body)] }

/-- Report the variables of an arm that are bound already. The result is all that are bound. -/
def checkRepeated : List Int → List (Name × Ty) → Infer (List Int)
  | seen, [] => return seen
  | seen, v :: vs => do
    if seen.contains v.1.id then recordError (.repeatedDefinition v.1)
    checkRepeated (v.1.id :: seen) vs

/-- The length of a comprehension: that of its shortest arm. -/
def compLength (arms : List Arm) : Ty :=
  match arms.map fun arm => arm.len.getD (.num 1) with
  | [] => .num 1
  | len :: lens => lens.foldl (fun total len => .op .min [total, len]) len

/-! ## The recursion -/

mutual
/-- Check an expression against an expected type. `slots` is empty unless the expression is the
function of an application under way. -/
def checkExpr : Expr → Expected → List (Ty × Nat) → Infer Term
  | .located r e, exp, _ => withRange r do
    let out ← checkExpr e exp []
    return if (← read).options.callStacks then .located r out else out
  | .var n, exp, _ => checkVar n [] exp
  | .typeApp f args, exp, _ =>
    match f.unlocated with
    | .var n => checkVar n args exp
    | f => throw (.typeAppOfNonVariable f.form)
  | .num value base digits, exp, _ => checkNum value base digits exp
  | .frac num den, exp, _ => checkFrac num den exp
  | .char code, exp, _ => checkChar code exp
  | .string s, exp, _ => checkString s exp
  | .typeValue t, exp, _ => do
    let t ← checkType t .num
    checkNumber t exp.type exp
  | .enumeration e, exp, _ => checkEnumeration e exp
  | .from first, exp, _ => do
    let n ← prim "infFrom"
    let (head, (t, i), _) ← openSpine 0 exp []
    let fn ← checkVar n [] head
    return .app fn (← checkExpr first ⟨t, .argument i⟩ [])
  | .fromThen first next, exp, _ => do
    let n ← prim "infFromThen"
    let (head, (t', j), slots) ← openSpine 1 exp []
    let fn ← checkVar n [] head
    let (_, (t, i), _) ← openSpine 0 head slots
    let a ← checkExpr first ⟨t, .argument i⟩ []
    let b ← checkExpr next ⟨t', .argument j⟩ []
    return .app (.app fn a) b
  | .tuple es, exp, _ => do
    let ts ← expectTuple es.length exp
    return .tuple (← checkEach es (ts.zipIdx.map fun t => ⟨t.1, .tupleField t.2⟩))
  | .record fs, exp, _ => do
    let fields ← expectRecord (fs.map Prod.fst) exp
    return .record (← checkRecordFields fs fields)
  | .list es, exp, _ => do
    let (n, elem) ← expectSeq exp
    unifyExact ⟨n, .seqLength⟩ (.num es.length)
    return .list (← checkEach es (List.replicate es.length ⟨elem, .seqElement⟩)) elem
  | .select e sel, exp, _ => do
    let src := selectSource sel
    let record ← freshType .type src
    let out ← checkExpr e ⟨record, src⟩ []
    return .pendingSelect (← newSelectorGoal sel record exp.type) out
  | .update record fields, exp, _ => do
    let out ← checkExpr record exp []
    checkUpdates fields exp out
  | .updater fields, exp, _ => do
    let x ← freshName "r"
    checkLambda [.var x] exp fun exp => do
      let out ← checkVar x [] exp
      checkUpdates fields exp out
  | .comp result arms, exp, _ => do
    let (n, elem) ← expectSeq exp
    let arms ← checkArms [] arms
    unifyFrom .comprehension ⟨n, .seqLength⟩ (compLength arms)
    let vars := arms.flatMap Arm.vars
    vars.forM fun v => declareMono v.1 v.2
    let out ← checkExpr result ⟨elem, .seqElement⟩ []
    unstash vars.length
    return .comp n elem out (arms.map Arm.quals)
  | .app f a, exp, slots => do
    let (head, (t, i), rest) ← openSpine f.spineLength exp slots
    let fn ← checkExpr f head rest
    let arg ← checkExpr a ⟨t, .argument i⟩ []
    return .app fn arg
  | .ifThenElse c t e, exp, _ => do
    let c ← checkExpr c ⟨.bit, .result⟩ []
    let t ← checkExpr t exp []
    let e ← checkExpr e exp []
    return .ifThenElse c t e
  | .block body ds, exp, _ => do
    openScope .block (← freshName "where")
    let declared ← checkDecls false ds
    let out ← checkExpr body exp []
    unstash declared
    return .block out (← closeBlock)
  | .typed e t, exp, _ => do
    let t ← checkType t .type
    let out ← checkExpr e ⟨t, .wildcard⟩ []
    unifyExact exp t
    return out
  | .lambda ps body, exp, _ => checkLambda ps exp fun exp => checkExpr body exp []

/-- Check expressions, each against its own expected type. -/
def checkEach : List Expr → List Expected → Infer (List Term)
  | e :: es, exp :: exps => do
    let out ← checkExpr e exp []
    return out :: (← checkEach es exps)
  | _, _ => return []

def checkRecordFields : List (String × Expr) → Table String Ty → Infer (List (String × Term))
  | [], _ => return []
  | (l, e) :: fs, fields => do
    let out ← checkExpr e ⟨(Table.find? l fields).getD default, .recordField l⟩ []
    return (l, out) :: (← checkRecordFields fs fields)

/-- Updates of the record that `out` elaborates, one after the other. -/
def checkUpdates : List (List Selector × UpdateHow × Expr) → Expected → Term → Infer Term
  | [], _, out => return out
  | (path, how, e) :: fs, exp, out => do
    let out ← checkUpdate path how exp out fun exp => checkExpr e exp []
    checkUpdates fs exp out

/-- The arms of a comprehension; `seen` are the ids of the variables of earlier arms. -/
def checkArms : List Int → List (List Match) → Infer (List Arm)
  | _, [] => return []
  | seen, ms :: arms => do
    let arm ← checkMatches ms {}
    unstash arm.vars.length
    let seen ← checkRepeated seen arm.vars
    return arm :: (← checkArms seen arms)

/-- The qualifiers of an arm; each sees the variables bound before it. -/
def checkMatches : List Match → Arm → Infer Arm
  | [], arm => return arm
  | .draw p e :: ms, arm => do
    let n ← freshType .num .generatorLength
    let elem ← freshType .type .generator
    let out ← checkExpr e ⟨.seq n elem, .generator⟩ []
    let m ← checkPattern p ⟨elem, .seqElement⟩
    checkMatches ms (← arm.draw n elem out m)
  | .define b :: ms, arm => do
    let d ← checkSingle b fun exp => checkBody b exp
    checkMatches ms (← arm.define d)

/-- The body of a binding opens a scope for existential variables. -/
def checkBody : Bind → Expected → Infer Term
  | .mk _ params (some e) _ _ _ _, exp =>
    withExistentials (checkLambda params exp fun exp => checkExpr e exp [])
  | .mk n _ none _ _ _ _, _ => throw (.missingBody n)

/-- The bindings of a group that are generalized. -/
def checkGeneral (plan : Plan) : List Bind → Infer (List Decl)
  | [] => return []
  | b :: bs => do
    if plan.generalizes b then
      let t := ((plan.general.find? b.name.id).map Prod.snd).getD default
      let d ← checkMono b t fun exp => checkBody b exp
      return d :: (← checkGeneral plan bs)
    else checkGeneral plan bs

/-- The other bindings of a group. -/
def checkOthers (plan : Plan) : List Bind → Infer (List Decl)
  | [] => return []
  | b :: bs => do
    if plan.generalizes b then checkOthers plan bs
    else
      let d ← match plan.signatures.find? b.name.id with
        | some sc => checkSigned b sc fun exp => checkBody b exp
        | none => checkMono b ((plan.monos.find? b.name.id).getD default) fun exp => checkBody b exp
      return d :: (← checkOthers plan bs)

/-- Check declarations in order, until the run is cancelled. The result is the number of variables
that they declare. -/
def checkDecls (top : Bool) : List Surface.Decl → Infer Nat
  | [] => return 0
  | d :: ds => do
    if (← get).cancelled then return 0
    let declared ← checkDecl top d
    return declared + (← checkDecls top ds)

/-- Check a declaration and add it to the innermost scope. -/
def checkDecl (top : Bool) : Surface.Decl → Infer Nat
  | .synonym n params body range => do
    checkSynonym n params body range
    return 0
  | .newtype n params fields conName range => do
    checkNewtype n params fields conName range
    return 1
  | .primType n kind props range => do
    checkPrimType n kind props range
    return 0
  | .paramType n kind _ => do
    checkParamType n kind
    return 0
  | .paramProps props range => do
    checkParamProps props range
    return 0
  | .paramFun n sig range => withRange range do
    let sc ← checkSignature sig
    addParamFun n sc
    declare n (.known sc)
    return 1
  | .group recursive binds => do
    let plan ← planGroup top recursive binds
    let out ← checkGroup plan recursive binds (checkGeneral plan binds) (checkOthers plan binds)
    out.forM fun d => declare d.name (.known d.schema)
    addGroup (.mk recursive out)
    return out.length
  | .submodule n ds range => withRange range do
    let outer ← get
    openScope .submodule n
    let declared ← checkDecls true ds
    modify fun s => { s with params := outer.params, assumptions := outer.assumptions }
    closeSubmodule
    return declared
end

end SizedTypes.Infer
