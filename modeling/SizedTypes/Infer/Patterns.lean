import SizedTypes.Infer.Calls
import SizedTypes.Surface.Expr

/-!
# Patterns

A pattern names the matched value and defines its variables by selecting from that name. All
definitions of a pattern are monomorphic.
-/

set_option autoImplicit false

namespace SizedTypes.Infer

open Surface (Pattern)
open SizedTypes.Core (Decl Term)

/-- A checked pattern: the name of the matched value, the definitions that select from it, and
the variables with their types. -/
structure Matched where
  name : Name
  decls : List Decl := []
  vars : List (Name × Ty) := []
deriving Inhabited

/-- A definition that is not generalized. -/
def monoDecl (n : Name) (t : Ty) (e : Term) : Infer Decl :=
  return .mk n (.mono t) (some e) false (← currentRange)

/-- Bind a part of the value named `x` by the pattern of that part. -/
def Matched.part (whole : Matched) (sel : Selector) (t : Ty) (part : Matched) : Infer Matched := do
  let d ← monoDecl part.name t (.select (.var whole.name) sel)
  return { whole with
    decls := whole.decls ++ d :: part.decls
    vars := whole.vars ++ part.vars }

/-- Split a sequence into two parts of unknown lengths. The result names the pair of the parts. -/
def checkSplit (exp : Expected) : Infer (Name × Matched × Ty × Ty) := do
  let front ← freshType .num .seqLength
  let back ← freshType .num .seqLength
  let elem ← freshType .type .seqElement
  unifyFrom .splitPattern exp (.seq (.op .add [front, back]) elem)
  addGoals .splitPattern [.fin front]
  let left := Ty.seq front elem
  let right := Ty.seq back elem
  let pair := Ty.tuple [left, right]
  let split ← checkPrim .splitPattern "splitAt" [("front", front), ("back", back), ("a", elem)]
    ⟨.arrow exp.type pair, .call⟩
  let x ← freshName "p"
  let parts ← freshName "split"
  let d ← monoDecl parts pair (.app split (.var x))
  return (x, { name := parts, decls := [d] }, left, right)

mutual
/-- Check a pattern against the type of the matched value. -/
def checkPattern : Pattern → Expected → Infer Matched
  | .located r p, exp => withRange r (checkPattern p exp)
  | .var n, exp => return { name := n, vars := [(n, exp.type)] }
  | .wildcard, _ => return { name := ← freshName "_" }
  | .typed p t, exp => do
    let t ← checkType t .type
    unifyExact exp t
    checkPattern p ⟨t, exp.source⟩
  | .tuple ps, exp => do
    let ts ← expectTuple ps.length exp
    let x ← freshName "p"
    checkParts ps (ts.zipIdx.map fun t => (.component t.2, ⟨t.1, .tupleField t.2⟩)) { name := x }
  | .record fs, exp => do
    let fields ← expectRecord (fs.map Prod.fst) exp
    let x ← freshName "p"
    checkFieldParts fs fields { name := x }
  | .list ps, exp => do
    let (n, elem) ← expectSeq exp
    unifyFrom (.pattern "sequence") ⟨n, .seqLength⟩ (.num ps.length)
    let x ← freshName "p"
    checkParts ps ((List.range ps.length).map fun (i : Nat) => (.element i, ⟨elem, .seqElement⟩))
      { name := x }
  | .split left right, exp => do
    let (x, parts, lt, rt) ← checkSplit exp
    let l ← checkPattern left ⟨lt, .seqLength⟩
    let parts ← parts.part (.component 0) lt l
    let r ← checkPattern right ⟨rt, .seqLength⟩
    let parts ← parts.part (.component 1) rt r
    return { parts with name := x }

/-- The parts of a value, each with its selector and expected type. -/
def checkParts : List Pattern → List (Selector × Expected) → Matched → Infer Matched
  | p :: ps, (sel, exp) :: slots, whole => do
    let m ← checkPattern p exp
    checkParts ps slots (← whole.part sel exp.type m)
  | _, _, whole => return whole

/-- The fields of a record. -/
def checkFieldParts : List (String × Pattern) → Table String Ty → Matched → Infer Matched
  | [], _, whole => return whole
  | (l, p) :: fs, fields, whole => do
    let t := (Table.find? l fields).getD default
    let m ← checkPattern p ⟨t, .recordField l⟩
    checkFieldParts fs fields (← whole.part (.field l) t m)
end

end SizedTypes.Infer
