import SizedTypes.Ty.Predicate

/-!
# The text of types

Types are printed with as few parentheses as their precedences allow; a conjunction shows its
parts in one flat list.
-/

set_option autoImplicit false

namespace SizedTypes

/-- How tightly the surroundings of a type bind. -/
inductive Prec where
  | top
  | arrow
  | infixed
  | applied
  | atom
deriving DecidableEq, Repr, Inhabited

namespace Prec

def level : Prec → Nat
  | top => 0
  | arrow => 1
  | infixed => 2
  | applied => 3
  | atom => 4

/-- Parentheses are needed where the surroundings bind tighter than the type. -/
def wrap (outer inner : Prec) (s : String) : String :=
  if inner.level < outer.level then "(" ++ s ++ ")" else s

end Prec

/-- A printed type: its text in each surrounding, and the texts of its conjuncts. -/
structure PrintedTy where
  inside : Prec → String
  conjuncts : List String
deriving Inhabited

namespace PrintedTy

def ofText (inside : Prec → String) : PrintedTy := ⟨inside, [inside .top]⟩

def commas (parts : List String) : String := ", ".intercalate parts

/-- A head and its arguments, as in `Z n`. -/
def application (head : String) (args : List PrintedTy) : PrintedTy :=
  match args with
  | [] => ofText fun _ => head
  | _ => ofText fun outer =>
    outer.wrap .applied (head ++ String.join (args.map fun a => " " ++ a.inside .atom))

/-- An applied constructor. -/
def ofCon (c : Con) (args : List PrintedTy) : PrintedTy :=
  match c, args with
  | .tuple _, _ => ofText fun _ => "(" ++ commas (args.map fun a => a.inside .top) ++ ")"
  | .prop .conj, [] => ⟨fun _ => c.text, []⟩
  | .prop .trivial, [] => ⟨fun _ => c.text, []⟩
  | _, [] => ofText fun _ => c.text
  | .seq, n :: a :: _ => ofText fun outer =>
    outer.wrap .applied ("[" ++ n.inside .top ++ "]" ++ a.inside .applied)
  | .arrow, a :: b :: _ => ofText fun outer =>
    outer.wrap .arrow (a.inside .infixed ++ " -> " ++ b.inside .arrow)
  | .prop .conj, _ =>
    let parts := args.flatMap PrintedTy.conjuncts
    ⟨fun _ => "(" ++ commas parts ++ ")", parts⟩
  | .prop .trivial, _ => ⟨(application c.text args).inside, []⟩
  | .prop (.has sel), _ => application ("Has " ++ sel.text) args
  | _, [a, b] =>
    if c.isInfix then
      ofText fun outer =>
        outer.wrap .infixed (a.inside .applied ++ " " ++ c.text ++ " " ++ b.inside .applied)
    else application c.text args
  | _, _ => application c.text args

end PrintedTy

namespace Ty

mutual
def print : Ty → PrintedTy
  | free v => .ofText fun _ => v.display
  | bound p => .ofText fun _ => p.display
  | con c args => .ofCon c (printList args)
  | record fields => .ofText fun _ => "\x7b" ++ PrintedTy.commas (printFields fields) ++ "\x7d"
  | synonym n args body =>
    let doc := PrintedTy.application n.ident (printList args)
    if body.isJunction then ⟨doc.inside, (print body).conjuncts⟩ else doc
  | newtype n _ _ args => .application n.ident (printList args)

def printList : List Ty → List PrintedTy
  | [] => []
  | t :: ts => print t :: printList ts

def printFields : List (String × Ty) → List String
  | [] => []
  | (l, t) :: fs => (l ++ " : " ++ (print t).inside .top) :: printFields fs
end

/-- The text of a type that stands alone. -/
def text (t : Ty) : String := t.print.inside .top

end Ty
end SizedTypes
