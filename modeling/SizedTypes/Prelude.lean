import SizedTypes.Scope

/-!
# The prelude

The primitives that the checker calls for literals, enumerations and split patterns, and a few
functions besides. Names and the parameters of schemas are numbered from a given start.
-/

set_option autoImplicit false

namespace SizedTypes

/-- A primitive: its parameters, and its predicates and type at these parameters. -/
structure Primitive where
  ident : String
  params : List (String × Kind) := []
  type : (String → Ty) → List Ty × Ty

namespace Primitive

open Ty

private def lit (n a : Ty) : Ty := cls .literal [n, a]

private def litBelow (n a : Ty) : Ty := cls .literalLessThan [n, a]

private def plus (a b : Ty) : Ty := op .add [a, b]

private def minus (a b : Ty) : Ty := op .sub [a, b]

private def per (a b : Ty) : Ty := op .div [a, b]

private def perUp (a b : Ty) : Ty := op .ceilDiv [a, b]

/-- Parameters that are sizes, then the type of elements. -/
private def sized (idents : List String) : List (String × Kind) :=
  idents.map (fun i => (i, Kind.num)) ++ [("a", .type)]

def all : List Primitive :=
  [ { ident := "number", params := [("val", .num), ("rep", .type)]
      type := fun v => ([lit (v "val") (v "rep")], v "rep") },
    { ident := "fraction", params := sized ["m", "n", "r"]
      type := fun v => ([cls .fractionLiteral [v "m", v "n", v "r", v "a"]], v "a") },
    { ident := "splitAt", params := sized ["front", "back"]
      type := fun v =>
        ([fin (v "front")],
          arrow (seq (plus (v "front") (v "back")) (v "a"))
            (tuple [seq (v "front") (v "a"), seq (v "back") (v "a")])) },
    { ident := "fromTo", params := sized ["first", "last"]
      type := fun v =>
        ([fin (v "last"), geq (v "last") (v "first"), lit (v "last") (v "a")],
          seq (plus (num 1) (minus (v "last") (v "first"))) (v "a")) },
    { ident := "fromToLessThan", params := sized ["first", "bound"]
      type := fun v =>
        ([fin (v "first"), geq (v "bound") (v "first"), litBelow (v "bound") (v "a")],
          seq (minus (v "bound") (v "first")) (v "a")) },
    { ident := "fromThenTo", params := sized ["first", "next", "last"] ++ [("len", .num)]
      type := fun v =>
        ([fin (v "first"), fin (v "next"), fin (v "last"), lit (v "first") (v "a"),
            lit (v "next") (v "a"), lit (v "last") (v "a"), neq (v "first") (v "next"),
            equal (op .lengthFromThenTo [v "first", v "next", v "last"]) (v "len")],
          seq (v "len") (v "a")) },
    { ident := "fromToBy", params := sized ["first", "last", "stride"]
      type := fun v =>
        ([fin (v "last"), fin (v "stride"), geq (v "stride") (num 1), geq (v "last") (v "first"),
            lit (v "last") (v "a")],
          seq (plus (num 1) (per (minus (v "last") (v "first")) (v "stride"))) (v "a")) },
    { ident := "fromToByLessThan", params := sized ["first", "bound", "stride"]
      type := fun v =>
        ([fin (v "first"), fin (v "stride"), geq (v "stride") (num 1),
            geq (v "bound") (v "first"), litBelow (v "bound") (v "a")],
          seq (perUp (minus (v "bound") (v "first")) (v "stride")) (v "a")) },
    { ident := "fromToDownBy", params := sized ["first", "last", "stride"]
      type := fun v =>
        ([fin (v "first"), fin (v "stride"), geq (v "stride") (num 1), geq (v "first") (v "last"),
            lit (v "first") (v "a")],
          seq (plus (num 1) (per (minus (v "first") (v "last")) (v "stride"))) (v "a")) },
    { ident := "fromToDownByGreaterThan", params := sized ["first", "bound", "stride"]
      type := fun v =>
        ([fin (v "first"), fin (v "stride"), geq (v "stride") (num 1),
            geq (v "first") (v "bound"), lit (v "first") (v "a")],
          seq (perUp (minus (v "first") (v "bound")) (v "stride")) (v "a")) },
    { ident := "infFrom", params := sized []
      type := fun v => ([cls .integral [v "a"]], arrow (v "a") (seq inf (v "a"))) },
    { ident := "infFromThen", params := sized []
      type := fun v => ([cls .integral [v "a"]], arrows [v "a", v "a"] (seq inf (v "a"))) },
    { ident := "+", params := sized []
      type := fun v => ([cls .ring [v "a"]], arrows [v "a", v "a"] (v "a")) },
    { ident := "==", params := sized []
      type := fun v => ([cls .eq [v "a"]], arrows [v "a", v "a"] bit) },
    { ident := "#", params := sized ["front", "back"]
      type := fun v =>
        ([fin (v "front")],
          arrows [seq (v "front") (v "a"), seq (v "back") (v "a")]
            (seq (plus (v "front") (v "back")) (v "a"))) },
    { ident := "length", params := sized ["n"] ++ [("b", .type)]
      type := fun v => ([fin (v "n"), lit (v "n") (v "b")], arrow (seq (v "n") (v "a")) (v "b")) },
    { ident := "True", type := fun _ => ([], bit) } ]

/-- Parameters numbered from `next` on. -/
def numbered (params : List (String × Kind)) (next : Int) : List Param :=
  params.zipIdx.map fun p =>
    let id := Word.add next p.2
    { id, kind := p.1.2, name := some { id, ident := p.1.1, space := .type, system := true } }

/-- The schema of a primitive with parameters numbered from `next` on. -/
def schema (p : Primitive) (next : Int) : Schema :=
  let params := numbered p.params next
  let var (ident : String) : Ty :=
    ((params.find? fun q => q.display == ident).map .bound).getD default
  let (props, body) := p.type var
  { params, props, body }

end Primitive

structure Prelude where
  names : NameTable
  interface : Core.Interface
  /-- The names of the primitives, by identifier. -/
  prims : List (String × Name)
  /-- The first id that no parameter of the prelude has. -/
  nextTypeVar : Int
deriving Inhabited

namespace Prelude

/-- Add a primitive. -/
def add (p : Prelude) (prim : Primitive) : Prelude :=
  let (n, names) := p.names.resolve prim.ident .value
  { names
    interface :=
      { p.interface with vars := p.interface.vars.insert n.id (n, prim.schema p.nextTypeVar) }
    prims := p.prims ++ [(prim.ident, n)]
    nextTypeVar := Word.add p.nextTypeVar prim.params.length }

/-- The prelude with names numbered from `start` on. -/
def build (start : Int) : Prelude :=
  let table : NameTable := { qualifier := "Prelude", next := start }
  let (n, names) := table.resolve "Prelude" .type
  Primitive.all.foldl add
    { names, interface := { name := n }, prims := [], nextTypeVar := Word.add start 1000 }

end Prelude
end SizedTypes
