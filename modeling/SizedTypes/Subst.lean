import SizedTypes.Schema

/-!
# Substitutions

A substitution is the history of its bindings, the newest first. The type of a binding mentions
none of the variables bound before it, so `apply` replaces one variable after the other, the
oldest first, and nothing has to be followed.

Binding `v` to `t` narrows the scope of every variable of `t` to the parameters on which `v` may
depend. The narrowed scopes stand beside the bindings.
-/

set_option autoImplicit false

namespace SizedTypes

structure Subst where
  /-- The bindings, newest first. -/
  bindings : List (TyVar × Ty) := []
  /-- Narrowed scopes, by variable id. -/
  scopes : Table Int (List Int) := []
deriving Inhabited, Repr

/-- Why a binding is refused. -/
inductive ExtendError where
  | alreadyBound (v : TyVar)
  | recursive
  | escape (v : TyVar) (t : Ty) (params : List Param)
deriving Inhabited, Repr

namespace ExtendError

def message : ExtendError → String
  | alreadyBound v => "type-variable " ++ v.display ++ " is already bound"
  | recursive => "recursive type"
  | escape v t params =>
    "type-variable " ++ v.display ++ " cannot depend on "
      ++ String.join ((params.take 1).map Param.display) ++ " in " ++ t.text

end ExtendError

namespace Subst

/-- No bindings and no narrowed scopes. -/
def empty : Subst := {}

/-- The scopes of `s` without its bindings: where a substitution on top of `s` starts. -/
def onlyScopes (s : Subst) : Subst := { scopes := s.scopes }

/-- The bindings in the order of the variables' ids. -/
def entries (s : Subst) : List (TyVar × Ty) :=
  Table.values (Table.ofList (s.bindings.map fun b => (b.1.id, b)))

/-- The type bound directly to a variable. -/
def lookup (s : Subst) (v : Int) : Option Ty :=
  (s.bindings.find? fun b => b.1.id == v).map Prod.snd

/-- The parameters on which `v` may depend by now. -/
def scopeOf (s : Subst) (v : TyVar) : List Int := (s.scopes.find? v.id).getD v.scope

def mayMention (s : Subst) (v : TyVar) (p : Param) : Bool := (s.scopeOf v).contains p.id

def apply (s : Subst) (t : Ty) : Ty :=
  s.bindings.foldr (fun b u => u.replace b.1.id b.2) t

def applyList (s : Subst) (ts : List Ty) : List Ty := ts.map s.apply

def applySchema (s : Subst) (sc : Schema) : Schema := sc.mapTypes s.apply

/-- The parameters of `t` on which `v` may not depend, an entry for each occurrence. -/
def escapedParams (s : Subst) (v : TyVar) (t : Ty) : List Param :=
  t.params.filter fun p => !s.mayMention v p

/-- Restrict every variable of `t` to the parameters on which `v` may depend. -/
def narrow (s : Subst) (v : TyVar) (t : Ty) : Table Int (List Int) :=
  let allowed := s.scopeOf v
  (Ty.freeVars [t]).foldl (fun scopes w =>
    let cur := s.scopeOf w
    let next := cur.filter allowed.contains
    if next.length < cur.length then scopes.insert w.id next else scopes) s.scopes

/-- Bind `v` to `t`. The type under `s` must not mention `v`, nor a parameter outside the scope
of `v`. -/
def extend (s : Subst) (v : TyVar) (t : Ty) : Except ExtendError Subst :=
  if (s.lookup v.id).isSome then .error (.alreadyBound v)
  else
    let t := s.apply t
    if t.isFree v.id then .ok s
    else if t.occurs v.id then .error .recursive
    else
      let escaped := s.escapedParams v t
      if escaped.isEmpty then .ok { bindings := (v, t) :: s.bindings, scopes := s.narrow v t }
      else .error (.escape v t escaped)

/-- `extend`, where a refused binding leaves the substitution as it is. -/
def extendOrSkip (s : Subst) (v : TyVar) (t : Ty) : Subst :=
  match s.extend v t with
  | .ok s' => s'
  | .error _ => s

/-- Extend `s` by every binding of `delta`, by variable id. -/
def merge (s delta : Subst) : Except ExtendError Subst :=
  delta.entries.foldlM (fun s b => s.extend b.1 b.2) s

end Subst
end SizedTypes
