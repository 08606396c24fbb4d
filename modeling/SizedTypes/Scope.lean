import SizedTypes.Core.Term
import SizedTypes.Diagnostic

/-!
# Scopes

Open scopes form a stack above an external scope, which holds the modules checked before. A
scope collects declarations in checking order; a closed submodule merges into its parent.
-/

set_option autoImplicit false

namespace SizedTypes

open SizedTypes.Core (Interface Module)

/-- What is visible from modules that have been checked. -/
structure External where
  synonyms : Table Int TypeSynonym := []
  newtypes : Table Int Newtype := []
  primTypes : Table Int PrimType := []
  vars : Table Int Schema := []
  interfaces : Table Int Interface := []
deriving Inhabited

namespace External

/-- Expose an interface on top of what is visible; a later entry shadows an earlier one. -/
def expose (ext : External) (iface : Interface) : External :=
  { synonyms := ext.synonyms.union iface.synonyms
    newtypes := ext.newtypes.union iface.newtypes
    primTypes := ext.primTypes.union iface.primTypes
    vars := ext.vars.union (iface.vars.mapValues Prod.snd)
    interfaces := ext.interfaces.insert iface.name.id iface }

end External

/-- An open scope. -/
structure Scope where
  kind : ScopeKind
  content : Module
deriving Inhabited

namespace Scope

/-- Merge a closed submodule into its parent. Its parameters stay behind; a parameterized
submodule leaves its interface. -/
def absorb (parent child : Module) : Module :=
  { parent with
    synonyms := parent.synonyms.union child.synonyms
    newtypes := parent.newtypes.union child.newtypes
    primTypes := parent.primTypes.union child.primTypes
    submodules :=
      let subs := parent.submodules.union child.submodules
      if child.isParameterized then subs.insert child.name.id child.interface else subs
    groups := parent.groups ++ child.groups }

/-- Search the scopes from the innermost outwards, then the external table. -/
def lookup {α : Type} (table : Module → Table Int α) (external : Table Int α) (id : Int) :
    List Scope → Option α
  | [] => external.find? id
  | s :: scopes => match (table s.content).find? id with
    | some a => some a
    | none => lookup table external id scopes

/-- A visible synonym with the same identifier and another name. -/
def shadowedSynonym (n : Name) : List Scope → Option Name
  | [] => none
  | s :: scopes =>
    match s.content.synonyms.values.find? fun t => t.name.ident == n.ident && t.name.id != n.id with
    | some t => some t.name
    | none => shadowedSynonym n scopes

end Scope
end SizedTypes
