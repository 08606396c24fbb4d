import SizedTypes.Infer.Literals
import SizedTypes.Proofs.Surface.Conditions
import SizedTypes.Proofs.Surface.References

/-!
# Names in scope

Which names a program can refer to, and whether a part of it refers to such names only. Values,
types and parameters are visible if they are external, declared before, or bound around; the
bindings of a recursive group see each other. Literals, enumerations and split patterns call
well-known primitives, which are external.
-/

set_option autoImplicit false

namespace SizedTypes.Surface

/-- The names to which can be referred, by their ids. -/
structure Visible where
  external : External := {}
  /-- The names of well-known primitives. -/
  prims : List (String × Name) := []
  values : List Int := []
  /-- Synonyms, newtypes and primitive types. -/
  types : List Int := []
  moduleParams : List Int := []
  /-- The type parameters of the signatures around. -/
  typeVars : List Int := []

namespace Visible

def value (v : Visible) (id : Int) : Bool :=
  v.values.contains id || (v.external.vars.find? id).isSome

def type (v : Visible) (id : Int) : Bool :=
  v.types.contains id || (v.external.synonyms.find? id).isSome ||
    (v.external.newtypes.find? id).isSome || (v.external.primTypes.find? id).isSome

/-- A type parameter takes no arguments. -/
def param (v : Visible) (id : Int) : Bool := v.typeVars.contains id || v.moduleParams.contains id

/-- A call of a primitive that is not known at all is a call of no name. -/
def prim (v : Visible) (ident : String) : Bool :=
  (v.prims.lookup ident).all fun n => (v.external.vars.find? n.id).isSome

def withValues (v : Visible) (ids : List Int) : Visible := { v with values := v.values ++ ids }

def withTypeVars (v : Visible) (ids : List Int) : Visible :=
  { v with typeVars := v.typeVars ++ ids }

end Visible

/-! ## Types and patterns -/

mutual
/-- All names in a type are visible. `own` are the parameters of the declaration that the type is a
part of. -/
def TypeExpr.inScope (v : Visible) (own : List Int) : TypeExpr → Bool
  | .named n args =>
    (own.contains n.id || (args.isEmpty && v.param n.id) || v.type n.id) && typesInScope v own args
  | .builtin _ args => typesInScope v own args
  | .arrow a b => a.inScope v own && b.inScope v own
  | .seq len elem => len.inScope v own && elem.inScope v own
  | .tuple ts => typesInScope v own ts
  | .record fs => typeFieldsInScope v own fs
  | .located _ t => t.inScope v own
  | _ => true

def typesInScope (v : Visible) (own : List Int) : List TypeExpr → Bool
  | [] => true
  | t :: ts => t.inScope v own && typesInScope v own ts

def typeFieldsInScope (v : Visible) (own : List Int) : List (String × TypeExpr) → Bool
  | [] => true
  | (_, t) :: fs => t.inScope v own && typeFieldsInScope v own fs
end

def paramIds (ps : List TypeParam) : List Int := ps.map fun p => p.name.id

def Signature.inScope (v : Visible) (sig : Signature) : Bool :=
  typesInScope v (paramIds sig.params) sig.props && sig.body.inScope v (paramIds sig.params)

mutual
def Pattern.inScope (v : Visible) : Pattern → Bool
  | .typed p t => p.inScope v && t.inScope v []
  | .tuple ps => patternsInScope v ps
  | .record fs => patternFieldsInScope v fs
  | .list ps => patternsInScope v ps
  | .split left right => v.prim "splitAt" && left.inScope v && right.inScope v
  | .located _ p => p.inScope v
  | _ => true

def patternsInScope (v : Visible) : List Pattern → Bool
  | [] => true
  | p :: ps => p.inScope v && patternsInScope v ps

def patternFieldsInScope (v : Visible) : List (String × Pattern) → Bool
  | [] => true
  | (_, p) :: fs => p.inScope v && patternFieldsInScope v fs
end

def Enumeration.inScope (v : Visible) (e : Enumeration) : Bool :=
  v.prim (Infer.enumerationPrim e).1 &&
    [e.first, e.next, e.last, e.stride, e.elem].all fun t => t.all (TypeExpr.inScope v [])

/-! ## Declarations -/

def bindIds (bs : List Bind) : List Int := bs.map fun b => b.name.id

def varIdsOf (ps : List Pattern) : List Int := (Pattern.varsList ps).map Name.id

/-- The name of the constructor function of a newtype. -/
def constructorName (n : Name) (conName : Option Name) : Name :=
  (conName.filter fun c => c.ident != "").getD n

mutual
/-- What is visible after a declaration. What a submodule declares stays visible, except for its
type parameters. -/
def Visible.declare (v : Visible) : Decl → Visible
  | .group _ bs => v.withValues (bindIds bs)
  | .synonym n _ _ _ => { v with types := v.types ++ [n.id] }
  | .newtype n _ _ conName _ =>
    { v with types := v.types ++ [n.id], values := v.values ++ [(constructorName n conName).id] }
  | .primType n _ _ _ => { v with types := v.types ++ [n.id] }
  | .paramType n _ _ => { v with moduleParams := v.moduleParams ++ [n.id] }
  | .paramProps _ _ => v
  | .paramFun n _ _ => v.withValues [n.id]
  | .submodule _ ds _ => { v.declareAll ds with moduleParams := v.moduleParams }

def Visible.declareAll (v : Visible) : List Decl → Visible
  | [] => v
  | d :: ds => (v.declare d).declareAll ds
end

/-- The type parameters that a body can have in scope: those of the signature for the name of the
binding, or none without one. Of several bindings of a group with one name, each may be checked
against the signature of another. -/
def Bind.ownParams (group : List Bind) (b : Bind) : List (List Int) :=
  let signed := group.filter fun b' => b'.name.id == b.name.id && b'.signature.isSome
  (if b.signature.isNone then [[]] else []) ++ signed.map Bind.paramIds

def Bind.signatureInScope (v : Visible) (b : Bind) : Bool := b.signature.all (Signature.inScope v)

/-! ## Expressions -/

/-- The variables that a qualifier binds. -/
def Match.binds : Match → List Int
  | .draw p _ => p.vars.map Name.id
  | .define b => [b.name.id]

mutual
/-- All names in an expression are visible. A signature must name its parameters apart from those
of the signatures around it. -/
def Expr.inScope (v : Visible) : Expr → Bool
  | .var n => v.value n.id
  | .num _ _ _ => v.prim "number"
  | .frac _ _ => v.prim "fraction"
  | .char _ => v.prim "number"
  | .string _ => v.prim "number"
  | .tuple es => eachInScope v es
  | .record fs => fieldsInScope v fs
  | .select e _ => e.inScope v
  | .update r fs => r.inScope v && updatesInScope v fs
  | .updater fs => updatesInScope v fs
  | .list es => eachInScope v es
  | .enumeration e => e.inScope v
  | .from first => v.prim "infFrom" && first.inScope v
  | .fromThen first next => v.prim "infFromThen" && first.inScope v && next.inScope v
  | .comp result arms =>
    armsInScope v arms && result.inScope (v.withValues (arms.flatten.flatMap Match.binds))
  | .app f a => f.inScope v && a.inScope v
  | .typeApp f args => f.inScope v && args.all fun a => a.type.inScope v []
  | .ifThenElse c t e => c.inScope v && t.inScope v && e.inScope v
  | .block body ds => declsInScope v ds && body.inScope (v.declareAll ds)
  | .typed e t => e.inScope v && t.inScope v []
  | .typeValue t => v.prim "number" && t.inScope v []
  | .lambda ps body => patternsInScope v ps && body.inScope (v.withValues (varIdsOf ps))
  | .located _ e => e.inScope v

def eachInScope (v : Visible) : List Expr → Bool
  | [] => true
  | e :: es => e.inScope v && eachInScope v es

def fieldsInScope (v : Visible) : List (String × Expr) → Bool
  | [] => true
  | (_, e) :: fs => e.inScope v && fieldsInScope v fs

def updatesInScope (v : Visible) : List (List Selector × UpdateHow × Expr) → Bool
  | [] => true
  | (_, _, e) :: fs => e.inScope v && updatesInScope v fs

def armsInScope (v : Visible) : List (List Match) → Bool
  | [] => true
  | arm :: arms => matchesInScope v arm && armsInScope v arms

/-- Each qualifier sees the variables bound before it. -/
def matchesInScope (v : Visible) : List Match → Bool
  | [] => true
  | .draw p e :: ms =>
    e.inScope v && p.inScope v && matchesInScope (v.withValues (p.vars.map Name.id)) ms
  | .define b :: ms =>
    b.signatureInScope v && b.inScope v b.paramIds && matchesInScope (v.withValues [b.name.id]) ms

/-- The body is checked with the type parameters `own` in scope besides. -/
def Bind.inScope (v : Visible) (own : List Int) : Bind → Bool
  | .mk _ ps (some e) _ _ _ _ =>
    own.all (fun id => !v.typeVars.contains id) && patternsInScope (v.withTypeVars own) ps &&
      e.inScope ((v.withTypeVars own).withValues (varIdsOf ps))
  | .mk _ _ none _ _ _ _ => own.all fun id => !v.typeVars.contains id

def bindsInScope (v : Visible) (group : List Bind) : List Bind → Bool
  | [] => true
  | b :: bs => (b.ownParams group).all (fun own => b.inScope v own) && bindsInScope v group bs

def Decl.inScope (v : Visible) : Decl → Bool
  | .group recursive bs => bs.all (Bind.signatureInScope v) &&
    bindsInScope (v.withValues (if recursive then bindIds bs else [])) bs bs
  | .synonym _ ps body _ => body.inScope v (paramIds ps)
  | .newtype _ ps fs _ _ => typeFieldsInScope v (paramIds ps) fs
  | .primType _ _ props _ => typesInScope v [] props
  | .paramType _ _ _ => true
  | .paramProps props _ => typesInScope v [] props
  | .paramFun _ sig _ => sig.inScope v
  | .submodule _ ds _ => declsInScope v ds

/-- Each declaration refers to names that are visible before it, or that its group binds if that is
recursive. -/
def declsInScope (v : Visible) : List Decl → Bool
  | [] => true
  | d :: ds => d.inScope v && declsInScope (v.declare d) ds
end

/-! ## The type parameters of a body -/

section OwnParams

variable {group : List Bind} {b b' : Bind}

theorem nil_mem_ownParams (h : b.signature = none) : [] ∈ b.ownParams group :=
  List.mem_append_left _ (by simp [h])

theorem paramIds_mem_ownParams (hb : b' ∈ group) (hname : b'.name.id = b.name.id)
    (hsig : b'.signature.isSome) : b'.paramIds ∈ b.ownParams group :=
  List.mem_append_right _ (List.mem_map_of_mem (List.mem_filter.mpr ⟨hb, by simp [hname, hsig]⟩))

theorem mem_ownParams (hb : b ∈ group) : b.paramIds ∈ b.ownParams group := by
  cases hsig : b.signature with
  | none =>
    have hnil : b.paramIds = [] := by rw [Bind.paramIds, hsig]
    exact hnil ▸ nil_mem_ownParams hsig
  | some sig => exact paramIds_mem_ownParams hb rfl (by rw [hsig]; rfl)

end OwnParams

/-! ## Where more is visible -/

/-- Whatever is visible in `v` is visible in `v'`, too; of values this is said for `ids` only. -/
structure Visible.Le (ids : List Int) (v v' : Visible) : Prop where
  external : v'.external = v.external
  prims : v'.prims = v.prims
  typeVars : v'.typeVars = v.typeVars
  values : ∀ id ∈ ids, v.value id = true → v'.value id = true
  types : v.types ⊆ v'.types
  moduleParams : v.moduleParams ⊆ v'.moduleParams

namespace Visible

variable {ids xs : List Int} {v v' v'' : Visible}

theorem value_iff {id : Int} :
    v.value id = true ↔ id ∈ v.values ∨ (v.external.vars.find? id).isSome = true := by
  simp [value]

theorem value_withValues {id : Int} :
    (v.withValues xs).value id = true ↔ v.value id = true ∨ id ∈ xs := by
  simp only [value_iff, withValues, List.mem_append]
  grind

theorem withValues_withValues (v : Visible) (xs ys : List Int) :
    (v.withValues xs).withValues ys = v.withValues (xs ++ ys) := by
  simp [withValues]

@[simp] theorem withValues_nil (v : Visible) : v.withValues [] = v := by simp [withValues]

@[simp] theorem withTypeVars_nil (v : Visible) : v.withTypeVars [] = v := by simp [withTypeVars]

/-- More values are visible. -/
theorem le_of_values {values : List Int} (h : v.values ⊆ values) :
    v.Le ids { v with values } where
  external := rfl
  prims := rfl
  typeVars := rfl
  values _ _ hid := value_iff.mpr ((value_iff.mp hid).imp_left fun hmem => h hmem)
  types := List.Subset.refl _
  moduleParams := List.Subset.refl _

theorem le_withValues (v : Visible) (xs : List Int) : v.Le ids (v.withValues xs) :=
  le_of_values (List.subset_append_left ..)

theorem withValues_le_withValues {ys : List Int} (h : ∀ id ∈ ids, id ∈ xs → id ∈ ys) :
    (v.withValues xs).Le ids (v.withValues ys) where
  external := rfl
  prims := rfl
  typeVars := rfl
  values id hid hv := value_withValues.mpr ((value_withValues.mp hv).imp_right (h id hid))
  types := List.Subset.refl _
  moduleParams := List.Subset.refl _

namespace Le

theorem refl (v : Visible) : v.Le ids v := le_of_values (List.Subset.refl _)

theorem trans (h : v.Le ids v') (h' : v'.Le ids v'') : v.Le ids v'' where
  external := h'.external.trans h.external
  prims := h'.prims.trans h.prims
  typeVars := h'.typeVars.trans h.typeVars
  values id hid hv := h'.values id hid (h.values id hid hv)
  types := List.Subset.trans h.types h'.types
  moduleParams := List.Subset.trans h.moduleParams h'.moduleParams

theorem withValues (h : v.Le ids v') (xs : List Int) :
    (v.withValues xs).Le ids (v'.withValues xs) :=
  { h with
    values := fun id hid hv => value_withValues.mpr <|
      (value_withValues.mp hv).imp_left fun hv => h.values id hid hv }

theorem withTypeVars (h : v.Le ids v') (xs : List Int) :
    (v.withTypeVars xs).Le ids (v'.withTypeVars xs) :=
  { h with typeVars := congrArg (· ++ xs) h.typeVars }

theorem append_subset_append {xs ys zs : List Int} (h : xs ⊆ ys) : xs ++ zs ⊆ ys ++ zs :=
  List.append_subset.mpr ⟨List.Subset.trans h (List.subset_append_left ..), List.subset_append_right ..⟩

theorem withType (h : v.Le ids v') (id : Int) :
    ({ v with types := v.types ++ [id] } : Visible).Le ids { v' with types := v'.types ++ [id] } :=
  { h with types := append_subset_append h.types }

theorem withParam (h : v.Le ids v') (id : Int) :
    ({ v with moduleParams := v.moduleParams ++ [id] } : Visible).Le ids
      { v' with moduleParams := v'.moduleParams ++ [id] } :=
  { h with moduleParams := append_subset_append h.moduleParams }

mutual
theorem declare : ∀ {v v' : Visible} (d : Decl), v.Le ids v' → (v.declare d).Le ids (v'.declare d)
  | _, _, .group _ bs, h => h.withValues (bindIds bs)
  | _, _, .synonym n _ _ _, h => h.withType n.id
  | _, _, .newtype n _ _ conName _, h =>
    (h.withType n.id).withValues [(constructorName n conName).id]
  | _, _, .primType n _ _ _, h => h.withType n.id
  | _, _, .paramType n _ _, h => h.withParam n.id
  | _, _, .paramProps _ _, h => h
  | _, _, .paramFun n _ _, h => h.withValues [n.id]
  | _, _, .submodule _ ds _, h => { declareAll ds h with moduleParams := h.moduleParams }

theorem declareAll : ∀ {v v' : Visible} (ds : List Decl), v.Le ids v' →
    (v.declareAll ds).Le ids (v'.declareAll ds)
  | _, _, [], h => h
  | _, _, d :: ds, h => declareAll ds (declare d h)
end

theorem type (h : v.Le ids v') {id : Int} (hid : v.type id = true) : v'.type id = true := by
  simp only [Visible.type, Bool.or_eq_true, List.contains_iff_mem, h.external] at hid ⊢
  have := @h.types id
  grind

theorem param (h : v.Le ids v') {id : Int} (hid : v.param id = true) : v'.param id = true := by
  simp only [Visible.param, Bool.or_eq_true, List.contains_iff_mem, h.typeVars] at hid ⊢
  exact hid.imp_right fun hmem => h.moduleParams hmem

theorem prim (h : v.Le ids v') (ident : String) : v'.prim ident = v.prim ident := by
  rw [Visible.prim, Visible.prim, h.prims, h.external]

end Le
end Visible

variable {ids own : List Int} {v v' : Visible}

mutual
theorem le_declare : ∀ (d : Decl) (v : Visible), v.Le ids (v.declare d)
  | .group _ _, v | .paramFun _ _ _, v => Visible.le_withValues v _
  | .synonym _ _ _ _, v | .primType _ _ _ _, v =>
    { Visible.Le.refl v with types := List.subset_append_left .. }
  | .newtype _ _ _ _ _, v =>
    { Visible.le_withValues v _ with types := List.subset_append_left .. }
  | .paramType _ _ _, v =>
    { Visible.Le.refl v with moduleParams := List.subset_append_left .. }
  | .paramProps _ _, v => .refl v
  | .submodule _ ds _, v => { le_declareAll ds v with moduleParams := List.Subset.refl _ }

theorem le_declareAll : ∀ (ds : List Decl) (v : Visible), v.Le ids (v.declareAll ds)
  | [], v => .refl v
  | d :: ds, v => (le_declare d v).trans (le_declareAll ds (v.declare d))
end

mutual
theorem TypeExpr.inScope_of_le (h : v.Le ids v') :
    (t : TypeExpr) → t.inScope v own = true → t.inScope v' own = true
  | .named n args, ht => by
    simp only [TypeExpr.inScope, Bool.and_eq_true, Bool.or_eq_true] at ht ⊢
    refine ⟨ht.1.imp (Or.imp_right fun hp => ⟨hp.1, h.param hp.2⟩) h.type, ?_⟩
    exact typesInScope_of_le h args ht.2
  | .builtin _ args, ht => typesInScope_of_le h args ht
  | .arrow a b, ht | .seq a b, ht => by
    simp only [TypeExpr.inScope, Bool.and_eq_true] at ht ⊢
    exact ⟨a.inScope_of_le h ht.1, b.inScope_of_le h ht.2⟩
  | .tuple ts, ht => typesInScope_of_le h ts ht
  | .record fs, ht => typeFieldsInScope_of_le h fs ht
  | .located _ t, ht => t.inScope_of_le h ht
  | .bit, ht | .num _, ht | .char _, ht | .wildcard, ht | .existential _, ht => ht

theorem typesInScope_of_le (h : v.Le ids v') :
    (ts : List TypeExpr) → typesInScope v own ts = true → typesInScope v' own ts = true
  | [], ht => ht
  | t :: ts, ht => by
    simp only [typesInScope, Bool.and_eq_true] at ht ⊢
    exact ⟨t.inScope_of_le h ht.1, typesInScope_of_le h ts ht.2⟩

theorem typeFieldsInScope_of_le (h : v.Le ids v') : (fs : List (String × TypeExpr)) →
    typeFieldsInScope v own fs = true → typeFieldsInScope v' own fs = true
  | [], ht => ht
  | (_, t) :: fs, ht => by
    simp only [typeFieldsInScope, Bool.and_eq_true] at ht ⊢
    exact ⟨t.inScope_of_le h ht.1, typeFieldsInScope_of_le h fs ht.2⟩
end

theorem Signature.inScope_of_le (h : v.Le ids v') {sig : Signature}
    (hsig : sig.inScope v = true) : sig.inScope v' = true := by
  simp only [inScope, Bool.and_eq_true] at hsig ⊢
  exact ⟨typesInScope_of_le h _ hsig.1, sig.body.inScope_of_le h hsig.2⟩

theorem Bind.signatureInScope_of_le (h : v.Le ids v') {b : Bind}
    (hb : b.signatureInScope v = true) : b.signatureInScope v' = true := by
  unfold signatureInScope at hb ⊢
  cases hsig : b.signature with
  | none => rfl
  | some sig =>
    rw [hsig] at hb
    exact Signature.inScope_of_le h hb

mutual
theorem Pattern.inScope_of_le (h : v.Le ids v') :
    (p : Pattern) → p.inScope v = true → p.inScope v' = true
  | .var _, hp | .wildcard, hp => hp
  | .typed p t, hp => by
    simp only [Pattern.inScope, Bool.and_eq_true] at hp ⊢
    exact ⟨p.inScope_of_le h hp.1, t.inScope_of_le h hp.2⟩
  | .tuple ps, hp | .list ps, hp => patternsInScope_of_le h ps hp
  | .record fs, hp => patternFieldsInScope_of_le h fs hp
  | .split left right, hp => by
    simp only [Pattern.inScope, Bool.and_eq_true, h.prim] at hp ⊢
    exact ⟨⟨hp.1.1, left.inScope_of_le h hp.1.2⟩, right.inScope_of_le h hp.2⟩
  | .located _ p, hp => p.inScope_of_le h hp

theorem patternsInScope_of_le (h : v.Le ids v') :
    (ps : List Pattern) → patternsInScope v ps = true → patternsInScope v' ps = true
  | [], hp => hp
  | p :: ps, hp => by
    simp only [patternsInScope, Bool.and_eq_true] at hp ⊢
    exact ⟨p.inScope_of_le h hp.1, patternsInScope_of_le h ps hp.2⟩

theorem patternFieldsInScope_of_le (h : v.Le ids v') : (fs : List (String × Pattern)) →
    patternFieldsInScope v fs = true → patternFieldsInScope v' fs = true
  | [], hp => hp
  | (_, p) :: fs, hp => by
    simp only [patternFieldsInScope, Bool.and_eq_true] at hp ⊢
    exact ⟨p.inScope_of_le h hp.1, patternFieldsInScope_of_le h fs hp.2⟩
end

theorem Enumeration.inScope_of_le (h : v.Le ids v') {e : Enumeration} (he : e.inScope v = true) :
    e.inScope v' = true := by
  simp only [inScope, Bool.and_eq_true, h.prim, List.all_eq_true] at he ⊢
  refine ⟨he.1, fun t ht => ?_⟩
  have hbound := he.2 t ht
  cases t with
  | none => rfl
  | some t => exact t.inScope_of_le h hbound

/-! The values to which an expression refers are among the variables that occur in it. -/

theorem varIds_append (es es' : List Expr) : varIds (es ++ es') = varIds es ++ varIds es' :=
  List.filterMap_append ..

theorem varIds_cons_subset (e : Expr) (es : List Expr) : varIds es ⊆ varIds (e :: es) := by
  rw [← List.singleton_append, varIds_append]
  exact List.subset_append_right ..

/-- The variables of two parts of a traversal that meets something else first. -/
theorem varIds_cons_append {e : Expr} {es es' : List Expr}
    (h : varIds (e :: (es ++ es')) ⊆ ids) : varIds es ⊆ ids ∧ varIds es' ⊆ ids := by
  replace h := List.Subset.trans (varIds_cons_subset e _) h
  rw [varIds_append] at h
  exact List.append_subset.mp h

theorem varIds_both {es es' : List Expr} (h : varIds (es ++ es') ⊆ ids) :
    varIds es ⊆ ids ∧ varIds es' ⊆ ids := by
  rw [varIds_append] at h
  exact List.append_subset.mp h

theorem varIds_tail {e : Expr} {es : List Expr} (h : varIds (e :: es) ⊆ ids) : varIds es ⊆ ids :=
  List.Subset.trans (varIds_cons_subset e es) h

theorem subtermsDecls_cons (d : Decl) (ds : List Decl) :
    subtermsDecls (d :: ds) = subtermsDecls [d] ++ subtermsDecls ds := by
  cases d <;> simp [subtermsDecls]

mutual
/-- What is in scope stays in scope where more is visible; of the values only those count that occur
in the expression. -/
theorem Expr.inScope_of_le : ∀ (e : Expr) {v v' : Visible}, v.Le ids v' →
    varIds e.subterms ⊆ ids → e.inScope v = true → e.inScope v' = true
  | .var n, v, v', h, hids, he => h.values n.id (hids (List.mem_singleton_self _)) he
  | .num _ _ _, v, v', h, _, he | .frac _ _, v, v', h, _, he | .char _, v, v', h, _, he
  | .string _, v, v', h, _, he => (h.prim _).trans he
  | .tuple es, v, v', h, hids, he | .list es, v, v', h, hids, he =>
    eachInScope_of_le es h (varIds_tail hids) he
  | .record fs, v, v', h, hids, he => fieldsInScope_of_le fs h (varIds_tail hids) he
  | .select e _, v, v', h, hids, he => e.inScope_of_le h (varIds_tail hids) he
  | .update r fs, v, v', h, hids, he => by
    obtain ⟨hr, hfs⟩ := varIds_cons_append hids
    simp only [Expr.inScope, Bool.and_eq_true] at he ⊢
    exact ⟨r.inScope_of_le h hr he.1, updatesInScope_of_le fs h hfs he.2⟩
  | .updater fs, v, v', h, hids, he => updatesInScope_of_le fs h (varIds_tail hids) he
  | .enumeration e, v, v', h, _, he => Enumeration.inScope_of_le h he
  | .from first, v, v', h, hids, he => by
    simp only [Expr.inScope, Bool.and_eq_true, h.prim] at he ⊢
    exact ⟨he.1, first.inScope_of_le h (varIds_tail hids) he.2⟩
  | .fromThen first next, v, v', h, hids, he => by
    obtain ⟨hfirst, hnext⟩ := varIds_cons_append hids
    simp only [Expr.inScope, Bool.and_eq_true, h.prim] at he ⊢
    exact ⟨⟨he.1.1, first.inScope_of_le h hfirst he.1.2⟩, next.inScope_of_le h hnext he.2⟩
  | .comp result arms, v, v', h, hids, he => by
    obtain ⟨hresult, harms⟩ := varIds_cons_append hids
    simp only [Expr.inScope, Bool.and_eq_true] at he ⊢
    exact ⟨armsInScope_of_le arms h harms he.1,
      result.inScope_of_le (h.withValues _) hresult he.2⟩
  | .app f a, v, v', h, hids, he => by
    obtain ⟨hf, ha⟩ := varIds_cons_append hids
    simp only [Expr.inScope, Bool.and_eq_true] at he ⊢
    exact ⟨f.inScope_of_le h hf he.1, a.inScope_of_le h ha he.2⟩
  | .typeApp f args, v, v', h, hids, he => by
    simp only [Expr.inScope, Bool.and_eq_true, List.all_eq_true] at he ⊢
    exact ⟨f.inScope_of_le h (varIds_tail hids) he.1,
      fun a ha => a.type.inScope_of_le h (he.2 a ha)⟩
  | .ifThenElse c t e, v, v', h, hids, he => by
    obtain ⟨hc, hboth⟩ := varIds_cons_append hids
    obtain ⟨ht, helse⟩ := varIds_both hboth
    simp only [Expr.inScope, Bool.and_eq_true] at he ⊢
    exact ⟨⟨c.inScope_of_le h hc he.1.1, t.inScope_of_le h ht he.1.2⟩,
      e.inScope_of_le h helse he.2⟩
  | .block body ds, v, v', h, hids, he => by
    obtain ⟨hbody, hds⟩ := varIds_cons_append hids
    simp only [Expr.inScope, Bool.and_eq_true] at he ⊢
    exact ⟨declsInScope_of_le ds h hds he.1, body.inScope_of_le (h.declareAll ds) hbody he.2⟩
  | .typed e t, v, v', h, hids, he => by
    simp only [Expr.inScope, Bool.and_eq_true] at he ⊢
    exact ⟨e.inScope_of_le h (varIds_tail hids) he.1, t.inScope_of_le h he.2⟩
  | .typeValue t, v, v', h, _, he => by
    simp only [Expr.inScope, Bool.and_eq_true, h.prim] at he ⊢
    exact ⟨he.1, t.inScope_of_le h he.2⟩
  | .lambda ps body, v, v', h, hids, he => by
    simp only [Expr.inScope, Bool.and_eq_true] at he ⊢
    exact ⟨patternsInScope_of_le h ps he.1,
      body.inScope_of_le (h.withValues _) (varIds_tail hids) he.2⟩
  | .located _ e, v, v', h, hids, he => e.inScope_of_le h (varIds_tail hids) he

theorem eachInScope_of_le : ∀ (es : List Expr) {v v' : Visible}, v.Le ids v' →
    varIds (subtermsList es) ⊆ ids → eachInScope v es = true → eachInScope v' es = true
  | [], v, v', _, _, he => he
  | e :: es, v, v', h, hids, he => by
    obtain ⟨hfirst, hrest⟩ := varIds_both hids
    simp only [eachInScope, Bool.and_eq_true] at he ⊢
    exact ⟨e.inScope_of_le h hfirst he.1, eachInScope_of_le es h hrest he.2⟩

theorem fieldsInScope_of_le : ∀ (fs : List (String × Expr)) {v v' : Visible}, v.Le ids v' →
    varIds (subtermsFields fs) ⊆ ids → fieldsInScope v fs = true → fieldsInScope v' fs = true
  | [], v, v', _, _, he => he
  | (_, e) :: fs, v, v', h, hids, he => by
    obtain ⟨hfirst, hrest⟩ := varIds_both hids
    simp only [fieldsInScope, Bool.and_eq_true] at he ⊢
    exact ⟨e.inScope_of_le h hfirst he.1, fieldsInScope_of_le fs h hrest he.2⟩

theorem updatesInScope_of_le : ∀ (fs : List (List Selector × UpdateHow × Expr)) {v v' : Visible},
    v.Le ids v' → varIds (subtermsUpdates fs) ⊆ ids → updatesInScope v fs = true →
    updatesInScope v' fs = true
  | [], v, v', _, _, he => he
  | (_, _, e) :: fs, v, v', h, hids, he => by
    obtain ⟨hfirst, hrest⟩ := varIds_both hids
    simp only [updatesInScope, Bool.and_eq_true] at he ⊢
    exact ⟨e.inScope_of_le h hfirst he.1, updatesInScope_of_le fs h hrest he.2⟩

theorem armsInScope_of_le : ∀ (arms : List (List Match)) {v v' : Visible}, v.Le ids v' →
    varIds (subtermsArms arms) ⊆ ids → armsInScope v arms = true → armsInScope v' arms = true
  | [], v, v', _, _, he => he
  | arm :: arms, v, v', h, hids, he => by
    obtain ⟨hfirst, hrest⟩ := varIds_both hids
    simp only [armsInScope, Bool.and_eq_true] at he ⊢
    exact ⟨matchesInScope_of_le arm h hfirst he.1, armsInScope_of_le arms h hrest he.2⟩

theorem matchesInScope_of_le : ∀ (ms : List Match) {v v' : Visible}, v.Le ids v' →
    varIds (subtermsMatches ms) ⊆ ids → matchesInScope v ms = true → matchesInScope v' ms = true
  | [], v, v', _, _, he => he
  | .draw p e :: ms, v, v', h, hids, he => by
    obtain ⟨hfirst, hrest⟩ := varIds_both hids
    simp only [matchesInScope, Bool.and_eq_true] at he ⊢
    exact ⟨⟨e.inScope_of_le h hfirst he.1.1, p.inScope_of_le h he.1.2⟩,
      matchesInScope_of_le ms (h.withValues _) hrest he.2⟩
  | .define b :: ms, v, v', h, hids, he => by
    obtain ⟨hfirst, hrest⟩ := varIds_both hids
    simp only [matchesInScope, Bool.and_eq_true] at he ⊢
    exact ⟨⟨Bind.signatureInScope_of_le h he.1.1, b.inScope_of_le h hfirst he.1.2⟩,
      matchesInScope_of_le ms (h.withValues _) hrest he.2⟩

theorem Bind.inScope_of_le : ∀ (b : Bind) {v v' : Visible} {own : List Int}, v.Le ids v' →
    varIds b.subterms ⊆ ids → b.inScope v own = true → b.inScope v' own = true
  | .mk _ ps (some e) _ _ _ _, v, v', own, h, hids, he => by
    simp only [Bind.inScope, Bool.and_eq_true, h.typeVars] at he ⊢
    exact ⟨⟨he.1.1, patternsInScope_of_le (h.withTypeVars own) ps he.1.2⟩,
      e.inScope_of_le ((h.withTypeVars own).withValues _) hids he.2⟩
  | .mk _ _ none _ _ _ _, v, v', own, h, _, he => by
    simp only [Bind.inScope, h.typeVars] at he ⊢
    exact he

theorem bindsInScope_of_le : ∀ (bs : List Bind) {v v' : Visible} {group : List Bind},
    v.Le ids v' → varIds (subtermsBinds bs) ⊆ ids → bindsInScope v group bs = true →
    bindsInScope v' group bs = true
  | [], v, v', _, _, _, he => he
  | b :: bs, v, v', group, h, hids, he => by
    obtain ⟨hfirst, hrest⟩ := varIds_both hids
    simp only [bindsInScope, Bool.and_eq_true, List.all_eq_true] at he ⊢
    exact ⟨fun own hown => b.inScope_of_le h hfirst (he.1 own hown),
      bindsInScope_of_le bs h hrest he.2⟩

theorem Decl.inScope_of_le : ∀ (d : Decl) {v v' : Visible}, v.Le ids v' →
    varIds (subtermsDecls [d]) ⊆ ids → d.inScope v = true → d.inScope v' = true
  | .group recursive bs, v, v', h, hids, he => by
    simp only [Decl.inScope, Bool.and_eq_true, List.all_eq_true] at he ⊢
    exact ⟨fun b hb => Bind.signatureInScope_of_le h (he.1 b hb),
      bindsInScope_of_le bs (h.withValues _) (varIds_both hids).1 he.2⟩
  | .synonym _ _ body _, v, v', h, _, he => body.inScope_of_le h he
  | .newtype _ _ fs _ _, v, v', h, _, he => typeFieldsInScope_of_le h fs he
  | .primType _ _ props _, v, v', h, _, he | .paramProps props _, v, v', h, _, he =>
    typesInScope_of_le h props he
  | .paramType _ _ _, v, v', _, _, he => he
  | .paramFun _ _ _, v, v', h, _, he => Signature.inScope_of_le h he
  | .submodule _ ds _, v, v', h, hids, he => declsInScope_of_le ds h (varIds_both hids).1 he

theorem declsInScope_of_le : ∀ (ds : List Decl) {v v' : Visible}, v.Le ids v' →
    varIds (subtermsDecls ds) ⊆ ids → declsInScope v ds = true → declsInScope v' ds = true
  | [], v, v', _, _, he => he
  | d :: ds, v, v', h, hids, he => by
    rw [subtermsDecls_cons] at hids
    obtain ⟨hfirst, hrest⟩ := varIds_both hids
    simp only [declsInScope, Bool.and_eq_true] at he ⊢
    exact ⟨d.inScope_of_le h hfirst he.1, declsInScope_of_le ds (h.declare d) hrest he.2⟩
end

end SizedTypes.Surface
