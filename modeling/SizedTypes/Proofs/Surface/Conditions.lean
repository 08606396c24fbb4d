import SizedTypes.Surface.Expr

/-!
# Conditions on programs

What expressions and declarations may have at any depth.

* Plain expressions have no local declarations, comprehensions, enumerations, selections, updates and
  type arguments. Names are resolved: all of them were handed out before a check starts, and no name
  is bound twice at one place or taken from a primitive.
* A signature brings its parameters into scope by their names while the body of its binding is
  checked. `e.apart ids` says that no signature in `e` names a parameter like a type variable that is
  in scope already: one of `ids`, or a parameter of a signature around it. It also says that no block
  of `e` declares type parameters or constraints of a module, as only modules may.
* A check asks the solver at the end of a group and for the goals of a signature. A body is quiet if
  it has neither: no group in its blocks, and no signature in its comprehensions.
-/

set_option autoImplicit false

namespace SizedTypes.Surface

/-! ## Plain expressions -/

/-- What holds of a pattern if it holds of its parts holds of every pattern. -/
@[elab_as_elim]
theorem Pattern.induction {motive : Pattern → Prop} (var : ∀ n, motive (.var n))
    (wildcard : motive .wildcard) (typed : ∀ p t, motive p → motive (.typed p t))
    (tuple : ∀ ps, (∀ p ∈ ps, motive p) → motive (.tuple ps))
    (record : ∀ fs, (∀ f ∈ fs, motive f.2) → motive (.record fs))
    (list : ∀ ps, (∀ p ∈ ps, motive p) → motive (.list ps))
    (split : ∀ left right, motive left → motive right → motive (.split left right))
    (located : ∀ r p, motive p → motive (.located r p)) (p : Pattern) : motive p :=
  @Pattern.rec motive (fun ps => ∀ p ∈ ps, motive p) (fun fs => ∀ f ∈ fs, motive f.2)
    (fun f => motive f.2) var wildcard typed tuple record list split located
    (fun _ hp => nomatch hp) (fun _ _ hp hps => List.forall_mem_cons.mpr ⟨hp, hps⟩)
    (fun _ hf => nomatch hf) (fun _ _ hf hfs => List.forall_mem_cons.mpr ⟨hf, hfs⟩)
    (fun _ _ hp => hp) p

mutual
/-- The number of names that checking a pattern draws. -/
def Pattern.drawn : Pattern → Nat
  | .var _ => 0
  | .wildcard => 1
  | .typed p _ => p.drawn
  | .tuple ps => drawnList ps + 1
  | .record fs => drawnFields fs + 1
  | .list ps => drawnList ps + 1
  | .split left right => left.drawn + right.drawn + 2
  | .located _ p => p.drawn

def Pattern.drawnList : List Pattern → Nat
  | [] => 0
  | p :: ps => p.drawn + drawnList ps

def Pattern.drawnFields : List (String × Pattern) → Nat
  | [] => 0
  | (_, p) :: fs => p.drawn + drawnFields fs
end

theorem Pattern.drawnFields_eq (fs : List (String × Pattern)) :
    drawnFields fs = drawnList (fs.map Prod.snd) := by
  induction fs with
  | nil => rfl
  | cons f fs ih => rw [drawnFields, List.map_cons, drawnList, ih]

theorem Pattern.varsFields_eq (fs : List (String × Pattern)) :
    varsFields fs = varsList (fs.map Prod.snd) := by
  induction fs with
  | nil => rfl
  | cons f fs ih => rw [varsFields, List.map_cons, varsList, ih]

mutual
/-- The number of names that checking a plain expression draws. -/
def Expr.drawn : Expr → Nat
  | .tuple es => drawnEach es
  | .record fs => drawnFields fs
  | .list es => drawnEach es
  | .app f a => f.drawn + a.drawn
  | .ifThenElse c t e => c.drawn + t.drawn + e.drawn
  | .typed e _ => e.drawn
  | .lambda ps body => Pattern.drawnList ps + body.drawn
  | .located _ e => e.drawn
  | _ => 0

def Expr.drawnEach : List Expr → Nat
  | [] => 0
  | e :: es => e.drawn + drawnEach es

def Expr.drawnFields : List (String × Expr) → Nat
  | [] => 0
  | (_, e) :: fs => e.drawn + drawnFields fs
end

/-- Names that a function binds: all different, handed out before `N`, and none of them that of
the primitive which splits sequences. -/
structure Binders (N : Int) (prims : List (String × Name)) (ns : List Name) : Prop where
  nodup : (ns.map Name.id).Nodup
  below : ∀ n ∈ ns, n.id < N
  notSplit : ∀ n ∈ ns, ∀ x, prims.lookup "splitAt" = some x → n.id ≠ x.id

namespace Binders

variable {N : Int} {prims : List (String × Name)} {ns ns' : List Name}

theorem left (h : Binders N prims (ns ++ ns')) : Binders N prims ns where
  nodup := by
    have hnodup := h.nodup
    rw [List.map_append] at hnodup
    exact (List.nodup_append.mp hnodup).1
  below n hn := h.below n (List.mem_append_left _ hn)
  notSplit n hn := h.notSplit n (List.mem_append_left _ hn)

theorem right (h : Binders N prims (ns ++ ns')) : Binders N prims ns' where
  nodup := by
    have hnodup := h.nodup
    rw [List.map_append] at hnodup
    exact (List.nodup_append.mp hnodup).2.1
  below n hn := h.below n (List.mem_append_right _ hn)
  notSplit n hn := h.notSplit n (List.mem_append_right _ hn)

theorem disjoint (h : Binders N prims (ns ++ ns')) {n m : Name} (hn : n ∈ ns) (hm : m ∈ ns') :
    n.id ≠ m.id := by
  have hnodup := h.nodup
  rw [List.map_append] at hnodup
  exact (List.nodup_append.mp hnodup).2.2 _ (List.mem_map_of_mem hn) _ (List.mem_map_of_mem hm)

end Binders

/-- An expression of the plain part of the language. -/
inductive Expr.Plain (N : Int) (prims : List (String × Name)) : Expr → Prop
  | var {n : Name} : n.id < N → Plain N prims (.var n)
  | num {value base digits : Int} : Plain N prims (.num value base digits)
  | frac {num den : Int} : Plain N prims (.frac num den)
  | char {code : Int} : Plain N prims (.char code)
  | string {s : String} : Plain N prims (.string s)
  | tuple {es : List Expr} : (∀ e ∈ es, Plain N prims e) → Plain N prims (.tuple es)
  | record {fs : List (String × Expr)} : (fs.map Prod.fst).Nodup →
      (∀ f ∈ fs, Plain N prims f.2) → Plain N prims (.record fs)
  | list {es : List Expr} : (∀ e ∈ es, Plain N prims e) → Plain N prims (.list es)
  | app {f a : Expr} : Plain N prims f → Plain N prims a → Plain N prims (.app f a)
  | ifThenElse {c t e : Expr} : Plain N prims c → Plain N prims t → Plain N prims e →
      Plain N prims (.ifThenElse c t e)
  | typed {e : Expr} {t : TypeExpr} : Plain N prims e → Plain N prims (.typed e t)
  | lambda {ps : List Pattern} {body : Expr} : Binders N prims (Pattern.varsList ps) →
      Plain N prims body → Plain N prims (.lambda ps body)
  | located {r : Range} {e : Expr} : Plain N prims e → Plain N prims (.located r e)

/-! ## Signatures that name their parameters apart -/

/-- A declaration that changes which type parameters or assumptions are in force. -/
def Decl.changesParams : Decl → Bool
  | .paramType .. | .paramProps .. => true
  | _ => false

/-- The ids of the names of the parameters of a binding's signature. -/
def Bind.paramIds (b : Bind) : List Int :=
  match b.signature with
  | some sig => sig.params.map fun p => p.name.id
  | none => []

/-- The parameters of the signatures for a name among bindings. -/
def paramIdsOf (binds : List Bind) (id : Int) : List Int :=
  binds.flatMap fun b => if b.name.id = id then b.paramIds else []

mutual
def Expr.apart (ids : List Int) : Expr → Bool
  | .tuple es => apartEach ids es
  | .record fs => apartFields ids fs
  | .select e _ => e.apart ids
  | .update r fs => r.apart ids && apartUpdates ids fs
  | .updater fs => apartUpdates ids fs
  | .list es => apartEach ids es
  | .from first => first.apart ids
  | .fromThen first next => first.apart ids && next.apart ids
  | .comp result arms => result.apart ids && apartArms ids arms
  | .app f a => f.apart ids && a.apart ids
  | .ifThenElse c t e => c.apart ids && t.apart ids && e.apart ids
  | .block body ds => body.apart ids && ds.all (fun d => !d.changesParams) && apartDecls ids ds
  | .typed e _ => e.apart ids
  | .lambda _ body => body.apart ids
  | .located _ e => e.apart ids
  | _ => true

def apartEach (ids : List Int) : List Expr → Bool
  | [] => true
  | e :: es => e.apart ids && apartEach ids es

def apartFields (ids : List Int) : List (String × Expr) → Bool
  | [] => true
  | (_, e) :: fs => e.apart ids && apartFields ids fs

def apartUpdates (ids : List Int) : List (List Selector × UpdateHow × Expr) → Bool
  | [] => true
  | (_, _, e) :: fs => e.apart ids && apartUpdates ids fs

def apartArms (ids : List Int) : List (List Match) → Bool
  | [] => true
  | arm :: arms => apartMatches ids arm && apartArms ids arms

def apartMatches (ids : List Int) : List Match → Bool
  | [] => true
  | .draw _ e :: ms => e.apart ids && apartMatches ids ms
  | .define b :: ms => b.apart ids b.paramIds && apartMatches ids ms

/-- The body is checked with the parameters `own` in scope besides. -/
def Bind.apart (ids own : List Int) : Bind → Bool
  | .mk _ _ (some e) _ _ _ _ => own.all (fun id => !ids.contains id) && e.apart (ids ++ own)
  | .mk _ _ none _ _ _ _ => own.all fun id => !ids.contains id

/-- Of several bindings of a group with one name, each may be checked against the signature of
another. -/
def apartBinds (ids : List Int) (group : List Bind) : List Bind → Bool
  | [] => true
  | b :: bs => b.apart ids (paramIdsOf group b.name.id) && apartBinds ids group bs

def apartDecls (ids : List Int) : List Decl → Bool
  | [] => true
  | .group _ bs :: ds => apartBinds ids bs bs && apartDecls ids ds
  | .submodule _ inner _ :: ds => apartDecls ids inner && apartDecls ids ds
  | _ :: ds => apartDecls ids ds
end

/-! ## Declarations at any depth

The declarations of a program with those of all its expressions, and how they bind a variable.
-/

mutual
/-- The declarations in an expression, at any depth. -/
def Expr.nested : Expr → List Decl
  | .tuple es => nestedEach es
  | .record fs => nestedFields fs
  | .select e _ => e.nested
  | .update record fields => record.nested ++ nestedUpdates fields
  | .updater fields => nestedUpdates fields
  | .list es => nestedEach es
  | .from first => first.nested
  | .fromThen first next => first.nested ++ next.nested
  | .comp result arms => result.nested ++ nestedArms arms
  | .app f a => f.nested ++ a.nested
  | .ifThenElse c t e => c.nested ++ (t.nested ++ e.nested)
  | .block body ds => body.nested ++ nestedDecls ds
  | .typed e _ => e.nested
  | .lambda _ body => body.nested
  | .located _ e => e.nested
  | _ => []

def nestedEach : List Expr → List Decl
  | [] => []
  | e :: es => e.nested ++ nestedEach es

def nestedFields : List (String × Expr) → List Decl
  | [] => []
  | (_, e) :: fs => e.nested ++ nestedFields fs

def nestedUpdates : List (List Selector × UpdateHow × Expr) → List Decl
  | [] => []
  | (_, _, e) :: fs => e.nested ++ nestedUpdates fs

def nestedArms : List (List Match) → List Decl
  | [] => []
  | arm :: arms => nestedMatches arm ++ nestedArms arms

def nestedMatches : List Match → List Decl
  | [] => []
  | .draw _ e :: ms => e.nested ++ nestedMatches ms
  | .define b :: ms => b.nested ++ nestedMatches ms

def Bind.nested : Bind → List Decl
  | .mk _ _ (some e) _ _ _ _ => e.nested
  | .mk _ _ none _ _ _ _ => []

def nestedBinds : List Bind → List Decl
  | [] => []
  | b :: bs => b.nested ++ nestedBinds bs

/-- A declaration and those in it. -/
def Decl.nested : Decl → List Decl
  | .group recursive binds => .group recursive binds :: nestedBinds binds
  | .submodule n ds range => .submodule n ds range :: nestedDecls ds
  | d => [d]

def nestedDecls : List Decl → List Decl
  | [] => []
  | d :: ds => d.nested ++ nestedDecls ds
end

def Module.nested (m : Module) : List Decl := nestedDecls m.decls

/-- If a declaration brings the variable with the id `x` into scope, then by a binding, one of each
group: the variable is no constructor and no parameter function. -/
def Decl.OnlyBinds (x : Int) : Decl → Prop
  | .group _ binds => (binds.map fun b => b.name.id).count x ≤ 1
  | .newtype n _ _ conName _ => ((conName.filter fun c => c.ident != "").getD n).id ≠ x
  | .paramFun n _ _ => n.id ≠ x
  | _ => True

/-! ### Bodies that ask nothing -/

/-- A definition of a comprehension that has a signature. -/
def Match.signed : Match → Bool
  | .draw _ _ => false
  | .define b => b.signature.isSome

/-- A comprehension with a signature of its own. -/
def Expr.signed : Expr → Bool
  | .comp _ arms => arms.any fun ms => ms.any Match.signed
  | _ => false

/-- `ds` are the declarations at any depth of a piece of a program, `es` its expressions. -/
structure Quiet (ds : List Decl) (es : List Expr) : Prop where
  groupless : ∀ d ∈ ds, d.form ≠ "BindGroup"
  unsigned : ∀ e ∈ es, e.signed = false

def Bind.Quiet (b : Bind) : Prop := Surface.Quiet b.nested b.subterms

instance (ds : List Decl) (es : List Expr) : Decidable (Quiet ds es) :=
  decidable_of_iff ((∀ d ∈ ds, d.form ≠ "BindGroup") ∧ ∀ e ∈ es, e.signed = false)
    ⟨fun h => ⟨h.1, h.2⟩, fun h => ⟨h.groupless, h.unsigned⟩⟩

instance (b : Bind) : Decidable b.Quiet := inferInstanceAs (Decidable (Surface.Quiet ..))

variable {d : Decl} {ds ds' : List Decl} {e : Expr} {es es' : List Expr}

@[simp] theorem quiet_append :
    Quiet (ds ++ ds') (es ++ es') ↔ Quiet ds es ∧ Quiet ds' es' := by
  constructor
  · intro h
    have hds := List.forall_mem_append.mp h.groupless
    have hes := List.forall_mem_append.mp h.unsigned
    exact ⟨⟨hds.1, hes.1⟩, ⟨hds.2, hes.2⟩⟩
  · rintro ⟨h, h'⟩
    exact ⟨List.forall_mem_append.mpr ⟨h.groupless, h'.groupless⟩,
      List.forall_mem_append.mpr ⟨h.unsigned, h'.unsigned⟩⟩

@[simp] theorem quiet_cons_expr : Quiet ds (e :: es) ↔ e.signed = false ∧ Quiet ds es := by
  constructor
  · intro h
    have hes := List.forall_mem_cons.mp h.unsigned
    exact ⟨hes.1, ⟨h.groupless, hes.2⟩⟩
  · rintro ⟨he, h⟩
    exact ⟨h.groupless, List.forall_mem_cons.mpr ⟨he, h.unsigned⟩⟩

/-- The declarations of a quiet block, one after the other. -/
theorem Quiet.decls_cons (h : Quiet (nestedDecls (d :: ds)) (subtermsDecls (d :: ds))) :
    (∀ recursive bs, d ≠ .group recursive bs) ∧
    (∀ n inner range, d = .submodule n inner range →
      Quiet (nestedDecls inner) (subtermsDecls inner)) ∧
    Quiet (nestedDecls ds) (subtermsDecls ds) := by
  have hds := List.forall_mem_append.mp h.groupless
  cases d with
  | group recursive bs => exact absurd rfl (h.groupless _ (List.mem_cons_self ..))
  | submodule n inner range =>
    have hes := List.forall_mem_append.mp h.unsigned
    have hinner := List.forall_mem_cons.mp hds.1
    refine ⟨by simp, ?_, ⟨hds.2, hes.2⟩⟩
    rintro _ _ _ ⟨⟩
    exact ⟨hinner.2, hes.1⟩
  | synonym | newtype | primType | paramType | paramProps | paramFun =>
    exact ⟨by simp, by simp, ⟨hds.2, h.unsigned⟩⟩

end SizedTypes.Surface
