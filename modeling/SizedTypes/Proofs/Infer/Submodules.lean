import Mathlib
import SizedTypes.Proofs.Infer.Frame.Recursion

/-!
# Closing a submodule

What a submodule declares stays visible when its scope is closed: types are merged into the scope
around it, values stay in the table of variables. Its type parameters and constraints stay behind.
Its parameter functions are values like any others, so they stay visible, too.
-/

set_option autoImplicit false

namespace SizedTypes.Infer

open SizedTypes.Core (Decl Group Module)

variable {c : Context} {s s₁ s' : State} {values before : List (Name × Schema)}

/-! ## The content of a scope -/

/-- `values` are the values that have been declared in a scope, in their order. Its content has the
bindings, the constructors of newtypes and the parameter functions among them. -/
structure Records (content : Module) (values : List (Name × Schema)) : Prop where
  synonyms : content.synonyms.Sorted
  newtypes : content.newtypes.Sorted
  primTypes : content.primTypes.Sorted
  bindings : ∀ g ∈ content.groups, ∀ d ∈ g.decls, (d.name, d.schema) ∈ values
  constructors : ∀ e ∈ content.newtypes, (e.2.conName, e.2.conSchema) ∈ values
  paramFuns : ∀ e ∈ content.paramFuns, ∃ n : Name, n.id = e.1 ∧ (n, e.2) ∈ values

namespace Records

theorem empty (n : Name) : Records (.empty n) [] where
  synonyms := .nil
  newtypes := .nil
  primTypes := .nil
  bindings := by simp [Module.empty]
  constructors := by simp [Module.empty]
  paramFuns := by simp [Module.empty]

variable {content child : Module}

theorem append (h : Records content before) (values : List (Name × Schema)) :
    Records content (before ++ values) where
  synonyms := h.synonyms
  newtypes := h.newtypes
  primTypes := h.primTypes
  bindings g hg d hd := List.mem_append_left _ (h.bindings g hg d hd)
  constructors e he := List.mem_append_left _ (h.constructors e he)
  paramFuns e he := by
    obtain ⟨n, hn, hmem⟩ := h.paramFuns e he
    exact ⟨n, hn, List.mem_append_left _ hmem⟩

theorem addSynonym (h : Records content values) (ts : TypeSynonym) :
    Records { content with synonyms := content.synonyms.insert ts.name.id ts } values :=
  { h with synonyms := Table.sorted_insert h.synonyms }

theorem addPrimType (h : Records content values) (pt : PrimType) :
    Records { content with primTypes := content.primTypes.insert pt.name.id pt } values :=
  { h with primTypes := Table.sorted_insert h.primTypes }

theorem addParamType (h : Records content values) (p : ModuleParam) :
    Records { content with paramTypes := content.paramTypes.insert p.name.id p } values :=
  { h with }

theorem addParamProps (h : Records content values) (ps : List Ty) :
    Records { content with paramProps := content.paramProps ++ ps } values := { h with }

theorem addNewtype (h : Records content before) (nt : Newtype) :
    Records { content with newtypes := content.newtypes.insert nt.name.id nt }
      (before ++ [(nt.conName, nt.conSchema)]) :=
  { h.append _ with
    newtypes := Table.sorted_insert h.newtypes
    constructors := Table.forall_mem_insert (by simp) (h.append _).constructors }

theorem addParamFun (h : Records content before) (n : Name) (sc : Schema) :
    Records { content with paramFuns := content.paramFuns.insert n.id sc } (before ++ [(n, sc)]) :=
  { h.append _ with
    paramFuns := Table.forall_mem_insert ⟨n, rfl, by simp⟩ (h.append _).paramFuns }

theorem addGroup (h : Records content before) (recursive : Bool) (ds : List Decl) :
    Records { content with groups := content.groups ++ [.mk recursive ds] }
      (before ++ ds.map fun d => (d.name, d.schema)) :=
  { h.append _ with
    bindings := by
      refine List.forall_mem_append.mpr ⟨(h.append _).bindings, ?_⟩
      rw [List.forall_mem_singleton]
      exact fun d hd => List.mem_append_right _ (List.mem_map_of_mem hd) }

/-- The parameters of a submodule are left out of the content around it. -/
theorem absorb (h : Records content before) (hchild : Records child values) :
    Records (Scope.absorb content child) (before ++ values) where
  synonyms := Table.sorted_union h.synonyms _
  newtypes := Table.sorted_union h.newtypes _
  primTypes := Table.sorted_union h.primTypes _
  bindings := List.forall_mem_append.mpr ⟨(h.append _).bindings, fun g hg d hd =>
    List.mem_append_right _ (hchild.bindings g hg d hd)⟩
  constructors := Table.forall_mem_union (h.append _).constructors fun e he =>
    List.mem_append_right _ (hchild.constructors e he)
  paramFuns := (h.append _).paramFuns

end Records

/-! ## Values of declarations -/

/-- The definitions of the group that has been added last. -/
def lastGroup (m : Module) : List (Name × Schema) :=
  ((m.groups.getLast?.map Group.decls).getD []).map fun d => (d.name, d.schema)

/-- The constructor of the newtype of this name. -/
def constructorOf (n : Name) (m : Module) : List (Name × Schema) :=
  (m.newtypes.find? n.id).toList.map fun nt => (nt.conName, nt.conSchema)

/-- The parameter function of this name. -/
def paramFunOf (n : Name) (m : Module) : List (Name × Schema) :=
  (m.paramFuns.find? n.id).toList.map fun sc => (n, sc)

/-- The state in which a computation ends. -/
def endState {α : Type} (act : Infer α) (c : Context) (s : State) : State := (act.exec c s).2

/-- The values that the innermost scope records. -/
def State.recorded (s : State) (values : Module → List (Name × Schema)) : List (Name × Schema) :=
  match s.scopes with
  | [] => []
  | sc :: _ => values sc.content

mutual
/-- The values that declarations declare when they are checked from a state on, one declaration after
the other, with the schemas that they are given. -/
def givenByDecls (top : Bool) (c : Context) : List Surface.Decl → State → List (Name × Schema)
  | [], _ => []
  | d :: ds, s =>
    if s.cancelled then []
    else givenByDecl top c d s ++ givenByDecls top c ds (endState (checkDecl top d) c s)

/-- The values of one declaration: what the innermost scope records of it as soon as it has been
checked, and what the declarations of a submodule declare in the scope that is opened for it. -/
def givenByDecl (top : Bool) (c : Context) : Surface.Decl → State → List (Name × Schema)
  | .group recursive binds, s =>
    (endState (checkDecl top (.group recursive binds)) c s).recorded lastGroup
  | .newtype n params fields conName range, s =>
    (endState (checkNewtype n params fields conName range) c s).recorded (constructorOf n)
  | .paramFun n sig range, s =>
    (endState (checkDecl top (.paramFun n sig range)) c s).recorded (paramFunOf n)
  | .submodule n ds range, s =>
    givenByDecls true (c.located range) ds { s with scopes := ⟨.submodule, .empty n⟩ :: s.scopes }
  | .synonym .., _ | .primType .., _ | .paramType .., _ | .paramProps .., _ => []
end

theorem endState_of_returns {α : Type} {act : Infer α} {a : α} (h : Returns act c s a s') :
    endState act c s = s' := by
  rw [endState, h]

theorem State.recorded_of_scopes {sc : Scope} {rest : List Scope} (h : s.scopes = sc :: rest)
    (values : Module → List (Name × Schema)) : s.recorded values = values sc.content := by
  rw [recorded, h]

/-! ## What declarations leave -/

/-- A value, as it is declared. -/
def knownVar (v : Name × Schema) : Name × VarType := (v.1, .known v.2)

/-- `s'` comes after `s` by declarations of `values`: these are declared variables, and the content
of the innermost scope records them besides those before. -/
structure Fills (values : List (Name × Schema)) (s s' : State) : Prop
    extends Declared (values.map knownVar) s s' where
  scopes : ∀ sc rest, s.scopes = sc :: rest → ∃ content, s'.scopes = ⟨sc.kind, content⟩ :: rest ∧
    ∀ before, Records sc.content before → Records content (before ++ values)

namespace Fills

variable {values' : List (Name × Schema)}

theorem of_frame (h : Frame s s') : Fills [] s s' where
  toDeclared := h.declared
  scopes sc rest hsc := ⟨sc.content, h.scopes.trans hsc, fun before hb => by
    rwa [List.append_nil]⟩

theorem trans (h : Fills values s s₁) (h' : Fills values' s₁ s') :
    Fills (values ++ values') s s' where
  toDeclared := by
    rw [List.map_append]
    exact h.toDeclared.trans h'.toDeclared
  scopes sc rest hsc := by
    obtain ⟨content, hscopes, hrecords⟩ := h.scopes sc rest hsc
    obtain ⟨content', hscopes', hrecords'⟩ := h'.scopes _ rest hscopes
    refine ⟨content', hscopes', fun before hb => ?_⟩
    rw [← List.append_assoc]
    exact hrecords' _ (hrecords before hb)

/-- The content of the innermost scope changes by `f`, which records what is declared. -/
theorem of_content (f : Module → Module) {sc : Scope} {rest : List Scope}
    (hdeclared : Declared (values.map knownVar) s s') (hsc : s.scopes = sc :: rest)
    (hsc' : s'.scopes = { sc with content := f sc.content } :: rest)
    (hf : ∀ content before, Records content before → Records (f content) (before ++ values)) :
    Fills values s s' where
  toDeclared := hdeclared
  scopes sc₁ rest₁ hsc₁ := by
    obtain ⟨rfl, rfl⟩ := List.cons.inj (hsc₁.symm.trans hsc)
    exact ⟨f sc₁.content, hsc', hf sc₁.content⟩

end Fills

/-- Types are added to the content of the innermost scope. -/
theorem fills_modifyScope {f : Module → Module} {a : Unit}
    (hf : ∀ content before, Records content before → Records (f content) before)
    (h : Returns (modifyScope f) c s a s') : Fills [] s s' := by
  obtain ⟨sc, rest, hsc, rfl⟩ := returns_modifyScope h
  refine .of_content f (filled_modifyScope h).toDeclared hsc rfl fun content before hb => ?_
  rw [List.append_nil]
  exact hf content before hb

theorem fills_checkSynonym {n : Name} {params : List Surface.TypeParam} {body : Surface.TypeExpr}
    {range : Range} {a : Unit} (h : Returns (checkSynonym n params body range) c s a s') :
    Fills [] s s' := by
  obtain ⟨ws, ps, k, s₁, t, k', s₂, ts, hdeclare, hinfer, -, -, -, hadd⟩ :=
    returns_checkSynonym h
  have hbefore := ((frame_warnings s ws).trans ((Kinding.framed_declare _).step hdeclare)).trans
    ((Kinding.framed_infer ..).step hinfer)
  exact (Fills.of_frame hbefore).trans (fills_modifyScope (fun _ _ hb => hb.addSynonym ts) hadd)

theorem fills_checkPrimType {n : Name} {kind : Kind} {props : List Surface.TypeExpr} {range : Range}
    {a : Unit} (h : Returns (checkPrimType n kind props range) c s a s') : Fills [] s s' := by
  obtain ⟨ps, k, s₁, hprops, hadd⟩ := returns_checkPrimType h
  exact (Fills.of_frame ((Kinding.framed_checkProps _).step hprops)).trans
    (fills_modifyScope (fun _ _ hb => hb.addPrimType _) hadd)

theorem fills_checkParamType {n : Name} {kind : Kind} {a : Unit}
    (h : Returns (checkParamType n kind) c s a s') : Fills [] s s' := by
  obtain ⟨p, s₁, hframe, hadd⟩ := returns_checkParamType h
  exact (Fills.of_frame hframe).trans (fills_modifyScope (fun _ _ hb => hb.addParamType _) hadd)

theorem fills_checkParamProps {props : List Surface.TypeExpr} {range : Range} {a : Unit}
    (h : Returns (checkParamProps props range) c s a s') : Fills [] s s' := by
  obtain ⟨ps, k, s₁, s₂, s₃, hprops, hframe, hadd, hframe'⟩ := returns_checkParamProps h
  have hbefore := ((Kinding.framed_checkProps _).step hprops).trans hframe
  exact ((Fills.of_frame hbefore).trans
    (fills_modifyScope (fun _ _ hb => hb.addParamProps ps) hadd)).trans (.of_frame hframe')

/-- The constructor of a newtype is declared once its type is in the scope. -/
theorem fills_checkNewtype {n : Name} {params : List Surface.TypeParam}
    {fields : List (String × Surface.TypeExpr)} {conName : Option Name} {range : Range} {a : Unit}
    (h : Returns (checkNewtype n params fields conName range) c s a s') :
    (s'.recorded (constructorOf n)).length = 1 ∧ Fills (s'.recorded (constructorOf n)) s s' := by
  obtain ⟨ps, k, s₁, fs, k', s₂, nt, s₃, hdeclare, hfields, -, -, -, rfl, hadd, rfl⟩ :=
    returns_checkNewtype h
  have hbefore := ((Kinding.framed_declare _).step hdeclare).trans
    ((Kinding.framed_checkFields _).step hfields)
  obtain ⟨sc, rest, hsc, hs₃⟩ := returns_modifyScope hadd
  have hdeclared := (filled_modifyScope hadd).toDeclared.trans
    (.push s₃ (knownVar (nt.conName, nt.conSchema)))
  let add (m : Module) : Module := { m with newtypes := m.newtypes.insert nt.name.id nt }
  have hscopes : (s₃.push (knownVar (nt.conName, nt.conSchema))).scopes =
      { sc with content := add sc.content } :: rest := hs₃ ▸ rfl
  have hvalues : constructorOf nt.name (add sc.content) = [(nt.conName, nt.conSchema)] := by
    rw [constructorOf, Table.find?_insert_self]
    rfl
  rw [show (nt.conName, VarType.known nt.conSchema) = knownVar (nt.conName, nt.conSchema) from rfl,
    State.recorded_of_scopes hscopes, hvalues]
  exact ⟨rfl, (Fills.of_frame hbefore).trans
    (.of_content add hdeclared hsc hscopes fun _ _ hb => hb.addNewtype nt)⟩

theorem fills_paramFun {top : Bool} {n : Name} {sig : Surface.Signature} {range : Range} {k : Nat}
    (h : Returns (checkDecl top (.paramFun n sig range)) c s k s') :
    (s'.recorded (paramFunOf n)).length = k ∧ Fills (s'.recorded (paramFunOf n)) s s' := by
  obtain ⟨sc, s₁, s₂, hsig, hadd, rfl, rfl⟩ := returns_checkDecl_paramFun h
  obtain ⟨scope, rest, hscope, hs₂⟩ := returns_modifyScope hadd
  have hdeclared := (filled_modifyScope hadd).toDeclared.trans (.push s₂ (knownVar (n, sc)))
  let add (m : Module) : Module := { m with paramFuns := m.paramFuns.insert n.id sc }
  have hscopes : (s₂.push (knownVar (n, sc))).scopes =
      { scope with content := add scope.content } :: rest := hs₂ ▸ rfl
  have hvalues : paramFunOf n (add scope.content) = [(n, sc)] := by
    rw [paramFunOf, Table.find?_insert_self]
    rfl
  rw [show (n, VarType.known sc) = knownVar (n, sc) from rfl, State.recorded_of_scopes hscopes,
    hvalues]
  exact ⟨rfl, (Fills.of_frame ((framed_checkSignature _).step hsig)).trans
    (.of_content add hdeclared hscope hscopes fun _ _ hb => hb.addParamFun n sc)⟩

theorem fills_group {top recursive : Bool} {binds : List Surface.Bind} {k : Nat}
    (h : Returns (checkDecl top (.group recursive binds)) c s k s') (hs : s.vars.Sorted) :
    (s'.recorded lastGroup).length = k ∧ Fills (s'.recorded lastGroup) s s' := by
  obtain ⟨plan, s₁, out, s₂, hplan, hgroup, hadd, rfl⟩ := returns_checkDecl_group h
  obtain ⟨vs, hlen, hdeclared, hscopes⟩ := declared_planGroup hplan
  have hframe := frame_checkGroup hdeclared hscopes hlen hs (scoped_checkGeneral binds plan)
    (scoped_checkOthers binds plan) hgroup
  obtain ⟨sc, rest, hsc, hs'⟩ := returns_modifyScope hadd
  rw [scopes_pushAll] at hsc
  have hout : (out.map fun d => (d.name, d.schema)).map knownVar = out.map declVar := by
    rw [List.map_map]
    rfl
  have hdeclared :=
    (Declared.pushAll s₂ (out.map declVar)).trans (filled_modifyScope hadd).toDeclared
  rw [List.append_nil, ← hout] at hdeclared
  let add (m : Module) : Module := { m with groups := m.groups ++ [.mk recursive out] }
  have hscopes : s'.scopes = { sc with content := add sc.content } :: rest := hs' ▸ rfl
  have hvalues : lastGroup (add sc.content) = out.map fun d => (d.name, d.schema) := by
    rw [lastGroup, List.getLast?_concat]
    rfl
  rw [State.recorded_of_scopes hscopes, hvalues]
  exact ⟨List.length_map .., (Fills.of_frame hframe).trans
    (.of_content add hdeclared hsc hscopes fun _ _ hb => hb.addGroup recursive out)⟩

/-- A closed submodule, between the state in which its scope has been opened and the one just before
it is closed. -/
theorem fills_submodule {n : Name} {params : List Param} {assumptions : Assumptions} {a : Unit}
    (h : Fills values { s with scopes := ⟨.submodule, .empty n⟩ :: s.scopes } s₁)
    (hclose : Returns closeSubmodule c { s₁ with params, assumptions } a s') :
    Fills values s s' := by
  obtain ⟨content, hscopes, hrecords⟩ := h.scopes _ _ rfl
  obtain ⟨child, parent, rest, hsc, -, rfl⟩ := returns_closeSubmodule hclose
  obtain ⟨rfl, hrest⟩ := List.cons.inj (hscopes.symm.trans hsc)
  have hdeclared : Declared (values.map knownVar) s { s₁ with
      params, assumptions
      scopes := { parent with content := Scope.absorb parent.content content } :: rest } :=
    h.toDeclared.of_opened.closed_scopes
  exact .of_content (fun m => Scope.absorb m content) hdeclared hrest rfl fun _ _ hb =>
    hb.absorb (hrecords [] (.empty n))

mutual
theorem fills_checkDecls : ∀ (ds : List Surface.Decl) {top : Bool} {k : Nat} {c : Context}
    {s s' : State}, Returns (checkDecls top ds) c s k s' → s.vars.Sorted →
    (givenByDecls top c ds s).length = k ∧ Fills (givenByDecls top c ds s) s s'
  | [], top, k, c, s, s', h, _ => by
    rw [checkDecls, returns_pure] at h
    obtain ⟨rfl, rfl⟩ := h
    exact ⟨rfl, .of_frame (.refl _)⟩
  | d :: ds, top, k, c, s, s', h, hs => by
    rw [checkDecls, returns_get_bind] at h
    rw [givenByDecls]
    split at h
    · obtain ⟨rfl, rfl⟩ := returns_pure.mp h
      rename_i hcancelled
      rw [if_pos hcancelled]
      exact ⟨rfl, .of_frame (.refl _)⟩
    · rename_i hcancelled
      simp only [returns_bind, returns_pure] at h
      obtain ⟨m, s₁, hd, n, _, hds, rfl, rfl⟩ := h
      obtain ⟨rfl, hfills⟩ := fills_checkDecl d hd hs
      obtain ⟨rfl, hfills'⟩ := fills_checkDecls ds hds (hfills.sorted hs)
      rw [if_neg hcancelled, endState_of_returns hd]
      exact ⟨List.length_append, hfills.trans hfills'⟩

theorem fills_checkDecl : ∀ (d : Surface.Decl) {top : Bool} {k : Nat} {c : Context} {s s' : State},
    Returns (checkDecl top d) c s k s' → s.vars.Sorted →
    (givenByDecl top c d s).length = k ∧ Fills (givenByDecl top c d s) s s'
  | .synonym n params body range, top, k, c, s, s', h, _ => by
    simp only [checkDecl, returns_bind, returns_pure] at h
    obtain ⟨⟨⟩, _, h, rfl, rfl⟩ := h
    rw [givenByDecl]
    exact ⟨rfl, fills_checkSynonym h⟩
  | .newtype n params fields conName range, top, k, c, s, s', h, _ => by
    simp only [checkDecl, returns_bind, returns_pure] at h
    obtain ⟨⟨⟩, _, h, rfl, rfl⟩ := h
    rw [givenByDecl, endState_of_returns h]
    exact fills_checkNewtype h
  | .primType n kind props range, top, k, c, s, s', h, _ => by
    simp only [checkDecl, returns_bind, returns_pure] at h
    obtain ⟨⟨⟩, _, h, rfl, rfl⟩ := h
    rw [givenByDecl]
    exact ⟨rfl, fills_checkPrimType h⟩
  | .paramType n kind range, top, k, c, s, s', h, _ => by
    simp only [checkDecl, returns_bind, returns_pure] at h
    obtain ⟨⟨⟩, _, h, rfl, rfl⟩ := h
    rw [givenByDecl]
    exact ⟨rfl, fills_checkParamType h⟩
  | .paramProps props range, top, k, c, s, s', h, _ => by
    simp only [checkDecl, returns_bind, returns_pure] at h
    obtain ⟨⟨⟩, _, h, rfl, rfl⟩ := h
    rw [givenByDecl]
    exact ⟨rfl, fills_checkParamProps h⟩
  | .paramFun n sig range, top, k, c, s, s', h, _ => by
    rw [givenByDecl, endState_of_returns h]
    exact fills_paramFun h
  | .group recursive binds, top, k, c, s, s', h, hs => by
    rw [givenByDecl, endState_of_returns h]
    exact fills_group h hs
  | .submodule n ds range, top, k, c, s, s', h, hs => by
    obtain ⟨s₁, hds, hclose⟩ := returns_checkDecl_submodule h
    obtain ⟨hlen, hfills⟩ := fills_checkDecls ds hds hs
    rw [givenByDecl]
    exact ⟨hlen, fills_submodule hfills hclose⟩
end

/-! ## What is visible -/

/-- The schema of the last value that has been declared with an id. -/
def lastSchema (values : List (Name × Schema)) (id : Int) : Option Schema :=
  (values.reverse.find? fun v => v.1.id == id).map Prod.snd

theorem lastSchema_cons (v : Name × Schema) (values : List (Name × Schema)) (id : Int) :
    lastSchema (v :: values) id =
      (lastSchema values id).or (if id = v.1.id then some v.2 else none) := by
  unfold lastSchema
  rw [List.reverse_cons, List.find?_append, Option.map_or, List.find?_singleton]
  by_cases h : id = v.1.id
  · simp [h]
  · simp [h, Ne.symm h]

theorem find?_pushAll (s : State) (values : List (Name × Schema)) (id : Int) :
    (s.pushAll (values.map knownVar)).vars.find? id =
      ((lastSchema values id).map .known).or (s.vars.find? id) := by
  induction values generalizing s with
  | nil => rfl
  | cons v values ih =>
    rw [List.map_cons, State.pushAll, List.foldl_cons, ← State.pushAll, ih, lastSchema_cons]
    have hpush : (s.push (knownVar v)).vars.find? id =
        if id = v.1.id then some (.known v.2) else s.vars.find? id := Table.find?_insert ..
    rw [hpush]
    cases lastSchema values id with
    | some sc => rfl
    | none => split <;> rfl

/-- A variable is what it was declared as last, or what it was before. -/
theorem Fills.typeOf (h : Fills values s s') (E : External) (id : Int) :
    s'.typeOf E id = ((lastSchema values id).map .known).or (s.typeOf E id) := by
  rw [State.typeOf, State.typeOf, h.vars, find?_pushAll, Option.or_assoc]

/-- In both states the same types are found. -/
structure SameTypes (c : Context) (s s' : State) : Prop where
  synonyms : ∀ id, ((lookupSynonym id).exec c s').1 = ((lookupSynonym id).exec c s).1
  newtypes : ∀ id, ((lookupNewtype id).exec c s').1 = ((lookupNewtype id).exec c s).1
  primTypes : ∀ id, ((lookupPrimType id).exec c s').1 = ((lookupPrimType id).exec c s).1

/-- A table in order that is merged into that of the next scope is found there. -/
theorem lookup_absorb {α : Type} {table : Module → Table Int α} {child : Scope} {parent : Scope}
    {absorbed : Module} (hchild : (table child.content).Sorted)
    (habsorb : table absorbed = (table parent.content).union (table child.content))
    (external : Table Int α) (id : Int) (rest : List Scope) :
    Scope.lookup table external id ({ parent with content := absorbed } :: rest) =
      Scope.lookup table external id (child :: parent :: rest) := by
  simp only [Scope.lookup, habsorb, Table.find?_union hchild]
  cases Table.find? id (table child.content) with
  | some a => rfl
  | none => rfl

theorem sameTypes_of_absorb {child parent : Scope} {rest : List Scope}
    (hrecords : Records child.content values) (hsc : s.scopes = child :: parent :: rest)
    (hsc' : s'.scopes =
      { parent with content := Scope.absorb parent.content child.content } :: rest) :
    SameTypes c s s' := by
  refine ⟨fun id => congrArg Except.ok ?_, fun id => congrArg Except.ok ?_,
    fun id => congrArg Except.ok ?_⟩
  all_goals rw [hsc, hsc']
  · exact lookup_absorb hrecords.synonyms rfl _ id rest
  · exact lookup_absorb hrecords.newtypes rfl _ id rest
  · exact lookup_absorb hrecords.primTypes rfl _ id rest

/-- What is visible in `s'`, after a submodule that has been opened in `s`, compared with `s₁`, the
state just before its scope with the content `child` is closed. `values` are its values. -/
structure VisibleAfter (c : Context) (s s₁ s' : State) (child : Module)
    (values : List (Name × Schema)) : Prop where
  types : SameTypes c s₁ s'
  bindings : ∀ g ∈ child.groups, ∀ d ∈ g.decls, (d.name, d.schema) ∈ values
  constructors : ∀ e ∈ child.newtypes, (e.2.conName, e.2.conSchema) ∈ values
  paramFuns : ∀ e ∈ child.paramFuns, ∃ f : Name, f.id = e.1 ∧ (f, e.2) ∈ values
  /-- A value of the submodule has the schema that it was given last. -/
  values : ∀ id, s'.typeOf c.external id =
    ((lastSchema values id).map .known).or (s.typeOf c.external id)
  paramTypes : ∀ id, ((lookupParamType id).exec c s').1 = ((lookupParamType id).exec c s).1
  params : s'.params = s.params
  assumptions : s'.assumptions = s.assumptions

/-- After a submodule the same types are visible as just before its scope is closed. Its values are
those that its declarations declare, in their order, and are visible with the schemas that they were
given last; among them are its bindings, the constructors of its newtypes and its parameter functions.
Its type parameters are no more visible than before, and the parameters and assumptions in force are
those from before. -/
theorem visible_after_submodule {top : Bool} {n : Name} {ds : List Surface.Decl} {range : Range}
    {k : Nat} (hvars : s.vars.Sorted)
    (h : Returns (checkDecl top (.submodule n ds range)) c s k s') :
    ∃ (s₁ : State) (child : Module),
      Returns (checkDecls true ds) (c.located range)
        { s with scopes := ⟨.submodule, .empty n⟩ :: s.scopes } k s₁ ∧
      s₁.scopes = ⟨.submodule, child⟩ :: s.scopes ∧
      VisibleAfter c s s₁ s' child (givenByDecls true (c.located range) ds
        { s with scopes := ⟨.submodule, .empty n⟩ :: s.scopes }) := by
  obtain ⟨s₁, hds, hclose⟩ := returns_checkDecl_submodule h
  obtain ⟨-, hfills⟩ := fills_checkDecls ds hds hvars
  obtain ⟨child, hscopes, hrecords⟩ := hfills.scopes _ _ rfl
  have hchild := hrecords [] (.empty n)
  have hall := fills_submodule hfills hclose
  obtain ⟨scope, parent, rest, hsc, -, rfl⟩ := returns_closeSubmodule hclose
  obtain ⟨rfl, hrest⟩ := List.cons.inj (hscopes.symm.trans hsc)
  refine ⟨s₁, child, hds, hscopes, sameTypes_of_absorb hchild hsc rfl, hchild.bindings,
    hchild.constructors, hchild.paramFuns, hall.typeOf c.external, fun id => ?_, rfl, rfl⟩
  refine congrArg Except.ok ?_
  -- the parameters of the parent are kept, those of the submodule are not merged into them
  show Scope.lookup Module.paramTypes [] id
    ({ parent with content := Scope.absorb parent.content child } :: rest) =
    Scope.lookup Module.paramTypes [] id s.scopes
  rw [hrest]
  rfl

/-! A submodule with parameters, a newtype and a binding. -/

def paramFunction : Name := { id := 3, ident := "f" }

/-- `parameter type t : *; parameter f : Bit; newtype N = { bit : Bit }; x = f`. -/
def parameterizedDecls : List Surface.Decl := [
  .paramType { id := 2, ident := "t" } .type .empty,
  .paramFun paramFunction { body := .bit } .empty,
  .newtype { id := 4, ident := "N" } [] [("bit", .bit)] none .empty,
  .group false [.mk { id := 5, ident := "x" } [] (some (.var paramFunction)) none false false .empty]]

def parameterized : Surface.Decl :=
  .submodule { id := 1, ident := "M" } parameterizedDecls .empty

def moduleContext : Context :=
  { options := {}, solver := Solver.localRules, prims := [], external := {}, range := .empty }

def moduleState : State :=
  { supply := .default, nextTypeVar := 0, nextGoal := 0
    scopes := [⟨.top, .empty { id := 0, ident := "Main" }⟩] }

def parameterizedChecks : Bool :=
  match (checkDecl true parameterized).exec moduleContext moduleState with
  | (.ok _, s') => s'.errors.isEmpty && (s'.vars.find? paramFunction.id).isSome
  | _ => false

/-- The values of the submodule. -/
def parameterizedValues : List (Name × Schema) :=
  let fields : List (String × Ty) := [("bit", .bit)]
  let n : Name := { id := 4, ident := "N" }
  [(paramFunction, .mono .bit), (n, .mono (.arrow (.record fields) (.newtype n [] fields []))),
    ({ id := 5, ident := "x" }, .mono .bit)]

theorem givenByDecls_parameterized :
    givenByDecls true moduleContext parameterizedDecls
      { moduleState with scopes := ⟨.submodule, .empty { id := 1, ident := "M" }⟩ :: moduleState.scopes } =
      parameterizedValues := by cbv

theorem visible_after_submodule_parameterized : ∃ k s' s₁ child,
    moduleState.vars.Sorted ∧
    Returns (checkDecl true parameterized) moduleContext moduleState k s' ∧
    VisibleAfter moduleContext moduleState s₁ s' child parameterizedValues ∧
    s'.typeOf {} 5 = some (.known (.mono .bit)) := by
  have h : parameterizedChecks = true := by cbv
  unfold parameterizedChecks at h
  split at h
  · rename_i k s' heq
    have hvars : moduleState.vars.Sorted := .nil
    obtain ⟨s₁, child, -, -, hvisible⟩ := visible_after_submodule hvars heq
    rw [show moduleContext.located .empty = moduleContext from rfl, givenByDecls_parameterized]
      at hvisible
    exact ⟨k, s', s₁, child, hvars, heq, hvisible, (hvisible.values 5).trans rfl⟩
  · cases h

/-- The parameter function resolves after its submodule, although it did not before. -/
theorem paramFunction_resolves_after : ∃ k s' v,
    Returns (checkDecl true parameterized) moduleContext moduleState k s' ∧
    (lookupVar paramFunction).exec moduleContext moduleState =
      (.error (.unboundVariable paramFunction), moduleState) ∧
    Returns (lookupVar paramFunction) moduleContext s' v s' := by
  have h : parameterizedChecks = true := by cbv
  unfold parameterizedChecks at h
  split at h
  · rename_i k s' heq
    obtain ⟨v, hv⟩ := Option.isSome_iff_exists.mp (Bool.and_eq_true_iff.mp h).2
    refine ⟨k, s', v, heq, rfl, ?_⟩
    unfold lookupVar
    rw [returns_get_bind, hv]
    exact returns_pure.mpr ⟨rfl, rfl⟩
  · cases h

end SizedTypes.Infer
