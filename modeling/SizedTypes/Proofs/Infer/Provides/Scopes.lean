import SizedTypes.Proofs.Infer.Provides.Bindings
import SizedTypes.Proofs.Infer.Submodules

/-!
# Scopes keep what is declared

A declaration adds to the innermost scope. When a submodule is closed its types go to the scope
around it, so what was visible in the submodule stays visible, apart from its type parameters.
-/

set_option autoImplicit false

namespace SizedTypes.Infer

open Surface (TypeExpr TypeParam Visible constructorName paramIds typeFieldsInScope typesInScope)
open SizedTypes.Core (Module)

variable {c : Context} {s s₁ s' : State} {v w : Visible}

/-! ## The innermost scope -/

theorem isSome_insert {α : Type} {m : Table Int α} {k id : Int} {a : α}
    (h : id = k ∨ (m.find? id).isSome) : ((m.insert k a).find? id).isSome := by
  rw [Table.find?_insert]
  split
  · rfl
  · rename_i hne
    exact h.resolve_left hne

/-- The second content declares all types and type parameters that the first does. -/
structure Widens (m m' : Module) : Prop where
  types : ∀ id, m.DeclaresType id → m'.DeclaresType id
  params : ∀ id, (m.paramTypes.find? id).isSome → (m'.paramTypes.find? id).isSome

/-- The innermost scope gains types and type parameters. -/
theorem Provides.fill (h : Provides v c s) {sc : Scope} {rest : List Scope} {content : Module}
    (hsc : s.scopes = sc :: rest) (hwiden : Widens sc.content content) {types params : List Int}
    (htypes : ∀ id ∈ types, content.DeclaresType id)
    (hparams : ∀ id ∈ params, (content.paramTypes.find? id).isSome) :
    Provides { v with types := v.types ++ types, moduleParams := v.moduleParams ++ params } c
      { s with scopes := { sc with content } :: rest } :=
  { h with
    types := fun id hid => by
      rcases List.mem_append.mp hid with hid | hid
      · obtain ⟨sc', hsc', htype⟩ := h.types id hid
        rw [hsc] at hsc'
        obtain rfl | hmem := List.mem_cons.mp hsc'
        · exact ⟨_, List.mem_cons_self .., hwiden.types id htype⟩
        · exact ⟨sc', List.mem_cons_of_mem _ hmem, htype⟩
      · exact ⟨_, List.mem_cons_self .., htypes id hid⟩
    moduleParams := fun id hid => by
      rcases List.mem_append.mp hid with hid | hid
      · obtain ⟨sc', hsc', hparam⟩ := h.moduleParams id hid
        rw [hsc] at hsc'
        obtain rfl | hmem := List.mem_cons.mp hsc'
        · exact ⟨_, List.mem_cons_self .., hwiden.params id hparam⟩
        · exact ⟨sc', List.mem_cons_of_mem _ hmem, hparam⟩
      · exact ⟨_, List.mem_cons_self .., hparams id hid⟩ }

theorem resolves_modifyScope {f : Module → Module} (hwiden : ∀ m, Widens m (f m))
    {types params : List Int} (htypes : ∀ m, ∀ id ∈ types, (f m).DeclaresType id)
    (hparams : ∀ m, ∀ id ∈ params, ((f m).paramTypes.find? id).isSome) :
    Resolves v (modifyScope f)
      { v with types := v.types ++ types, moduleParams := v.moduleParams ++ params } where
  bound _ he := (nameless_modifyScope f).bound he
  provides hs ha := by
    obtain ⟨sc, rest, hsc, rfl⟩ := returns_modifyScope ha
    exact hs.fill hsc (hwiden _) (htypes _) (hparams _)

/-- Neither types nor parameters are added. -/
theorem resolves_modifyScope_same {f : Module → Module} (hwiden : ∀ m, Widens m (f m)) :
    Resolves v (modifyScope f) v := by
  have hsame := resolves_modifyScope (v := v) hwiden (fun _ => List.forall_mem_nil _) fun _ =>
    List.forall_mem_nil _
  rwa [List.append_nil, List.append_nil] at hsame

theorem resolves_addType {f : Module → Module} {id : Int} (hwiden : ∀ m, Widens m (f m))
    (hid : ∀ m, (f m).DeclaresType id) :
    Resolves v (modifyScope f) { v with types := v.types ++ [id] } := by
  have hadd := resolves_modifyScope (v := v) hwiden
    (fun m => List.forall_mem_singleton.mpr (hid m)) fun _ => List.forall_mem_nil _
  rwa [List.append_nil] at hadd

theorem resolves_addSynonym (ts : TypeSynonym) :
    Resolves v (addSynonym ts) { v with types := v.types ++ [ts.name.id] } :=
  resolves_addType
    (fun _ => ⟨fun _ => Or.imp_left fun h => isSome_insert (Or.inr h), fun _ h => h⟩)
    fun _ => Or.inl (isSome_insert (Or.inl rfl))

theorem resolves_addNewtype (nt : Newtype) :
    Resolves v (addNewtype nt) { v with types := v.types ++ [nt.name.id] } :=
  resolves_addType
    (fun _ => ⟨fun _ => Or.imp_right (Or.imp_left fun h => isSome_insert (Or.inr h)), fun _ h => h⟩)
    fun _ => Or.inr (Or.inl (isSome_insert (Or.inl rfl)))

theorem resolves_addPrimType (pt : PrimType) :
    Resolves v (addPrimType pt) { v with types := v.types ++ [pt.name.id] } :=
  resolves_addType
    (fun _ => ⟨fun _ => Or.imp_right (Or.imp_right fun h => isSome_insert (Or.inr h)),
      fun _ h => h⟩)
    fun _ => Or.inr (Or.inr (isSome_insert (Or.inl rfl)))

theorem resolves_addParamType (p : ModuleParam) :
    Resolves v (addParamType p) { v with moduleParams := v.moduleParams ++ [p.name.id] } := by
  let add (m : Module) : Module := { m with paramTypes := m.paramTypes.insert p.name.id p }
  have hwiden : ∀ m, Widens m (add m) := fun _ =>
    ⟨fun _ h => h, fun _ h => isSome_insert (Or.inr h)⟩
  have hparam : ∀ m, ((add m).paramTypes.find? p.name.id).isSome := fun _ =>
    isSome_insert (Or.inl rfl)
  have hadd := resolves_modifyScope (v := v) hwiden (fun _ => List.forall_mem_nil _)
    fun m => List.forall_mem_singleton.mpr (hparam m)
  rw [List.append_nil] at hadd
  exact hadd

theorem resolves_addParamProps (ps : List Ty) : Resolves v (addParamProps ps) v :=
  resolves_modifyScope_same fun _ => ⟨fun _ h => h, fun _ h => h⟩

theorem resolves_addParamFun (n : Name) (sc : Schema) : Resolves v (addParamFun n sc) v :=
  resolves_modifyScope_same fun _ => ⟨fun _ h => h, fun _ h => h⟩

theorem resolves_addGroup (g : Core.Group) : Resolves v (addGroup g) v :=
  resolves_modifyScope_same fun _ => ⟨fun _ h => h, fun _ h => h⟩

/-! ## Declarations of types and module parameters -/

theorem resolves_checkSynonym (n : Name) {ps : List TypeParam} {body : TypeExpr} (range : Range)
    (h : body.inScope v (paramIds ps) = true) :
    Resolves v (checkSynonym n ps body range) { v with types := v.types ++ [n.id] } := by
  refine .withRange (.get_bind fun _ => ?_)
  split
  all_goals try refine (resolves_recordWarning _).bind fun _ => ?_
  all_goals exact Kinding.resolves_declare_bind fun _ _ hk =>
    (Kinding.resolves_infer body _ h).run_bind hk fun _ _ _ => resolves_addSynonym _

theorem resolves_checkNewtype (n : Name) {ps : List TypeParam} {fields : List (String × TypeExpr)}
    (conName : Option Name) (range : Range) (h : typeFieldsInScope v (paramIds ps) fields = true) :
    Resolves v (checkNewtype n ps fields conName range) { v with
      types := v.types ++ [n.id], values := v.values ++ [(constructorName n conName).id] } :=
  .withRange <| Kinding.resolves_declare_bind fun _ _ hk =>
    (Kinding.resolves_checkFields fields h).run_bind hk fun _ _ _ =>
    (resolves_addNewtype _).bind fun _ => resolves_declare ..

theorem resolves_checkPrimType (n : Name) (kind : Kind) {props : List TypeExpr} (range : Range)
    (h : typesInScope v [] props = true) :
    Resolves v (checkPrimType n kind props range) { v with types := v.types ++ [n.id] } :=
  .withRange <| (Kinding.resolves_checkProps h).run_bind (List.forall_mem_nil _) fun _ _ _ =>
    resolves_addPrimType _

theorem resolves_checkParamType (n : Name) (kind : Kind) :
    Resolves v (checkParamType n kind) { v with moduleParams := v.moduleParams ++ [n.id] } := by
  refine (resolves_freshParam ..).bind fun p => (Resolves.modify (w := v) fun hs => ?_).bind
    fun _ => resolves_addParamType _
  exact { hs with }

theorem resolves_checkParamProps {props : List TypeExpr} (range : Range)
    (h : typesInScope v [] props = true) : Resolves v (checkParamProps props range) v := by
  refine .withRange <| (Kinding.resolves_checkProps h).run_bind (List.forall_mem_nil _)
    fun _ _ _ => (Resolves.modify (w := v) fun hs => ?_).bind fun _ =>
    (resolves_addParamProps _).bind fun _ => (resolves_simplifyGoals _).bind fun _ =>
    resolves_modifyGoals _
  exact { hs with }

/-! ## Opening and closing -/

theorem resolves_openScope (kind : ScopeKind) (n : Name) : Resolves v (openScope kind n) v :=
  .modify fun hs => { hs with
    types := fun id hid => by
      obtain ⟨sc, hsc, htype⟩ := hs.types id hid
      exact ⟨sc, List.mem_cons_of_mem _ hsc, htype⟩
    moduleParams := fun id hid => by
      obtain ⟨sc, hsc, hparam⟩ := hs.moduleParams id hid
      exact ⟨sc, List.mem_cons_of_mem _ hsc, hparam⟩ }

/-- The types in scope are not said to be so any more. -/
theorem resolves_popScope (kind : ScopeKind) : Resolves v (popScope kind) v.outer where
  bound _ he := (nameless_popScope kind).bound he
  provides hs ha := by
    obtain ⟨sc, rest, -, -, -, rfl⟩ := returns_popScope ha
    exact { hs.outer with
      types := List.forall_mem_nil _
      moduleParams := List.forall_mem_nil _ }

theorem resolves_closeBlock : Resolves v closeBlock v.outer :=
  (resolves_popScope _).bind fun _ => .pure _

theorem resolves_closeSubmodule : Resolves v closeSubmodule v.outer where
  bound _ he := ((nameless_popScope _).bind fun _ => nameless_modifyScope _).bound he
  provides hs ha := by
    obtain ⟨child, parent, rest, -, -, rfl⟩ := returns_closeSubmodule ha
    exact { hs.outer with
      types := List.forall_mem_nil _
      moduleParams := List.forall_mem_nil _ }

theorem declaresType_absorb {parent child : Module} {values : List (Name × Schema)}
    (hchild : Records child values) {id : Int} (h : child.DeclaresType id ∨ parent.DeclaresType id) :
    (Scope.absorb parent child).DeclaresType id := by
  unfold Module.DeclaresType Scope.absorb
  simp only [Table.find?_union hchild.synonyms, Table.find?_union hchild.newtypes,
    Table.find?_union hchild.primTypes, Option.isSome_or, Bool.or_eq_true]
  unfold Module.DeclaresType at h
  grind

/-- What is visible at the end of a submodule is so after it. Of type parameters only those are that
were visible before it. -/
theorem Provides.close_submodule (h : Provides v c s) {n : Name} {values : List (Name × Schema)}
    (hfills : Fills values { s with scopes := ⟨.submodule, .empty n⟩ :: s.scopes } s₁)
    (hw : Provides w c s₁) {params : List Param} {assumptions : Assumptions} {a : Unit}
    (hclose : Returns closeSubmodule c { s₁ with params, assumptions } a s') :
    Provides { w with moduleParams := v.moduleParams } c s' := by
  obtain ⟨content, hscopes, hrecords⟩ := hfills.scopes _ _ rfl
  obtain ⟨child, parent, rest, hsc, -, rfl⟩ := returns_closeSubmodule hclose
  obtain ⟨rfl, hrest⟩ := List.cons.inj (hscopes.symm.trans hsc)
  have hchild : Records content values := hrecords [] (.empty n)
  exact { hw with
    types := fun id hid => by
      obtain ⟨sc, hmem, htype⟩ := hw.types id hid
      rw [hscopes, hrest] at hmem
      rcases List.mem_cons.mp hmem with rfl | hmem
      · exact ⟨_, List.mem_cons_self .., declaresType_absorb hchild (Or.inl htype)⟩
      · rcases List.mem_cons.mp hmem with rfl | hmem
        · exact ⟨_, List.mem_cons_self .., declaresType_absorb hchild (Or.inr htype)⟩
        · exact ⟨sc, List.mem_cons_of_mem _ hmem, htype⟩
    moduleParams := fun id hid => by
      obtain ⟨sc, hmem, hparam⟩ := h.moduleParams id hid
      rw [hrest] at hmem
      rcases List.mem_cons.mp hmem with rfl | hmem
      · exact ⟨_, List.mem_cons_self .., hparam⟩
      · exact ⟨sc, List.mem_cons_of_mem _ hmem, hparam⟩ }

theorem resolves_submodule {top : Bool} {n : Name} {ds : List Surface.Decl} {range : Range}
    (h : Resolves v (checkDecls true ds) w) :
    Resolves v (checkDecl top (.submodule n ds range)) { w with moduleParams := v.moduleParams } where
  bound {c s e} hs he := by
    have hchecked : Resolves v (checkDecl top (.submodule n ds range)) w.outer := by
      rw [checkDecl]
      refine .withRange <| .get_bind fun {_ s₀} _ => (resolves_openScope ..).bind fun _ =>
        h.bind fun _ => (Resolves.modify (w := w) fun hs => ?_).bind fun _ =>
        resolves_closeSubmodule.bind fun _ => .pure _
      exact { hs with }
    exact hchecked.bound hs he
  provides hs ha := by
    obtain ⟨s₁, hds, hclose⟩ := returns_checkDecl_submodule ha
    obtain ⟨-, hfills⟩ := fills_checkDecls ds hds hs.sorted
    have hopen := (resolves_openScope .submodule n).provides (hs.located range) rfl
    exact { (hs.located range).close_submodule hfills (h.provides hopen hds) hclose with }

end SizedTypes.Infer
