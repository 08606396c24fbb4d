import SizedTypes.Proofs.Core.Mentions
import SizedTypes.Proofs.Infer.ClosedTypes
import SizedTypes.Proofs.Infer.Environment
import SizedTypes.Proofs.Run.Module
import SizedTypes.Proofs.Unify.Variable

/-!
# Modules without variables

What a successful run returns has no variables: definitions are looked through at the end, and
declared types have none from the start. There are two gaps. Looking through a definition does not
reach the arguments of synonyms, so a variable that what the synonym stands for does not mention is
left there. And the interface of a parameterized submodule is taken when the submodule closes, so it
has the schemas of the definitions as they were then.
-/

set_option autoImplicit false

namespace SizedTypes

open SizedTypes.Core (Decl Group Interface Module)

/-! ## Contents of scopes -/

/-- An interface of the definitions `ds`: whatever else it has is closed. -/
structure Core.Interface.Over (ds : List Decl) (i : Interface) : Prop where
  types : ClosedTypes i.synonyms i.newtypes i.primTypes
  vars : ∀ e ∈ i.vars, e.2.2.Closed ∨ ∃ d ∈ ds, d.name = e.2.1 ∧ d.schema = e.2.2

theorem Core.Interface.Over.mono {ds ds' : List Decl} {i : Interface} (h : i.Over ds)
    (hds : ds ⊆ ds') : i.Over ds' where
  types := h.types
  vars e he := (h.vars e he).imp_right fun ⟨d, hd, heq⟩ => ⟨d, hds hd, heq⟩

/-- Nothing in a module has variables, its definitions apart. -/
structure Core.Module.Closed (m : Module) : Prop where
  types : m.ClosedTypes
  paramProps : ∀ p ∈ m.paramProps, p.Closed
  paramFuns : ∀ e ∈ m.paramFuns, e.2.Closed
  submodules : ∀ e ∈ m.submodules, e.2.Over m.decls

namespace Core.Module.Closed

variable {m : Module}

theorem empty (n : Name) : (Module.empty n).Closed where
  types := by constructor <;> exact List.forall_mem_nil _
  paramProps := List.forall_mem_nil _
  paramFuns := List.forall_mem_nil _
  submodules := List.forall_mem_nil _

/-- The interface of a closed module has its definitions and the constructors of its newtypes. -/
theorem interface (h : m.Closed) : m.interface.Over m.decls where
  types := h.types
  vars e he := by
    rcases List.mem_append.mp (Table.mem_ofList he) with he | he
    · obtain ⟨d, hd, rfl⟩ := List.mem_map.mp he
      exact Or.inr ⟨d, hd, rfl, rfl⟩
    · obtain ⟨nt, hnt, rfl⟩ := List.mem_map.mp he
      obtain ⟨entry, hentry, rfl⟩ := List.mem_map.mp hnt
      exact Or.inl (h.types.newtypes entry hentry).conSchema

theorem addGroup (h : m.Closed) (g : Group) : { m with groups := m.groups ++ [g] }.Closed :=
  { h with
    submodules := fun e he => (h.submodules e he).mono fun d hd => by
      rw [Module.decls, List.flatMap_append]
      exact List.mem_append_left _ hd }

/-- A submodule brings its definitions along, so its interface is one of the parent's
definitions. -/
theorem absorb {child : Module} (h : m.Closed) (hchild : child.Closed) :
    (Scope.absorb m child).Closed := by
  have hdecls : (Scope.absorb m child).decls = m.decls ++ child.decls := List.flatMap_append ..
  have hparent : m.decls ⊆ (Scope.absorb m child).decls := by simp [hdecls]
  have hinner : child.decls ⊆ (Scope.absorb m child).decls := by simp [hdecls]
  have hsubs : ∀ e ∈ m.submodules.union child.submodules, e.2.Over (Scope.absorb m child).decls :=
    Table.forall_mem_union (fun e he => (h.submodules e he).mono hparent)
      fun e he => (hchild.submodules e he).mono hinner
  refine ⟨⟨?_, ?_, ?_⟩, h.paramProps, h.paramFuns, ?_⟩
  · exact Table.forall_mem_union h.types.synonyms hchild.types.synonyms
  · exact Table.forall_mem_union h.types.newtypes hchild.types.newtypes
  · exact Table.forall_mem_union h.types.primTypes hchild.types.primTypes
  · show ∀ e ∈ (if child.isParameterized then _ else _), _
    split
    · exact Table.forall_mem_insert (hchild.interface.mono hinner) hsubs
    · exact hsubs

end Core.Module.Closed

namespace Infer

open Surface (TypeExpr TypeParam)

variable {E : External} {c : Context} {s s₁ s' : State}

/-! ## Declarations -/

/-- The contents of all scopes are closed, and no existential variable can be written. -/
structure ClosedScopes (E : External) (s : State) : Prop where
  external : E.ClosedTypes
  scopes : ∀ sc ∈ s.scopes, sc.content.Closed
  existentials : s.existentials = []

namespace ClosedScopes

theorem bare (h : ClosedScopes E s) : Kinding.Bare E { allowWildcards := false } s where
  external := h.external
  scopes sc hsc := (h.scopes sc hsc).types
  existentials := h.existentials
  wildcards := rfl
  goals := List.forall_mem_nil _

theorem frame (h : ClosedScopes E s) (hframe : Frame s s') : ClosedScopes E s' where
  external := h.external
  scopes := by rw [hframe.scopes]; exact h.scopes
  existentials := hframe.closed h.existentials

theorem modifyScope {f : Module → Module} {a : Unit} (h : ClosedScopes E s)
    (hr : Returns (Infer.modifyScope f) c s a s') (hf : ∀ m, m.Closed → (f m).Closed) :
    ClosedScopes E s' := by
  obtain ⟨sc, rest, hscopes, rfl⟩ := returns_modifyScope hr
  have hall := h.scopes
  rw [hscopes, List.forall_mem_cons] at hall
  exact ⟨h.external, List.forall_mem_cons.mpr ⟨hf _ hall.1, hall.2⟩, h.existentials⟩

theorem pushAll (h : ClosedScopes E s) (vs : List (Name × VarType)) :
    ClosedScopes E (s.pushAll vs) where
  external := h.external
  scopes := by rw [scopes_pushAll]; exact h.scopes
  existentials := (Declared.pushAll s vs).closed h.existentials

end ClosedScopes

theorem closed_checkSynonym {n : Name} {params : List TypeParam} {body : TypeExpr} {range : Range}
    {a : Unit} (h : Returns (checkSynonym n params body range) c s a s')
    (hs : ClosedScopes c.external s) (herrors : s'.errors = []) : ClosedScopes c.external s' := by
  obtain ⟨ws, ps, k, s₁, t, k', s₂, ts, hdeclare, hinfer, -, hprops, hbody, hadd⟩ :=
    returns_checkSynonym h
  have herrors₂ := (filled_modifyScope hadd).errors_eq_nil herrors
  have hframe₂ := (Kinding.framed_infer ..).step hinfer
  have hframe₁ := (Kinding.framed_declare _).step hdeclare
  have hs₀ := hs.frame (frame_warnings s ws)
  obtain ⟨-, hbare₁⟩ := (Kinding.closes_declare params).step hdeclare hs₀.bare
    (hframe₂.errors_eq_nil herrors₂) trivial
  obtain ⟨ht, hbare₂⟩ := (Kinding.closes_infer ..).step hinfer hbare₁ herrors₂ trivial
  have hclosed : ts.Closed := by
    refine ⟨?_, ?_⟩
    · rw [hprops]
      exact List.forall_mem_map.mpr fun g hg => Kinding.closed_settleTy (hbare₂.goals g hg)
    · rw [hbody]
      exact Kinding.closed_settleTy ht
  refine ((hs₀.frame hframe₁).frame hframe₂).modifyScope hadd fun m hm => ?_
  exact { hm with types := { hm.types with
    synonyms := Table.forall_mem_insert hclosed hm.types.synonyms } }

theorem closed_checkNewtype {n : Name} {params : List TypeParam} {fields : List (String × TypeExpr)}
    {conName : Option Name} {range : Range} {a : Unit}
    (h : Returns (checkNewtype n params fields conName range) c s a s')
    (hs : ClosedScopes c.external s) (herrors : s'.errors = []) : ClosedScopes c.external s' := by
  obtain ⟨ps, k, s₁, fs, k', s₂, nt, s₃, hdeclare, hfields, hprops, hfs, -, -, hadd, rfl⟩ :=
    returns_checkNewtype h
  have herrors₂ := (filled_modifyScope hadd).errors_eq_nil herrors
  have hframe₂ := (Kinding.framed_checkFields _).step hfields
  have hframe₁ := (Kinding.framed_declare _).step hdeclare
  obtain ⟨-, hbare₁⟩ := (Kinding.closes_declare params).step hdeclare hs.bare
    (hframe₂.errors_eq_nil herrors₂) trivial
  obtain ⟨hclosedFields, hbare₂⟩ :=
    (Kinding.closes_checkFields _).step hfields hbare₁ herrors₂ trivial
  have hclosed : nt.Closed := by
    refine ⟨?_, ?_⟩
    · rw [hprops]
      exact List.forall_mem_map.mpr fun g hg => Kinding.closed_settleTy (hbare₂.goals g hg)
    · rw [hfs]
      refine List.forall_mem_map.mpr fun f hf => Kinding.closed_settleTy ?_
      exact hclosedFields f (Table.mem_ofList hf)
  refine (((hs.frame hframe₁).frame hframe₂).modifyScope hadd fun m hm => ?_).pushAll [_]
  exact { hm with types := { hm.types with
    newtypes := Table.forall_mem_insert hclosed hm.types.newtypes } }

theorem closed_checkPrimType {n : Name} {kind : Kind} {props : List TypeExpr} {range : Range}
    {a : Unit} (h : Returns (checkPrimType n kind props range) c s a s')
    (hs : ClosedScopes c.external s) (herrors : s'.errors = []) : ClosedScopes c.external s' := by
  obtain ⟨ps, k, s₁, hprops, hadd⟩ := returns_checkPrimType h
  have herrors₁ := (filled_modifyScope hadd).errors_eq_nil herrors
  obtain ⟨hps, hbare⟩ := (Kinding.closes_checkProps props).step hprops hs.bare herrors₁ trivial
  have hclosed : ∀ p ∈ ps ++ k.goals.map Goal.prop, p.Closed :=
    List.forall_mem_append.mpr ⟨hps, List.forall_mem_map.mpr hbare.goals⟩
  refine (hs.frame ((Kinding.framed_checkProps _).step hprops)).modifyScope hadd fun m hm => ?_
  exact { hm with types := { hm.types with
    primTypes := Table.forall_mem_insert hclosed hm.types.primTypes } }

theorem closed_checkParamType {n : Name} {kind : Kind} {a : Unit}
    (h : Returns (checkParamType n kind) c s a s') (hs : ClosedScopes c.external s) :
    ClosedScopes c.external s' := by
  obtain ⟨p, s₁, hframe, hadd⟩ := returns_checkParamType h
  exact (hs.frame hframe).modifyScope hadd fun m hm => { hm with }

theorem closed_checkParamProps {props : List TypeExpr} {range : Range} {a : Unit}
    (h : Returns (checkParamProps props range) c s a s') (hs : ClosedScopes c.external s)
    (herrors : s'.errors = []) : ClosedScopes c.external s' := by
  obtain ⟨ps, k, s₁, s₂, s₃, hprops, hframe, hadd, hframe'⟩ := returns_checkParamProps h
  have herrors₂ := (filled_modifyScope hadd).errors_eq_nil (hframe'.errors_eq_nil herrors)
  obtain ⟨hps, -⟩ := (Kinding.closes_checkProps props).step hprops hs.bare
    (hframe.errors_eq_nil herrors₂) trivial
  have hbefore := (hs.frame ((Kinding.framed_checkProps _).step hprops)).frame hframe
  refine (hbefore.modifyScope hadd fun m hm => ?_).frame hframe'
  exact { hm with paramProps := List.forall_mem_append.mpr ⟨hm.paramProps, hps⟩ }

theorem closed_checkSignature {sig : Surface.Signature} {sc : Schema}
    (h : Returns (checkSignature sig) c s sc s') (hs : ClosedScopes c.external s)
    (herrors : s'.errors = []) : sc.Closed := by
  unfold checkSignature at h
  replace h := returns_withReader.mp h
  simp only [returns_bind, returns_pure] at h
  obtain ⟨⟨ps, k⟩, s₁, hdeclare, ⟨props, k₁⟩, s₂, hprops, ⟨body, k₂⟩, _, hbody, rfl, rfl⟩ := h
  have herrors₂ := ((Kinding.framed_check ..).step hbody).errors_eq_nil herrors
  have herrors₁ := ((Kinding.framed_checkProps _).step hprops).errors_eq_nil herrors₂
  obtain ⟨-, hbare⟩ := (Kinding.closes_declare _).step hdeclare hs.bare herrors₁ trivial
  obtain ⟨hps, hbare⟩ := (Kinding.closes_checkProps _).step hprops hbare herrors₂ trivial
  obtain ⟨ht, hbare⟩ := (Kinding.closes_check ..).step hbody hbare herrors trivial
  refine ⟨List.forall_mem_map.mpr fun p hp => Kinding.closed_settleTy ?_, Kinding.closed_settleTy ht⟩
  rcases List.mem_append.mp hp with hp | hp
  · exact hps p hp
  · obtain ⟨g, hg, rfl⟩ := List.mem_map.mp hp
    exact hbare.goals g hg

mutual
theorem closed_checkDecls : ∀ (ds : List Surface.Decl) {top : Bool} {k : Nat} {c : Context}
    {s s' : State}, Returns (checkDecls top ds) c s k s' → s.vars.Sorted →
    ClosedScopes c.external s → s'.errors = [] → ClosedScopes c.external s'
  | [], _, _, c, s, s', h, _, hclosed, _ => by
    rw [checkDecls, returns_pure] at h
    exact h.2 ▸ hclosed
  | d :: ds, top, k, c, s, s', h, hs, hclosed, herrors => by
    rw [checkDecls, returns_get_bind] at h
    split at h
    · exact (returns_pure.mp h).2 ▸ hclosed
    · simp only [returns_bind, returns_pure] at h
      obtain ⟨m, s₁, hd, n, _, hds, -, rfl⟩ := h
      obtain ⟨vs, -, hfilled⟩ := filled_checkDecl d hd hs
      obtain ⟨ws, -, hfilled'⟩ := filled_checkDecls ds hds (hfilled.sorted hs)
      have hfirst := closed_checkDecl d hd hs hclosed (hfilled'.errors_eq_nil herrors)
      exact closed_checkDecls ds hds (hfilled.sorted hs) hfirst herrors

theorem closed_checkDecl : ∀ (d : Surface.Decl) {top : Bool} {k : Nat} {c : Context} {s s' : State},
    Returns (checkDecl top d) c s k s' → s.vars.Sorted → ClosedScopes c.external s →
    s'.errors = [] → ClosedScopes c.external s'
  | .synonym n params body range, _, _, c, s, s', h, _, hclosed, herrors => by
    simp only [checkDecl, returns_bind, returns_pure] at h
    obtain ⟨⟨⟩, _, h, -, rfl⟩ := h
    exact closed_checkSynonym h hclosed herrors
  | .newtype n params fields conName range, _, _, c, s, s', h, _, hclosed, herrors => by
    simp only [checkDecl, returns_bind, returns_pure] at h
    obtain ⟨⟨⟩, _, h, -, rfl⟩ := h
    exact closed_checkNewtype h hclosed herrors
  | .primType n kind props range, _, _, c, s, s', h, _, hclosed, herrors => by
    simp only [checkDecl, returns_bind, returns_pure] at h
    obtain ⟨⟨⟩, _, h, -, rfl⟩ := h
    exact closed_checkPrimType h hclosed herrors
  | .paramType n kind range, _, _, c, s, s', h, _, hclosed, _ => by
    simp only [checkDecl, returns_bind, returns_pure] at h
    obtain ⟨⟨⟩, _, h, -, rfl⟩ := h
    exact closed_checkParamType h hclosed
  | .paramProps props range, _, _, c, s, s', h, _, hclosed, herrors => by
    simp only [checkDecl, returns_bind, returns_pure] at h
    obtain ⟨⟨⟩, _, h, -, rfl⟩ := h
    exact closed_checkParamProps h hclosed herrors
  | .paramFun n sig range, _, _, c, s, s', h, _, hclosed, herrors => by
    obtain ⟨sc, s₁, s₂, hsig, hadd, rfl, -⟩ := returns_checkDecl_paramFun h
    have herrors₁ := (filled_modifyScope hadd).errors_eq_nil herrors
    have hsc : sc.Closed := closed_checkSignature (c := c.located range) hsig hclosed herrors₁
    have hbefore := hclosed.frame ((framed_checkSignature _).step hsig)
    refine (hbefore.modifyScope hadd fun m hm => ?_).pushAll [_]
    exact { hm with paramFuns := Table.forall_mem_insert hsc hm.paramFuns }
  | .group recursive binds, _, _, c, s, s', h, hs, hclosed, _ => by
    obtain ⟨plan, s₁, out, s₂, hplan, hgroup, hadd, -⟩ := returns_checkDecl_group h
    obtain ⟨vs, hlen, hdeclared, hscopes⟩ := declared_planGroup hplan
    have hframe := frame_checkGroup hdeclared hscopes hlen hs (scoped_checkGeneral binds plan)
      (scoped_checkOthers binds plan) hgroup
    exact ((hclosed.frame hframe).pushAll _).modifyScope hadd fun m hm => hm.addGroup _
  | .submodule n ds range, _, _, c, s, s', h, hs, hclosed, herrors => by
    obtain ⟨s₁, hds, hclose⟩ := returns_checkDecl_submodule h
    obtain ⟨child, parent, rest, hscopes, -, rfl⟩ := returns_closeSubmodule hclose
    have hopened : ClosedScopes c.external
        { s with scopes := ⟨.submodule, .empty n⟩ :: s.scopes } :=
      ⟨hclosed.external, List.forall_mem_cons.mpr ⟨.empty n, hclosed.scopes⟩, hclosed.existentials⟩
    have hinner := closed_checkDecls ds (c := c.located range) hds hs hopened herrors
    have hall := hinner.scopes
    rw [show s₁.scopes = child :: parent :: rest from hscopes, List.forall_mem_cons,
      List.forall_mem_cons] at hall
    obtain ⟨hchild, hparent, hrest⟩ := hall
    exact ⟨hclosed.external, List.forall_mem_cons.mpr ⟨hparent.absorb hchild, hrest⟩,
      hinner.existentials⟩
end

/-! ## The end of a run -/

theorem varIds_of_reportOpen {d : Decl} {a : Unit} (h : Returns (reportOpen d) c s a s')
    (herrors : s'.errors = []) : ∀ t ∈ d.types, t.varIds = [] := by
  unfold reportOpen at h
  dsimp only at h
  split at h
  · have hreport : Returns (recordError _) (c.located d.range) s a s' := h
    unfold recordError currentRange at hreport
    simp only [bind_assoc, returns_read_bind, pure_bind, returns_modify] at hreport
    rw [hreport] at herrors
    simp at herrors
  · rename_i hnone
    intro t ht
    refine List.eq_nil_iff_forall_not_mem.mpr fun i hi => hnone ?_
    obtain ⟨v, hv, -⟩ := Ty.exists_mem_freeVars ht hi
    have hlisted : v ∈ Core.freeVarsOf [d] := by simpa [Core.freeVarsOf] using hv
    simpa using List.ne_nil_of_mem hlisted

/-- If no variables are reported, the types show none. -/
theorem varIds_of_checkResolved {ds : List Decl} {a : Unit} (h : Returns (checkResolved ds) c s a s')
    (herrors : s'.errors = []) : ∀ d ∈ ds, ∀ t ∈ d.types, t.varIds = [] := by
  have hs := ((framed_checkResolved ds).step h).errors_eq_nil herrors
  unfold checkResolved at h
  rw [returns_get_bind, hs, List.isEmpty_nil, if_pos rfl] at h
  replace h : Returns (ds.forM reportOpen) c s a s' := h
  clear hs
  induction ds generalizing s with
  | nil => exact List.forall_mem_nil _
  | cons d ds ih =>
    rw [List.forM_eq_forM, List.forM_cons, returns_bind] at h
    obtain ⟨⟨⟩, s₁, hd, hds⟩ := h
    have hframe := (Framed.forM fun d (_ : d ∈ ds) => framed_reportOpen d).step hds
    refine List.forall_mem_cons.mpr ⟨?_, ih hds⟩
    exact varIds_of_reportOpen hd (hframe.errors_eq_nil herrors)

end Infer

/-- The final form of a closed type is closed. -/
theorem Ty.Closed.zonk {t : Ty} (h : t.Closed) (θ : Subst) : (Infer.zonk θ t).Closed := by
  rw [Infer.zonk, Subst.apply_of_closed θ h]
  exact inherited_closed.normalize h

theorem Schema.Closed.zonk {sc : Schema} (h : sc.Closed) (θ : Subst) :
    (sc.mapTypes (Infer.zonk θ)).Closed :=
  ⟨List.forall_mem_map.mpr fun p hp => (h.1 p hp).zonk θ, h.2.zonk θ⟩

namespace Resolver

variable (r : Resolver)

theorem headers_decls (ds : List Decl) (supply : Supply) :
    ((r.decls ds) supply).1.map (fun d => (d.name, d.schema)) =
      ds.map fun d => (d.name, d.schema.mapTypes r.zonk) := by
  induction ds generalizing supply with
  | nil => rfl
  | cons d ds ih =>
    rw [Resolver.decls]
    exact congrArg₂ List.cons (Prod.ext (r.name_decl d supply) (r.schema_decl d supply)) (ih _)

/-- The definitions of groups are those from before with their types in the final forms. -/
theorem headers_groups (gs : List Group) (supply : Supply) :
    (((r.groups gs) supply).1.flatMap Group.decls).map (fun d => (d.name, d.schema)) =
      (gs.flatMap Group.decls).map fun d => (d.name, d.schema.mapTypes r.zonk) := by
  induction gs generalizing supply with
  | nil => rfl
  | cons g gs ih =>
    obtain ⟨recursive, ds⟩ := g
    rw [Resolver.groups, List.flatMap_cons, List.map_append, Group.decls, ← r.headers_decls ds supply,
      ← ih]
    exact List.map_append ..

theorem exists_mem_groups {gs : List Group} {d : Decl} (hd : d ∈ gs.flatMap Group.decls)
    (supply : Supply) : ∃ d' ∈ ((r.groups gs) supply).1.flatMap Group.decls,
      d'.name = d.name ∧ d'.schema = d.schema.mapTypes r.zonk := by
  have hmem := List.mem_map_of_mem (f := fun d : Decl => (d.name, d.schema.mapTypes r.zonk)) hd
  rw [← r.headers_groups gs supply] at hmem
  obtain ⟨d', hd', heq⟩ := List.mem_map.mp hmem
  exact ⟨d', hd', Prod.mk.inj heq⟩

theorem exists_of_mem_groups {gs : List Group} {supply : Supply} {d' : Decl}
    (hd' : d' ∈ ((r.groups gs) supply).1.flatMap Group.decls) :
    ∃ d ∈ gs.flatMap Group.decls, d'.name = d.name ∧ d'.schema = d.schema.mapTypes r.zonk := by
  have hmem := List.mem_map_of_mem (f := fun d : Decl => (d.name, d.schema)) hd'
  rw [r.headers_groups gs supply] at hmem
  obtain ⟨d, hd, heq⟩ := List.mem_map.mp hmem
  obtain ⟨hname, hschema⟩ := Prod.mk.inj heq
  exact ⟨d, hd, hname.symm, hschema.symm⟩

end Resolver

namespace Infer

variable {input : Input} {m : Surface.Module} {out : ModuleOutput} {declared finished : State}
  {top : Scope}

/-- The declarations of a successful run have left closed contents. -/
theorem ModuleRun.closed (h : ModuleRun input m out declared finished top)
    (hext : input.external.ClosedTypes) : top.content.Closed := by
  obtain ⟨k, hdecls⟩ := h.decls
  have hbegun : ClosedScopes input.external (begun input m) :=
    ⟨hext, List.forall_mem_singleton.mpr (.empty m.name), rfl⟩
  have hdeclared := closed_checkDecls m.decls hdecls List.Pairwise.nil hbegun
    (h.finish.errors_eq_nil h.errors)
  exact (hdeclared.frame h.finish).scopes top (by rw [h.scopes]; exact List.mem_singleton_self _)

end Infer

/-- No type of a checked module has a variable, with two exceptions: a variable in a definition that
a synonym hides, and the interface of a parameterized submodule, which has the schemas of definitions
as they were when the submodule was closed. -/
theorem closed_of_runModule {input : Input} {m : Surface.Module} {out : ModuleOutput}
    (hext : input.external.ClosedTypes) (h : (runModule input m).1 = .ok out) :
    (∀ d ∈ out.content.decls, ∀ t ∈ d.types, t.varIds = [] ∧ ∀ i ∈ t.leafIds, t.Hides i) ∧
    (∀ p ∈ out.content.paramProps, p.Closed) ∧
    (∀ e ∈ out.content.paramFuns, e.2.Closed) ∧
    out.content.ClosedTypes ∧
    ∃ θ, ∀ e ∈ out.content.submodules,
      ClosedTypes e.2.synonyms e.2.newtypes e.2.primTypes ∧
      ∀ v ∈ e.2.vars, v.2.2.Closed ∨
        ∃ d ∈ out.content.decls, d.name = v.2.1 ∧ d.schema = v.2.2.mapTypes (Infer.zonk θ) := by
  obtain ⟨declared, finished, top, hrun⟩ := Infer.exists_moduleRun h
  have htop := hrun.closed hext
  obtain ⟨s, a, s', hchecked, herrors⟩ := hrun.checked
  have hshown := Infer.varIds_of_checkResolved hchecked herrors
  refine ⟨fun d hd t ht => ⟨hshown d hd t ht, fun i hi => ?_⟩, ?_, ?_, ?_, finished.subst, ?_⟩
  · exact .of_mem_leafIds hi (by rw [hshown d hd t ht]; exact List.not_mem_nil)
  all_goals rw [hrun.content]
  · exact List.forall_mem_map.mpr fun p hp => (htop.paramProps p hp).zonk _
  · exact List.forall_mem_map.mpr fun e he => (htop.paramFuns e he).zonk _
  · exact ⟨htop.types.synonyms, htop.types.newtypes, htop.types.primTypes⟩
  · intro e he
    have hover := htop.submodules e he
    refine ⟨hover.types, fun v hv => (hover.vars v hv).imp_right ?_⟩
    rintro ⟨d, hd, hname, hschema⟩
    obtain ⟨d', hd', hname', hschema'⟩ :=
      (Infer.resolver finished).exists_mem_groups hd finished.supply
    exact ⟨d', hd', hname'.trans hname, by rw [hschema', hschema]; rfl⟩

/-! ## Modules with variables

A submodule with a type parameter and `x = ()`, which is not generalized, and
`f = \(x : (T _, Bit)) -> x` after `type T a = Bit`. -/

def unitSubmodule : Surface.Module where
  name := { id := 1, ident := "Main" }
  decls := [.submodule { id := 2, ident := "M" }
    [.paramType { id := 3, ident := "t" } .type .empty,
      .group false [.mk { id := 4, ident := "x" } [] (some (.tuple [])) none true false .empty]]
    .empty]

def hidingSynonym : Surface.Module where
  name := { id := 1, ident := "Main" }
  decls := [.synonym { id := 2, ident := "T" } [⟨{ id := 3, ident := "a" }, .type⟩] .bit .empty,
    .group false [.mk { id := 4, ident := "f" }
      [.typed (.var { id := 5, ident := "x" })
        (.tuple [.named { id := 2, ident := "T" } [.wildcard], .bit])]
      (some (.var { id := 5, ident := "x" })) none false false .empty]]

/-- Whether a run succeeds with an output of which `p` holds. -/
def succeedsWith (m : Surface.Module) (p : ModuleOutput → Bool) : Bool :=
  match (runModule { seeds := ⟨1, 0⟩ } m).1 with
  | .ok out => p out
  | .error _ => false

theorem exists_of_succeedsWith {m : Surface.Module} {p : ModuleOutput → Bool}
    (h : succeedsWith m p = true) :
    ∃ out, (runModule { seeds := ⟨1, 0⟩ } m).1 = .ok out ∧ p out = true := by
  unfold succeedsWith at h
  split at h
  · rename_i out heq
    exact ⟨out, heq, h⟩
  · cases h

/-- Whether an interface has a schema with a variable. -/
def ModuleOutput.interfaceOpen (out : ModuleOutput) : Bool :=
  out.content.submodules.any fun e => e.2.vars.any fun v => !v.2.2.body.leafIds.isEmpty

/-- Whether the schema of a definition has a variable. -/
def ModuleOutput.schemaOpen (out : ModuleOutput) : Bool :=
  out.content.decls.any fun d => !d.schema.body.leafIds.isEmpty

theorem unitSubmodule_interfaceOpen :
    succeedsWith unitSubmodule ModuleOutput.interfaceOpen = true := by cbv

theorem hidingSynonym_schemaOpen :
    succeedsWith hidingSynonym ModuleOutput.schemaOpen = true := by cbv

/-- Both runs succeed. The interface of the submodule has a schema with a variable, and so has `f`. -/
theorem variables_left_by_runModule :
    (∃ out, (runModule { seeds := ⟨1, 0⟩ } unitSubmodule).1 = .ok out ∧
      ∃ e ∈ out.content.submodules, ∃ v ∈ e.2.vars, ¬v.2.2.Closed) ∧
    ∃ out, (runModule { seeds := ⟨1, 0⟩ } hidingSynonym).1 = .ok out ∧
      ∃ d ∈ out.content.decls, ¬d.schema.Closed := by
  have hopen : ∀ {sc : Schema}, (!sc.body.leafIds.isEmpty) = true → ¬sc.Closed := by
    intro sc h hclosed
    rw [show sc.body.leafIds = [] from hclosed.2] at h
    cases h
  constructor
  · obtain ⟨out, hrun, h⟩ := exists_of_succeedsWith unitSubmodule_interfaceOpen
    obtain ⟨e, he, hany⟩ := List.any_eq_true.mp h
    obtain ⟨v, hv, h⟩ := List.any_eq_true.mp hany
    exact ⟨out, hrun, e, he, v, hv, hopen h⟩
  · obtain ⟨out, hrun, h⟩ := exists_of_succeedsWith hidingSynonym_schemaOpen
    obtain ⟨d, hd, h⟩ := List.any_eq_true.mp h
    exact ⟨out, hrun, d, hd, hopen h⟩

/-- The variable of `f` is hidden, and `T` itself has none. -/
theorem closed_of_runModule_hidingSynonym : ∃ out,
    (runModule { seeds := ⟨1, 0⟩ } hidingSynonym).1 = .ok out ∧
    (∃ d ∈ out.content.decls, ∃ i ∈ d.schema.body.leafIds, d.schema.body.Hides i) ∧
    out.content.ClosedTypes := by
  obtain ⟨out, hrun, h⟩ := exists_of_succeedsWith hidingSynonym_schemaOpen
  have hext : External.ClosedTypes {} := by constructor <;> exact List.forall_mem_nil _
  obtain ⟨hdecls, -, -, htypes, -⟩ := closed_of_runModule hext hrun
  obtain ⟨d, hd, h⟩ := List.any_eq_true.mp h
  obtain ⟨i, hi⟩ := List.exists_mem_of_ne_nil d.schema.body.leafIds fun hnil => by
    rw [hnil] at h
    cases h
  exact ⟨out, hrun, ⟨d, hd, i, hi, (hdecls d hd _ (by simp [Decl.types])).2 i hi⟩, htypes⟩

end SizedTypes
