import SizedTypes.Proofs.Infer.Kinding.Sizes
import SizedTypes.Proofs.Run.Params

/-!
# Synonyms in sessions

A declared synonym for a size has the side conditions of this size among its own, so that uses of
the synonym emit them. This needs parameters with ids of their own: one that shares its id with
another could get the kind of the other. So where the counter does not wrap around, all synonyms that
a session exposes are guarded, and every run starts from guarded synonyms.
-/

set_option autoImplicit false

namespace SizedTypes

open Surface (TypeExpr TypeParam)
open SizedTypes.Core (Module)

namespace Infer

variable {c : Context} {E : External} {s s₁ s' : State}

/-! ## Parameters of a declaration -/

namespace Kinding

/-- The parameters of the declaration stand in order, and no two names have parameters with one id. -/
structure OwnIds (params : Table Int Param) : Prop where
  sorted : params.Sorted
  name_eq : ∀ {i j : Int} {p q : Param}, params.find? i = some p → params.find? j = some q →
    p.id = q.id → i = j

variable {params : Table Int Param}

/-- A parameter can be put in place of one with the same id, or where its id is new. -/
theorem OwnIds.insert (h : OwnIds params) {i : Int} {p : Param}
    (hp : ∀ j q, params.find? j = some q → q.id = p.id → j = i) : OwnIds (params.insert i p) where
  sorted := Table.sorted_insert h.sorted
  name_eq {j k q r} hq hr hid := by
    rw [Table.find?_insert] at hq hr
    split at hq <;> split at hr
    · exact ‹j = i›.trans ‹k = i›.symm
    · obtain rfl := Option.some.inj hq
      exact ‹j = i›.trans (hp k r hr hid.symm).symm
    · obtain rfl := Option.some.inj hr
      exact (hp j q hq hid).trans ‹k = i›.symm
    · exact h.name_eq hq hr hid

theorem OwnIds.foldl_demand (h : OwnIds params) (ds : List (Int × Kind)) :
    OwnIds (ds.foldl demand params) := by
  induction ds generalizing params with
  | nil => exact h
  | cons d ds ih =>
    refine ih ?_
    unfold demand
    split
    · rename_i p hp
      exact h.insert fun j q hq hid => h.name_eq hq hp hid
    · exact h

/-- Parameters are declared with new ids. -/
theorem ownIds_declare {ps : List TypeParam} {qs : List Param} {k k' : Kinding}
    (h : KindReturns (declare ps) c k s qs k' s') (hk : OwnIds k.params)
    (hbelow : ∀ i p, k.params.find? i = some p → p.id < s.nextTypeVar)
    (hfresh : Unwrapped s.nextTypeVar ps.length) :
    OwnIds k'.params ∧ (qs.map Param.id).Nodup ∧ ∀ q ∈ qs, s.nextTypeVar ≤ q.id := by
  induction ps generalizing k s qs with
  | nil =>
    obtain ⟨rfl, rfl, rfl⟩ := kindReturns_pure.mp h
    exact ⟨hk, List.nodup_nil, List.forall_mem_nil _⟩
  | cons p ps ih =>
    obtain ⟨q, rest, ws, rfl, rfl, hrest⟩ := kindReturns_declare_cons h
    rw [List.length_cons, Nat.add_comm] at hfresh
    have hnext : Word.next s.nextTypeVar = s.nextTypeVar + 1 :=
      (hfresh.of_le (Nat.le_add_right ..)).iterate
    have hbelow₁ : ∀ i q, (k.params.insert p.name.id
        { id := s.nextTypeVar, kind := p.kind, name := some p.name }).find? i = some q →
        q.id < Word.next s.nextTypeVar := by
      intro i q hq
      rw [Table.find?_insert] at hq
      split at hq
      · obtain rfl := Option.some.inj hq
        exact hnext ▸ lt_add_one _
      · exact (hbelow i q hq).trans (hnext ▸ lt_add_one _)
    obtain ⟨hk', hnodup, hle⟩ := ih hrest
      (hk.insert fun j q hq hid => absurd hid (hbelow j q hq).ne) hbelow₁ hfresh.rest
    have hlater : ∀ q ∈ rest, s.nextTypeVar < q.id := fun q hq => by
      have hlater := hle q hq
      dsimp only at hlater
      omega
    refine ⟨hk', List.nodup_cons.mpr ⟨fun hmem => ?_, hnodup⟩,
      List.forall_mem_cons.mpr ⟨le_rfl, fun q hq => (hlater q hq).le⟩⟩
    obtain ⟨q, hq, hid⟩ := List.mem_map.mp hmem
    exact (hlater q hq).ne' hid

/-- The parameters of a declaration at the end of its check. -/
def finalParams (k : Kinding) {ps : List Param} (hps : (ps.map Param.id).Nodup) : FinalParams where
  params := k.settle ps
  isKnown := List.forall_mem_map.mpr fun _ _ => Kind.isKnown_orElse rfl
  kind_eq := by
    refine List.forall_mem_map.mpr fun p hp => List.forall_mem_map.mpr fun q hq hid => ?_
    rw [List.inj_on_of_nodup_map hps hp hq hid]

/-- A parameter whose kind is known keeps it at the end. -/
theorem OwnIds.leadsTo {k : Kinding} (h : OwnIds k.params) {ps : List Param}
    (hps : (ps.map Param.id).Nodup) : k.LeadsTo (k.finalParams hps) := by
  intro id p hp hknown _ hq hid
  obtain ⟨q, hq, rfl⟩ := List.mem_map.mp hq
  have hvalue : p ∈ k.params.values := List.mem_map_of_mem (f := Prod.snd) (Table.mem_of_find? hp)
  -- the one value with this id is that of the name
  obtain ⟨p', hfind⟩ : ∃ p', k.params.values.find? (fun p' => p'.id == q.id) = some p' :=
    Option.isSome_iff_exists.mp (List.find?_isSome.mpr ⟨p, hvalue, beq_iff_eq.mpr hid.symm⟩)
  have hid' : p'.id = q.id := by simpa using List.find?_some hfind
  obtain ⟨⟨j, r⟩, hmem, rfl⟩ := List.mem_map.mp (List.mem_of_find?_eq_some hfind)
  have hr := Table.find?_of_mem h.sorted hmem
  obtain rfl := h.name_eq hr hp (hid'.trans hid)
  obtain rfl : r = p := Option.some.inj (hr.symm.trans hp)
  dsimp only
  rw [hfind]
  exact Kind.orElse_of_isKnown hknown _

end Kinding

/-! ## Declarations -/

theorem State.within_of_paramsIn {K : Set Int} (hc : c.ParamsIn K) (hs : s.ParamsIn K) :
    s.Within K c.external where
  typeVars id p h := hs.typeVars _ (Table.mem_of_find? h)
  moduleParams id p h := by
    rcases Scope.mem_of_lookup h with hmem | ⟨sc, hsc, hmem⟩
    · cases hmem
    · exact (hs.scopes sc hsc).paramTypes _ hmem
  synonyms id ts h := by
    rcases Scope.mem_of_lookup h with hmem | ⟨sc, hsc, hmem⟩
    · exact (hc.external.synonyms _ hmem).body
    · exact ((hs.scopes sc hsc).synonyms _ hmem).body

/-- All synonyms are guarded, those of the scopes and those of the environment. -/
structure GuardedScopes (E : External) (s : State) : Prop where
  external : ∀ e ∈ E.synonyms, e.2.Guarded
  scopes : ∀ sc ∈ s.scopes, ∀ e ∈ sc.content.synonyms, e.2.Guarded
  existentials : s.existentials = []

namespace GuardedScopes

theorem guarded (h : GuardedScopes E s) : s.Guarded E where
  synonyms id ts hts := by
    rcases Scope.mem_of_lookup hts with hmem | ⟨sc, hsc, hmem⟩
    · exact h.external _ hmem
    · exact h.scopes sc hsc _ hmem
  existentials := h.existentials ▸ List.forall_mem_nil _

theorem frame (h : GuardedScopes E s) (hframe : Frame s s') : GuardedScopes E s' where
  external := h.external
  scopes := hframe.scopes ▸ h.scopes
  existentials := hframe.closed h.existentials

theorem modifyScope {f : Module → Module} {a : Unit} (h : GuardedScopes E s)
    (hr : Returns (Infer.modifyScope f) c s a s')
    (hf : ∀ m : Module, (∀ e ∈ m.synonyms, e.2.Guarded) → ∀ e ∈ (f m).synonyms, e.2.Guarded) :
    GuardedScopes E s' := by
  obtain ⟨sc, rest, hscopes, rfl⟩ := returns_modifyScope hr
  have hall := h.scopes
  rw [hscopes, List.forall_mem_cons] at hall
  exact ⟨h.external, List.forall_mem_cons.mpr ⟨hf _ hall.1, hall.2⟩, h.existentials⟩

theorem pushAll (h : GuardedScopes E s) (vs : List (Name × VarType)) :
    GuardedScopes E (s.pushAll vs) where
  external := h.external
  scopes := by rw [scopes_pushAll]; exact h.scopes
  existentials := (Declared.pushAll s vs).closed h.existentials

end GuardedScopes

open Kinding (NaturalLiterals OwnIds guards_infer ownIds_declare)

/-- The side conditions of the size that a body stands for are among the goals of its check. -/
theorem guarded_of_infer {k k' : Kinding} {body : TypeExpr} {t : Ty × Kind} {ps : List Param}
    {ts : TypeSynonym} (h : KindReturns (Kinding.infer body .unknown) c k s t k' s')
    (hs : s.Guarded c.external) (hnodup : (ps.map Param.id).Nodup)
    (hwithin : s.Within (k'.finalParams hnodup).others c.external) (hown : OwnIds k'.params)
    (hbody : NaturalLiterals body.literals) (hparams : ts.params = k'.settle ps)
    (hprops : ts.props = k'.goals.map fun g => Kinding.settleTy (k'.settle ps) g.prop)
    (hts : ts.body = Kinding.settleTy (k'.settle ps) t.1) : ts.Guarded := by
  intro hmay
  obtain ⟨-, -, -, gs, hgs, hsized⟩ :=
    (guards_infer (G := fun p => ∃ g ∈ k'.goals, g.prop = p) body .unknown hbody).step h hs hwithin
  have hgoals : ∀ g ∈ gs, ∃ g' ∈ k'.goals, g'.prop = g.prop := fun g hg =>
    ⟨g, hgs ▸ List.mem_append_right _ hg, rfl⟩
  have hsize := hsized hgoals (hown.leadsTo hnodup) (.inr (hts ▸ hmay))
  rw [hts, hprops, hparams]
  refine hsize.bind (fun p _ hp _ => ?_) .free fun p hp => ?_
  · obtain ⟨g, hg, rfl⟩ := hp
    exact List.mem_map_of_mem hg
  · cases hfind : (k'.settle ps).find? fun q => q.id == p.id with
    | none => exact .bound hp
    | some q =>
      have hid : q.id = p.id := by simpa using List.find?_some hfind
      exact .bound fun q' hq' hid' => hp q' hq' (hid'.trans hid)

/-- The ids of all parameters are below the counter, which does not wrap around on the way to `s'`. -/
structure Ascends (c : Context) (s s' : State) : Prop where
  context : c.ParamsIn {i | i < s.nextTypeVar}
  state : s.ParamsIn {i | i < s.nextTypeVar}
  unwrapped : Unwrapped s.nextTypeVar (s'.draws - s.draws)

/-- Both parts of a run ascend. -/
theorem Ascends.split {α : Type} {act : Infer α} {P : Set Int → α → Prop} {a : α} {k : Nat}
    (h : Ascends c s s') (hact : Draws {i | i < s.nextTypeVar} act P) (hr : Returns act c s a s₁)
    (hrest : Drew k s₁ s') : Ascends c s s₁ ∧ Ascends c s₁ s' := by
  obtain ⟨j, hfirst, hs₁, -⟩ := hact.step hr h.context h.state
  have hwrap : Unwrapped s.nextTypeVar (j + k) := by
    have hdraws : s'.draws - s.draws = j + k := by
      rw [hrest.draws, hfirst.draws, Nat.add_assoc, Nat.add_sub_cancel_left]
    exact hdraws ▸ h.unwrapped
  have hbelow := (hwrap.of_le (Nat.le_add_right j k)).below
  rw [← hfirst.next] at hbelow
  refine ⟨⟨h.context, h.state, ?_⟩, h.context.mono (Set.subset_union_left.trans hbelow),
    hs₁.mono hbelow, ?_⟩
  · rw [hfirst.draws, Nat.add_sub_cancel_left]
    exact hwrap.of_le (Nat.le_add_right j k)
  · rw [hrest.draws, Nat.add_sub_cancel_left, hfirst.next]
    exact hwrap.rest

/-- A declared synonym is guarded. -/
theorem guarded_checkSynonym {n : Name} {params : List TypeParam} {body : TypeExpr} {range : Range}
    {a : Unit} (h : Returns (checkSynonym n params body range) c s a s')
    (hs : GuardedScopes c.external s) (hascends : Ascends c s s')
    (hbody : NaturalLiterals body.literals) : GuardedScopes c.external s' := by
  obtain ⟨ws, ps, k, s₁, t, k', s₂, ts, hdeclare, hinfer, hparams, hprops, hts, hadd⟩ :=
    returns_checkSynonym h
  have hs₁ := (hs.frame (frame_warnings s ws)).frame ((Kinding.framed_declare _).step hdeclare)
  have hfresh : Unwrapped s.nextTypeVar params.length := by
    have hdeclared := (Kinding.drew_declare hdeclare).1.draws
    obtain ⟨j, hchecked, -⟩ :=
      Kinding.supplies_of_draws (Kinding.draws_infer ..) hinfer hascends.context.solver
    obtain ⟨sc, rest, -, rfl⟩ := returns_modifyScope hadd
    have hlen := congrArg List.length (names_declare hdeclare)
    rw [List.length_map, List.length_map] at hlen
    refine hascends.unwrapped.of_le ?_
    have htotal := hchecked.draws
    dsimp only at hdeclared ⊢
    omega
  obtain ⟨hown, hnodup, hle⟩ := ownIds_declare hdeclare ⟨List.Pairwise.nil, nofun⟩ nofun hfresh
  have hown' : OwnIds k'.params := by
    rw [(Kinding.meets_infer body .unknown).step hinfer (fun _ => rfl) rfl]
    exact hown.foldl_demand _
  -- what was in scope before has other ids than the new parameters
  have hothers : {i | i < s.nextTypeVar} ⊆ (k'.finalParams hnodup).others := by
    intro i hi
    refine List.forall_mem_map.mpr fun q hq hid => ?_
    exact absurd (hle q hq) (not_le.mpr (show q.id < _ from hid ▸ hi))
  have hdeclared : SameScope { s with warnings := ws } s₁ :=
    (Kinding.respects_declare params).step hdeclare
  have hsame : SameScope s s₁ := ⟨hdeclared.vars, hdeclared.scopes, hdeclared.typeVars⟩
  have hwithin := (State.within_of_paramsIn hascends.context hascends.state).mono hothers
  have hguarded := guarded_of_infer hinfer hs₁.guarded hnodup (hwithin.of_sameScope hsame) hown'
    hbody hparams hprops hts
  refine (hs₁.frame ((Kinding.framed_infer ..).step hinfer)).modifyScope hadd fun m hm => ?_
  exact Table.forall_mem_insert hguarded hm

end Infer

/-- The literals of a synonym are natural numbers within the words. -/
def Surface.Decl.NaturalLiterals : Surface.Decl → Prop
  | .synonym _ _ body _ => Infer.Kinding.NaturalLiterals body.literals
  | _ => True

namespace Infer

variable {c : Context} {s s₁ s' : State}

mutual
theorem guarded_checkDecls : ∀ (ds : List Surface.Decl) {top : Bool} {k : Nat} {c : Context}
    {s s' : State}, Returns (checkDecls top ds) c s k s' → s.vars.Sorted → Ascends c s s' →
    (∀ d ∈ Surface.nestedDecls ds, d.NaturalLiterals) → GuardedScopes c.external s →
    GuardedScopes c.external s'
  | [], _, _, c, s, s', h, _, _, _, hguarded => by
    rw [checkDecls, returns_pure] at h
    exact h.2 ▸ hguarded
  | d :: ds, top, k, c, s, s', h, hs, hascends, hlit, hguarded => by
    rw [checkDecls, returns_get_bind] at h
    split at h
    · exact (returns_pure.mp h).2 ▸ hguarded
    · simp only [returns_bind, returns_pure] at h
      obtain ⟨m, s₁, hd, n, _, hds, -, rfl⟩ := h
      obtain ⟨vs, -, hfilled⟩ := filled_checkDecl d hd hs
      obtain ⟨j, hrest, -⟩ := (draws_checkDecls top ds).step hds
        (Context.paramsIn_univ hascends.context.solver) s₁.paramsIn_univ
      obtain ⟨hfirst, hlast⟩ := hascends.split (draws_checkDecl top d) hd hrest
      rw [Surface.nestedDecls, List.forall_mem_append] at hlit
      exact guarded_checkDecls ds hds (hfilled.sorted hs) hlast hlit.2
        (guarded_checkDecl d hd hs hfirst hlit.1 hguarded)

theorem guarded_checkDecl : ∀ (d : Surface.Decl) {top : Bool} {k : Nat} {c : Context}
    {s s' : State}, Returns (checkDecl top d) c s k s' → s.vars.Sorted → Ascends c s s' →
    (∀ d' ∈ d.nested, d'.NaturalLiterals) → GuardedScopes c.external s →
    GuardedScopes c.external s'
  | .synonym n params body range, _, _, c, s, s', h, _, hascends, hlit, hguarded => by
    simp only [checkDecl, returns_bind, returns_pure] at h
    obtain ⟨⟨⟩, _, h, -, rfl⟩ := h
    exact guarded_checkSynonym h hguarded hascends (hlit _ (List.mem_singleton_self _))
  | .newtype n params fields conName range, _, _, c, s, s', h, _, _, _, hguarded => by
    simp only [checkDecl, returns_bind, returns_pure] at h
    obtain ⟨⟨⟩, _, h, -, rfl⟩ := h
    obtain ⟨ps, k, s₁, fs, k', s₂, nt, s₃, hdeclare, hfields, -, -, -, -, hadd, rfl⟩ :=
      returns_checkNewtype h
    have hchecked := (hguarded.frame ((Kinding.framed_declare _).step hdeclare)).frame
      ((Kinding.framed_checkFields _).step hfields)
    exact (hchecked.modifyScope hadd fun _ hm => hm).pushAll [_]
  | .primType n kind props range, _, _, c, s, s', h, _, _, _, hguarded => by
    simp only [checkDecl, returns_bind, returns_pure] at h
    obtain ⟨⟨⟩, _, h, -, rfl⟩ := h
    obtain ⟨ps, k, s₁, hprops, hadd⟩ := returns_checkPrimType h
    exact (hguarded.frame ((Kinding.framed_checkProps _).step hprops)).modifyScope hadd
      fun _ hm => hm
  | .paramType n kind range, _, _, c, s, s', h, _, _, _, hguarded => by
    simp only [checkDecl, returns_bind, returns_pure] at h
    obtain ⟨⟨⟩, _, h, -, rfl⟩ := h
    obtain ⟨p, s₁, hframe, hadd⟩ := returns_checkParamType h
    exact (hguarded.frame hframe).modifyScope hadd fun _ hm => hm
  | .paramProps props range, _, _, c, s, s', h, _, _, _, hguarded => by
    simp only [checkDecl, returns_bind, returns_pure] at h
    obtain ⟨⟨⟩, _, h, -, rfl⟩ := h
    obtain ⟨ps, k, s₁, s₂, s₃, hprops, hframe, hadd, hframe'⟩ := returns_checkParamProps h
    have hchecked := (hguarded.frame ((Kinding.framed_checkProps _).step hprops)).frame hframe
    exact (hchecked.modifyScope hadd fun _ hm => hm).frame hframe'
  | .paramFun n sig range, _, _, c, s, s', h, _, _, _, hguarded => by
    obtain ⟨sc, s₁, s₂, hsig, hadd, rfl, -⟩ := returns_checkDecl_paramFun h
    have hchecked := hguarded.frame ((framed_checkSignature _).step hsig)
    exact (hchecked.modifyScope hadd fun _ hm => hm).pushAll [_]
  | .group recursive binds, _, _, c, s, s', h, hs, _, _, hguarded => by
    obtain ⟨plan, s₁, out, s₂, hplan, hgroup, hadd, -⟩ := returns_checkDecl_group h
    obtain ⟨vs, hlen, hdeclared, hscopes⟩ := declared_planGroup hplan
    have hframe := frame_checkGroup hdeclared hscopes hlen hs (scoped_checkGeneral binds plan)
      (scoped_checkOthers binds plan) hgroup
    exact ((hguarded.frame hframe).pushAll _).modifyScope hadd fun _ hm => hm
  | .submodule n ds range, _, _, c, s, s', h, hs, hascends, hlit, hguarded => by
    obtain ⟨s₁, hds, hclose⟩ := returns_checkDecl_submodule h
    obtain ⟨child, parent, rest, hscopes, -, rfl⟩ := returns_closeSubmodule hclose
    have hopened : GuardedScopes c.external
        { s with scopes := ⟨.submodule, .empty n⟩ :: s.scopes } :=
      ⟨hguarded.external, List.forall_mem_cons.mpr ⟨List.forall_mem_nil _, hguarded.scopes⟩,
        hguarded.existentials⟩
    have hinside : Ascends (c.located range)
        { s with scopes := ⟨.submodule, .empty n⟩ :: s.scopes } s₁ :=
      ⟨⟨hascends.context.external, hascends.context.solver⟩, { hascends.state with
        scopes := List.forall_mem_cons.mpr ⟨Core.Module.paramsIn_empty n, hascends.state.scopes⟩ },
        hascends.unwrapped⟩
    have hinner := guarded_checkDecls ds hds hs hinside (List.forall_mem_cons.mp hlit).2 hopened
    have hall := hinner.scopes
    rw [show s₁.scopes = child :: parent :: rest from hscopes, List.forall_mem_cons,
      List.forall_mem_cons] at hall
    obtain ⟨hchild, hparent, hrest⟩ := hall
    exact ⟨hguarded.external, List.forall_mem_cons.mpr
      ⟨Table.forall_mem_union hparent hchild, hrest⟩, hinner.existentials⟩
end

/-! ## Runs -/

/-- The synonyms of a checked module are guarded, if those of the environment are. -/
theorem guarded_inferModule {input : Input} {m : Surface.Module} {out : ModuleOutput}
    (h : Returns (inferModule m) (contextOf input) (initial input) (.ok out) s')
    (hsolver : input.solver.Confined)
    (hparams : input.external.ParamsIn {i | i < input.seeds.typeVar})
    (hwrap : Unwrapped input.seeds.typeVar s'.draws) (hlit : ∀ d ∈ m.nested, d.NaturalLiterals)
    (hext : ∀ e ∈ input.external.synonyms, e.2.Guarded) :
    ∀ e ∈ out.content.synonyms, e.2.Guarded := by
  obtain ⟨k, declared, finished, hdecls, hfinish, h⟩ := returns_inferModule h
  obtain ⟨-, top, hscopes, hsynonyms, -, -⟩ := returns_moduleOutput h
  obtain ⟨i, hdischarged, -⟩ := Supplies.of_draws draws_finish hfinish hsolver
  obtain ⟨j, hconcluded, -⟩ := Supplies.of_draws (draws_moduleOutput m) h hsolver
  have hascends : Ascends (contextOf input) (begun input m) declared := by
    refine ⟨⟨hparams, hsolver⟩, { Session.paramsIn_initial input with
      scopes := List.forall_mem_singleton.mpr (Core.Module.paramsIn_empty m.name) },
      hwrap.of_le ?_⟩
    have hfirst := hdischarged.draws
    have hsecond := hconcluded.draws
    show declared.draws - 0 ≤ s'.draws
    omega
  have hbegun : GuardedScopes input.external (begun input m) :=
    ⟨hext, List.forall_mem_singleton.mpr (List.forall_mem_nil _), rfl⟩
  have hdeclared := guarded_checkDecls m.decls hdecls List.Pairwise.nil hascends hlit hbegun
  have hend := hdeclared.frame (framed_finish.step hfinish)
  rw [hsynonyms]
  exact hend.scopes top (by rw [hscopes]; exact List.mem_singleton_self _)

end Infer

/-- The literals of all synonyms that a call declares are natural numbers within the words. -/
def Call.NaturalLiterals : Call → Prop
  | .module m => ∀ d ∈ m.nested, d.NaturalLiterals
  | .expr _ => True

/-- In sessions all synonyms that are exposed are guarded. -/
theorem Session.guarded_run {s : Session} {calls : List Call} {E : External} (h : s.Distinct E)
    (hwrap : s.Unwrapped calls) (hlit : ∀ call ∈ calls, call.NaturalLiterals)
    (hext : ∀ e ∈ s.input.external.synonyms, e.2.Guarded) :
    ∀ e ∈ (s.run calls).input.external.synonyms, e.2.Guarded := by
  induction calls generalizing s with
  | nil => exact hext
  | cons call calls ih =>
    obtain ⟨hcall, hcalls⟩ := List.forall_mem_cons.mp hlit
    refine ih (h.call hwrap.1) hwrap.2 hcalls ?_
    cases hresult : (s.call call).1 with
    | error e => exact (Session.alike_of_error hresult).external ▸ hext
    | ok u =>
      cases call with
      | expr x =>
        obtain ⟨out, -, -, -, hexternal⟩ := Session.call_expr_ok hresult
        exact hexternal ▸ hext
      | module m =>
        obtain ⟨out, hrun, -, -, hexternal⟩ := Session.call_module_ok hresult
        obtain ⟨s', hreturns⟩ := Infer.returns_of_start hrun
        have hdraws : Call.draws s.input (.module m) = s'.draws := by rw [Call.draws, hreturns]
        rw [hexternal]
        exact Table.forall_mem_union hext (Infer.guarded_inferModule hreturns h.solver h.below
          (hdraws ▸ hwrap.1) hcall hext)

end SizedTypes
