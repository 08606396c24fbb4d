import SizedTypes.Proofs.Infer.Params.Declarations
import SizedTypes.Proofs.Run.Cancelled
import SizedTypes.Proofs.Run.Closed
import SizedTypes.Session

/-!
# Parameters in sessions

The runs of a session draw the ids of parameters from one counter. A run that succeeds hands the
counter on, and what it exposes has the parameters that it has drawn. So no parameter of a new
declaration is one of a declaration from before.
-/

set_option autoImplicit false

namespace SizedTypes

open SizedTypes.Core (Decl Group Interface Module)

theorem Subst.ParamsIn.zonk {K : Set Int} {θ : Subst} (h : θ.ParamsIn K) {t : Ty}
    (ht : t.ParamsIn K) : (Infer.zonk θ t).ParamsIn K := (h.apply ht).normalize

namespace Infer

variable {K : Set Int} {c : Context} {s s' : State}

/-! ## The end of a run -/

theorem draws_reportUnsolved (gs : List Goal) : Draws K (reportUnsolved gs) fun _ _ => True :=
  .ite (.withRange (draws_recordError _)) (.pure trivial)

theorem draws_finish : Draws K finish fun _ _ => True := by
  have hreport : ∀ {K' : Set Int}, Draws K' reportLeft fun _ _ => True := by
    refine .get_bind fun s _ => (draws_reportUnsolved _).bind fun _ _ _ => ?_
    refine .bind (.modify (fun _ hs => { hs with goals := List.forall_mem_nil _ }) fun _ => ⟨rfl, rfl⟩)
      fun _ _ _ => .get_bind fun s _ => (draws_reportUnsolved _).bind fun _ _ _ => ?_
    exact .modify (fun _ hs => { hs with pending := List.forall_mem_nil _ }) fun _ => ⟨rfl, rfl⟩
  have hdischarge : Draws K discharge fun _ _ => True := by
    refine (draws_simplifyStore true).bind fun _ _ _ => ?_
    refine Draws.bind (P := fun _ _ => True) (.get_bind fun _ _ => .pure trivial) fun _ vs _ => ?_
    refine .ite (.get_bind fun s hs => ?_) (.pure trivial)
    refine (draws_defaultVars ..).bind fun hK _ _ => ?_
    refine (draws_simplifyGoals fun g hg => (hs.goals g hg).mono hK).bind fun _ gs hgs => ?_
    exact (draws_setGoals hgs).bind fun _ _ _ => draws_simplifyStore true
  rw [finish_eq]
  exact hdischarge.bind fun _ _ _ => hreport

theorem draws_closeTop : Draws K closeTop Core.Module.ParamsIn := by
  refine .get_bind fun s _ => ?_
  split
  · exact .throw_bind
  · exact draws_popScope _

theorem draws_checkResolved (ds : List Decl) : Draws K (checkResolved ds) fun _ _ => True := by
  refine .get_bind fun s _ => .ite ?_ (.pure trivial)
  refine .forM (I := fun _ _ => True) (fun _ _ _ => trivial) (fun _ _ => trivial) fun _ _ => ?_
  exact .ite (.withRange (draws_recordError _)) (.pure trivial)

theorem draws_resolving {α : Type} {act : Resolver → StateM Supply α} {P : Set Int → α → Prop}
    (h : ∀ s : State, s.ParamsIn K → P K (act (resolver s) s.supply).1) :
    Draws K (resolving act) P :=
  .of_keeps fun hr _ hs => by
    obtain ⟨rfl, rfl⟩ := returns_resolving.mp hr
    exact ⟨⟨rfl, rfl⟩, { hs with }, h _ hs⟩

theorem draws_resolveModule {m : Module} (hm : m.ParamsIn K) :
    Draws K (resolveModule m) Core.Module.ParamsIn := by
  have hgroups : ∀ s : State, s.ParamsIn K →
      ∀ d ∈ ((resolver s).groups m.groups s.supply).1.flatMap Group.decls, d.schema.ParamsIn K := by
    intro s hs d' hd'
    obtain ⟨d, hd, -, hschema⟩ := (resolver s).exists_of_mem_groups hd'
    rw [hschema]
    exact (hm.decls d hd).mapTypes fun t ht => hs.subst.zonk ht
  refine (draws_resolving (P := fun K' gs => ∀ d ∈ gs.flatMap Group.decls, d.schema.ParamsIn K')
    hgroups).bind fun hK₁ gs hgs => .get_bind fun s _ => ?_
  exact (draws_checkResolved _).bind fun hK₂ _ _ => .pure { (hm.mono hK₁).mono hK₂ with
    decls := fun d hd => (hgs d hd).mono hK₂ }

theorem draws_conclude : Draws K conclude fun _ _ => True :=
  .of_keeps fun h _ hs => by
    unfold conclude at h
    rw [returns_get_bind, returns_set_bind, returns_pure] at h
    obtain ⟨-, rfl⟩ := h
    exact ⟨⟨rfl, rfl⟩, { hs with }, trivial⟩

theorem draws_seeds : Draws K seeds fun _ _ => True :=
  .get_bind fun _ _ => .get_bind fun _ _ => .pure trivial

theorem draws_moduleOutput (m : Surface.Module) :
    Draws K (moduleOutput m) fun K' r => ∀ out, r = .ok out → out.content.ParamsIn K' := by
  refine draws_closeTop.bind fun _ content hcontent => ?_
  have himports : Core.Module.ParamsIn _ { content with imports := m.imports } :=
    { hcontent with decls := hcontent.decls }
  refine (draws_resolveModule himports).bind fun hK₁ content hcontent => ?_
  refine draws_conclude.bind fun hK₂ concluded _ => ?_
  split
  · exact .pure nofun
  · refine (draws_trace _).bind fun hK₃ _ _ => draws_seeds.bind fun hK₄ _ _ => .pure ?_
    rintro out ⟨⟩
    exact hcontent.mono ((hK₂.trans hK₃).trans hK₄)

theorem draws_elaborate (e : Surface.Expr) :
    Draws K (elaborate e) fun K' ds => ∀ d ∈ ds, d.schema.ParamsIn K' := by
  refine (draws_freshName _).bind fun _ _ _ => (draws_openScope ..).bind fun _ _ _ => ?_
  refine (draws_freshName _).bind fun _ n _ => (draws_freshType ..).bind fun _ t ht => ?_
  have hchecked : ∀ {K' : Set Int} {t : Ty} (b : Surface.Bind), t.ParamsIn K' → Draws K' (do
      let d ← checkMono b t fun exp => checkBody b exp
      simplifyStore false
      return d) fun K' d => d.schema.ParamsIn K' := fun b ht =>
    (draws_checkMono b ht fun _ _ hexp => draws_checkBody b hexp).bind fun _ d hd =>
      (draws_simplifyStore false).bind fun hK _ _ => .pure (hd.2.2.mono hK)
  refine (draws_collectGoals (P := fun K' d => d.schema.ParamsIn K') (hchecked _ ht)).bind
    fun _ r hr => .get_bind fun s hs => ?_
  refine (draws_defaultVars ..).bind fun hK₁ _ _ => ?_
  refine (draws_simplifyGoals fun g hg => (hr.2 g hg).mono hK₁).bind fun hK₂ gs hgs => ?_
  exact draws_generalize (List.forall_mem_singleton.mpr (hr.1.mono (hK₁.trans hK₂))) hgs []

theorem draws_concludeExpr (ds : List Decl) : Draws K (concludeExpr ds) fun _ _ => True := by
  refine draws_finish.bind fun _ _ _ => draws_closeTop.discard.bind fun _ _ _ => ?_
  refine (draws_resolving (P := fun _ _ => True) fun _ _ => trivial).bind fun _ ds _ => ?_
  refine (draws_checkResolved _).bind fun _ _ _ => draws_conclude.bind fun _ concluded _ => ?_
  split
  · exact .pure trivial
  · exact draws_seeds.bind fun _ _ _ => .pure trivial
  · exact draws_seeds.bind fun _ _ _ => .pure trivial

theorem draws_inferExpr (e : Surface.Expr) : Draws K (inferExpr e) fun _ _ => True := by
  rw [inferExpr_eq]
  refine (draws_elaborate e).bind fun _ ds _ => .get_bind fun s _ => .ite (.pure trivial) ?_
  exact draws_concludeExpr ds

theorem draws_inferModule (m : Surface.Module) :
    Draws K (inferModule m) fun K' r => ∀ out, r = .ok out → out.content.ParamsIn K' := by
  refine (draws_trace _).bind fun _ _ _ => (draws_openScope ..).bind fun _ _ _ => ?_
  refine (draws_checkDecls true m.decls).discard.bind fun _ _ _ => .get_bind fun s _ => ?_
  exact .ite (.pure nofun) (draws_finish.bind fun _ _ _ => draws_moduleOutput m)

/-! ## The seeds of the next run -/

theorem returns_seeds {sd : Seeds} :
    Returns seeds c s sd s' ↔ sd = ⟨s.nextTypeVar, s.nextGoal⟩ ∧ s' = s := returns_pure (c := c)

/-- A successful run hands on the counter of its last state. -/
theorem returns_moduleOutput {m : Surface.Module} {out : ModuleOutput}
    (h : Returns (moduleOutput m) c s (.ok out) s') : out.seeds.typeVar = s'.nextTypeVar ∧
      ∃ top, s.scopes = [top] ∧ out.content.synonyms = top.content.synonyms ∧
        out.content.newtypes = top.content.newtypes ∧
        out.content.groups = ((resolver s).groups top.content.groups s.supply).1 := by
  unfold moduleOutput at h
  obtain ⟨_, s₁, htop, h⟩ := returns_bind.mp h
  obtain ⟨top, hscopes, rfl, rfl⟩ := returns_closeTop htop
  obtain ⟨content, s₂, hresolve, h⟩ := returns_bind.mp h
  obtain ⟨concluded, s₃, -, h⟩ := returns_bind.mp h
  cases concluded with
  | error f => cases (returns_pure.mp h).1
  | ok ws =>
    obtain ⟨⟨⟩, s₄, -, h⟩ := returns_bind.mp h
    obtain ⟨sd, _, hseeds, h⟩ := returns_bind.mp h
    obtain ⟨hout, rfl⟩ := returns_pure.mp h
    cases hout
    obtain ⟨rfl, rfl⟩ := returns_seeds.mp hseeds
    obtain ⟨rfl, -⟩ := returns_resolveModule hresolve
    exact ⟨rfl, top, hscopes, rfl, rfl, rfl⟩

theorem seeds_inferExpr {e : Surface.Expr} {out : ExprOutput}
    (h : Returns (inferExpr e) c s (.ok out) s') : out.seeds.typeVar = s'.nextTypeVar := by
  rw [inferExpr_eq] at h
  obtain ⟨ds, s₁, -, h⟩ := returns_bind.mp h
  rw [returns_get_bind] at h
  split at h
  · cases (returns_pure.mp h).1
  · unfold concludeExpr at h
    obtain ⟨⟨⟩, s₂, -, h⟩ := returns_bind.mp h
    obtain ⟨⟨⟩, s₃, -, h⟩ := returns_bind.mp h
    obtain ⟨resolved, s₄, -, h⟩ := returns_bind.mp h
    obtain ⟨⟨⟩, s₅, -, h⟩ := returns_bind.mp h
    obtain ⟨concluded, s₆, -, h⟩ := returns_bind.mp h
    split at h
    · cases (returns_pure.mp h).1
    all_goals
      obtain ⟨sd, _, hseeds, h⟩ := returns_bind.mp h
      obtain ⟨hout, rfl⟩ := returns_pure.mp h
      cases hout
      obtain ⟨rfl, rfl⟩ := returns_seeds.mp hseeds
      rfl

/-- The content of a checked module declares what its declarations have added to the scope. -/
theorem declared_inferModule {input : Input} {m : Surface.Module} {out : ModuleOutput}
    (hc : input.solver.Confined)
    (h : Returns (inferModule m) (contextOf input) (initial input) (.ok out) s') :
    out.seeds.typeVar = s'.nextTypeVar ∧
      ∃ N, Supplies N (initial input) s' ∧ out.content.DeclaredIn N := by
  obtain ⟨k, declared, finished, hdecls, hfinish, h⟩ := returns_inferModule h
  obtain ⟨N, hN⟩ := declares_checkDecls m.decls hdecls hc List.Pairwise.nil
  have hend := (Supplies.of_draws draws_finish hfinish hc).before
    (Supplies.of_draws (draws_moduleOutput m) h hc)
  have hdeclared : Supplies N (initial input) declared := hN.supplies.start rfl rfl
  obtain ⟨j, hdrew, hspread⟩ := hdeclared.after hend
  obtain ⟨hseeds, top, hscopes, hsynonyms, hnewtypes, hgroups⟩ := returns_moduleOutput h
  have htop : top.content.DeclaredIn N := by
    refine hN.scopes N le_rfl (List.forall_mem_singleton.mpr (.empty m.name)) top ?_
    rw [← (framed_finish.step hfinish).scopes, hscopes]
    exact List.mem_singleton_self _
  let final := Declaration.mapTypes (zonk finished.subst)
  have hparams := Declaration.params_mapTypes (zonk finished.subst)
  have himage := fun hwrap => (hspread hwrap).image hparams
  refine ⟨hseeds, final '' N, ⟨j, hdrew, himage⟩, ?_, ?_, fun d' hd' => ?_⟩
  · exact fun e he => ⟨_, htop.synonyms e (hsynonyms ▸ he), rfl⟩
  · exact fun e he => ⟨_, htop.newtypes e (hnewtypes ▸ he), rfl⟩
  · rw [Core.Module.decls, hgroups] at hd'
    obtain ⟨d, hd, hname, hschema⟩ := (resolver finished).exists_of_mem_groups hd'
    exact ⟨_, htop.values d hd, by rw [hname, hschema]; rfl⟩

end Infer

/-! ## Interfaces and environments -/

/-- The synonyms, newtypes and values of an interface. -/
inductive Core.Interface.Declares (i : Interface) : Declaration → Prop
  | synonym {e : Int × TypeSynonym} : e ∈ i.synonyms → Declares i (.synonym e.2)
  | newtype {e : Int × Newtype} : e ∈ i.newtypes → Declares i (.newtype e.2)
  | value {e : Int × Name × Schema} : e ∈ i.vars → Declares i (.value e.1 e.2.2)

/-- The synonyms, newtypes and values of an environment, also those of its interfaces. -/
inductive External.Declares (E : External) : Declaration → Prop
  | synonym {e : Int × TypeSynonym} : e ∈ E.synonyms → Declares E (.synonym e.2)
  | newtype {e : Int × Newtype} : e ∈ E.newtypes → Declares E (.newtype e.2)
  | value {e : Int × Schema} : e ∈ E.vars → Declares E (.value e.1 e.2)
  | member {e : Int × Interface} {d : Declaration} : e ∈ E.interfaces → e.2.Declares d →
    Declares E d

/-- Two declarations are the same, where a newtype and its constructor function count as one. -/
inductive Declaration.SameAs : Declaration → Declaration → Prop
  | refl (d : Declaration) : SameAs d d
  | constructor (nt : Newtype) : SameAs (.newtype nt) (.constructor nt)
  | newtype (nt : Newtype) : SameAs (.constructor nt) (.newtype nt)

/-- Values are the same only if they are equal. -/
theorem Declaration.SameAs.value {id id' : Int} {sc sc' : Schema}
    (h : SameAs (.value id sc) (.value id' sc')) : id = id' ∧ sc = sc' := by
  generalize hd : Declaration.value id sc = d at h
  generalize hd' : Declaration.value id' sc' = d' at h
  cases h with
  | refl => exact Declaration.value.inj (hd.trans hd'.symm)
  | constructor nt => cases hd
  | newtype nt => cases hd'

section Exposure

variable {K : Set Int} {D : Set Declaration} {m : Module} {i : Interface} {E : External}
  {d : Declaration}

theorem Core.Module.ParamsIn.interface (h : m.ParamsIn K) : m.interface.ParamsIn K where
  synonyms := h.synonyms
  newtypes := h.newtypes
  primTypes := h.primTypes
  vars e he := by
    rcases List.mem_append.mp (Table.mem_ofList he) with he | he
    · obtain ⟨d, hd, rfl⟩ := List.mem_map.mp he
      exact h.decls d hd
    · obtain ⟨nt, hnt, rfl⟩ := List.mem_map.mp he
      obtain ⟨entry, hentry, rfl⟩ := List.mem_map.mp hnt
      exact (h.newtypes entry hentry).conSchema

theorem External.ParamsIn.expose (h : E.ParamsIn K) (hi : i.ParamsIn K) :
    (E.expose i).ParamsIn K where
  synonyms := Table.forall_mem_union h.synonyms hi.synonyms
  newtypes := Table.forall_mem_union h.newtypes hi.newtypes
  primTypes := Table.forall_mem_union h.primTypes hi.primTypes
  vars := Table.forall_mem_union h.vars (List.forall_mem_map.mpr hi.vars)
  interfaces := Table.forall_mem_insert hi h.interfaces

theorem Core.Interface.ParamsIn.declares (h : i.ParamsIn K) (hd : i.Declares d) :
    ∀ p ∈ d.params, p.id ∈ K := by
  cases hd with
  | synonym he => exact (h.synonyms _ he).params
  | newtype he => exact (h.newtypes _ he).params
  | value he => exact (h.vars _ he).params

theorem External.ParamsIn.declares (h : E.ParamsIn K) (hd : E.Declares d) :
    ∀ p ∈ d.params, p.id ∈ K := by
  cases hd with
  | synonym he => exact (h.synonyms _ he).params
  | newtype he => exact (h.newtypes _ he).params
  | value he => exact (h.vars _ he).params
  | member he hd => exact (h.interfaces _ he).declares hd

/-- The interface of a module declares what the module does, and the constructors of newtypes. -/
theorem Core.Module.DeclaredIn.interface (h : m.DeclaredIn D) (hd : m.interface.Declares d) :
    d ∈ D ∨ ∃ nt, .newtype nt ∈ D ∧ d = .constructor nt := by
  cases hd with
  | synonym he => exact Or.inl (h.synonyms _ he)
  | newtype he => exact Or.inl (h.newtypes _ he)
  | value he =>
    rcases List.mem_append.mp (Table.mem_ofList he) with he | he
    · obtain ⟨d, hd, rfl⟩ := List.mem_map.mp he
      exact Or.inl (h.values d hd)
    · obtain ⟨nt, hnt, rfl⟩ := List.mem_map.mp he
      obtain ⟨entry, hentry, rfl⟩ := List.mem_map.mp hnt
      exact Or.inr ⟨_, h.newtypes entry hentry, rfl⟩

theorem External.Declares.value_cases {id : Int} {sc : Schema} (h : E.Declares (.value id sc)) :
    (id, sc) ∈ E.vars ∨ ∃ e ∈ E.interfaces, e.2.Declares (.value id sc) := by
  generalize hd : Declaration.value id sc = d at h
  cases h with
  | synonym he => cases hd
  | newtype he => cases hd
  | value he =>
    cases hd
    exact Or.inl he
  | member he hmember => exact Or.inr ⟨_, he, hd ▸ hmember⟩

theorem External.declares_expose (hd : (E.expose i).Declares d) : E.Declares d ∨ i.Declares d := by
  cases hd with
  | synonym he =>
    exact Table.forall_mem_union (P := fun e => E.Declares (.synonym e.2) ∨ i.Declares (.synonym e.2))
      (fun e he => Or.inl (.synonym he)) (fun e he => Or.inr (.synonym he)) _ he
  | newtype he =>
    exact Table.forall_mem_union (P := fun e => E.Declares (.newtype e.2) ∨ i.Declares (.newtype e.2))
      (fun e he => Or.inl (.newtype he)) (fun e he => Or.inr (.newtype he)) _ he
  | value he =>
    exact Table.forall_mem_union
      (P := fun e => E.Declares (.value e.1 e.2) ∨ i.Declares (.value e.1 e.2))
      (fun e he => Or.inl (.value he)) (List.forall_mem_map.mpr fun e he => Or.inr (.value he)) _ he
  | member he hd =>
    exact Table.forall_mem_insert (P := fun e => e.2.Declares d → E.Declares d ∨ i.Declares d)
      (fun hd => Or.inr hd) (fun e he hd => Or.inl (.member he hd)) _ he hd

/-- Declarations of an interface that share a parameter are the same. -/
theorem Spread.sameAs {A : Set Int} (h : Spread A D) (hm : m.DeclaredIn D) {d' : Declaration}
    (hd : m.interface.Declares d) (hd' : m.interface.Declares d') {p p' : Param}
    (hp : p ∈ d.params) (hp' : p' ∈ d'.params) (heq : p.id = p'.id) : d.SameAs d' := by
  rcases hm.interface hd with hd | ⟨nt, hnt, rfl⟩ <;>
    rcases hm.interface hd' with hd' | ⟨nt', hnt', rfl⟩
  · cases h.apart d hd d' hd' p hp p' hp' heq
    exact .refl d
  · cases h.apart d hd _ hnt' p hp p' hp' heq
    exact .constructor nt'
  · cases h.apart _ hnt d' hd' p hp p' hp' heq
    exact .newtype nt
  · cases h.apart _ hnt _ hnt' p hp p' hp' heq
    exact .refl _

/-- The declarations of an interface have parameters with ids from `A`. -/
theorem Spread.interface {A : Set Int} (h : Spread A D) (hm : m.DeclaredIn D)
    (hd : m.interface.Declares d) : ∀ p ∈ d.params, p.id ∈ A := by
  rcases hm.interface hd with hd | ⟨nt, hnt, rfl⟩
  · exact h.within d hd
  · exact h.within (.newtype nt) hnt

end Exposure

/-! ## Sessions -/

/-- A call of a session. -/
inductive Call where
  | module (m : Surface.Module)
  | expr (e : Surface.Expr)

/-- How many ids of variables and parameters the run of a call draws. -/
def Call.draws (input : Input) : Call → Nat
  | .module m =>
    ((Infer.inferModule m).exec (Infer.contextOf input) (Infer.initial input)).2.draws
  | .expr e => ((Infer.inferExpr e).exec (Infer.contextOf input) (Infer.initial input)).2.draws

namespace Session

def call (s : Session) : Call → Except RunError Unit × Session
  | .module m => ((s.checkModule m).1.map fun _ => (), (s.checkModule m).2.2)
  | .expr e => ((s.checkExpr e).1.map fun _ => (), (s.checkExpr e).2.2)

def run (s : Session) (calls : List Call) : Session := calls.foldl (fun s call => (s.call call).2) s

/-- In none of the calls the counter of variables and parameters wraps around. -/
def Unwrapped (s : Session) : List Call → Prop
  | [] => True
  | call :: calls =>
    SizedTypes.Unwrapped s.input.seeds.typeVar (call.draws s.input) ∧ (s.call call).2.Unwrapped calls

/-- Two sessions start their next runs with the same solver, seeds and environment. -/
structure Alike (s s' : Session) : Prop where
  solver : s'.input.solver = s.input.solver
  seeds : s'.input.seeds = s.input.seeds
  external : s'.input.external = s.input.external

theorem alike_noteError (s : Session) (obs : Observations) (e : RunError) :
    s.Alike ((s.observe obs).noteError e) := by
  cases e <;> exact ⟨rfl, rfl, rfl⟩

variable {s : Session}

/-- A call that fails leaves the seeds and the environment as they are. -/
theorem alike_of_error {call : Call} {e : RunError} (h : (s.call call).1 = .error e) :
    s.Alike (s.call call).2 := by
  cases call with
  | module m =>
    rw [Session.call] at h ⊢
    unfold checkModule at h ⊢
    generalize runModule s.input m = r at h ⊢
    obtain ⟨_ | out, obs⟩ := r
    · exact alike_noteError s obs _
    · cases h
  | expr x =>
    rw [Session.call] at h ⊢
    unfold checkExpr at h ⊢
    generalize runExpr s.input x = r at h ⊢
    obtain ⟨_ | out, obs⟩ := r
    · exact alike_noteError s obs _
    · cases h

theorem call_module_ok {m : Surface.Module} {u : Unit} (h : (s.call (.module m)).1 = .ok u) :
    ∃ out, (runModule s.input m).1 = .ok out ∧
      (s.call (.module m)).2.input.solver = s.input.solver ∧
      (s.call (.module m)).2.input.seeds = out.seeds ∧
      (s.call (.module m)).2.input.external = s.input.external.expose out.content.interface := by
  rw [Session.call] at h ⊢
  unfold checkModule at h ⊢
  generalize runModule s.input m = r at h ⊢
  obtain ⟨_ | out, obs⟩ := r
  · cases h
  · exact ⟨out, rfl, rfl, rfl, rfl⟩

theorem call_expr_ok {x : Surface.Expr} {u : Unit} (h : (s.call (.expr x)).1 = .ok u) :
    ∃ out, (runExpr s.input x).1 = .ok out ∧
      (s.call (.expr x)).2.input.solver = s.input.solver ∧
      (s.call (.expr x)).2.input.seeds = out.seeds ∧
      (s.call (.expr x)).2.input.external = s.input.external := by
  rw [Session.call] at h ⊢
  unfold checkExpr at h ⊢
  generalize runExpr s.input x = r at h ⊢
  obtain ⟨_ | out, obs⟩ := r
  · cases h
  · exact ⟨out, rfl, rfl, rfl, rfl⟩

/-- Between calls: the solver is confined, all parameters of the environment are below the seeds,
and declarations that share a parameter are the same or come both from the environment `E`. -/
structure Distinct (E : External) (s : Session) : Prop where
  solver : s.input.solver.Confined
  below : s.input.external.ParamsIn {i | i < s.input.seeds.typeVar}
  apart : ∀ d d', s.input.external.Declares d → s.input.external.Declares d' →
    ∀ p ∈ d.params, ∀ p' ∈ d'.params, p.id = p'.id → d.SameAs d' ∨ E.Declares d ∧ E.Declares d'

variable {E : External}

theorem paramsIn_initial {K : Set Int} (input : Input) : (Infer.initial input).ParamsIn K where
  vars := List.forall_mem_nil _
  stash := List.forall_mem_nil _
  params := List.forall_mem_nil _
  typeVars := List.forall_mem_nil _
  assumptions := List.forall_mem_nil _
  existentials := List.forall_mem_nil _
  subst := Subst.paramsIn_empty
  goals := List.forall_mem_nil _
  pending := List.forall_mem_nil _
  scopes := List.forall_mem_nil _

theorem Distinct.alike {s' : Session} (h : s.Distinct E) (hs : s.Alike s') : s'.Distinct E where
  solver := hs.solver ▸ h.solver
  below := by rw [hs.external, hs.seeds]; exact h.below
  apart := by rw [hs.external]; exact h.apart

/-- What a module exposes has parameters that its run has drawn, and they are below the new seeds. -/
theorem Distinct.module {m : Surface.Module} {u : Unit} (h : s.Distinct E)
    (hwrap : SizedTypes.Unwrapped s.input.seeds.typeVar (Call.draws s.input (.module m)))
    (hok : (s.call (.module m)).1 = .ok u) : (s.call (.module m)).2.Distinct E := by
  obtain ⟨out, hrun, hsolver, hseeds, hexternal⟩ := call_module_ok hok
  obtain ⟨s', hreturns⟩ := Infer.returns_of_start hrun
  obtain ⟨hnext, N, ⟨k, hdrew, hspread⟩, hN⟩ := Infer.declared_inferModule h.solver hreturns
  obtain ⟨j, hdrew', -, hcontent⟩ :=
    (Infer.draws_inferModule m).step hreturns ⟨h.below, h.solver⟩ (paramsIn_initial s.input)
  have hk : Call.draws s.input (.module m) = k := by
    rw [Call.draws, hreturns, hdrew.draws]
    exact Nat.zero_add k
  obtain rfl : k = j := by
    have hdraws := hdrew.draws.symm.trans hdrew'.draws
    omega
  rw [hk] at hwrap
  have hlast : (s.call (.module m)).2.input.seeds.typeVar =
      Word.next^[k] s.input.seeds.typeVar := by rw [hseeds, hnext, hdrew.next]; rfl
  have hinterface : out.content.interface.ParamsIn _ := ((hcontent out rfl).mono hwrap.below).interface
  have hold : s.input.external.ParamsIn _ := h.below.mono (Set.subset_union_left.trans hwrap.below)
  -- a parameter of the module is none of the environment before
  have hnew : ∀ d d', s.input.external.Declares d → out.content.interface.Declares d' →
      ∀ p ∈ d.params, ∀ p' ∈ d'.params, p.id ≠ p'.id := by
    intro d d' hd hd' p hp p' hp' heq
    have hlt : p.id < s.input.seeds.typeVar := h.below.declares hd p hp
    have hle := (hwrap.mem_drawn ((hspread hwrap).interface hN hd' p' hp')).1
    omega
  refine ⟨?_, ?_, ?_⟩
  · rw [hsolver]
    exact h.solver
  · rw [hexternal, hlast]
    exact hold.expose hinterface
  · rw [hexternal]
    intro d d' hd hd' p hp p' hp' heq
    rcases External.declares_expose hd with hd | hd <;>
      rcases External.declares_expose hd' with hd' | hd'
    · exact h.apart d d' hd hd' p hp p' hp' heq
    · exact absurd heq (hnew d d' hd hd' p hp p' hp')
    · exact absurd heq.symm (hnew d' d hd' hd p' hp' p hp)
    · exact Or.inl ((hspread hwrap).sameAs hN hd hd' hp hp' heq)

/-- An expression exposes nothing. -/
theorem Distinct.expr {x : Surface.Expr} {u : Unit} (h : s.Distinct E)
    (hwrap : SizedTypes.Unwrapped s.input.seeds.typeVar (Call.draws s.input (.expr x)))
    (hok : (s.call (.expr x)).1 = .ok u) : (s.call (.expr x)).2.Distinct E := by
  obtain ⟨out, hrun, hsolver, hseeds, hexternal⟩ := call_expr_ok hok
  obtain ⟨s', hreturns⟩ := Infer.returns_of_start hrun
  obtain ⟨k, hdrew, -⟩ :=
    (Infer.draws_inferExpr x).step hreturns ⟨h.below, h.solver⟩ (paramsIn_initial s.input)
  have hk : Call.draws s.input (.expr x) = k := by
    rw [Call.draws, hreturns, hdrew.draws]
    exact Nat.zero_add k
  rw [hk] at hwrap
  have hlast : (s.call (.expr x)).2.input.seeds.typeVar = Word.next^[k] s.input.seeds.typeVar := by
    rw [hseeds, Infer.seeds_inferExpr hreturns, hdrew.next]
    rfl
  refine ⟨?_, ?_, ?_⟩
  · rw [hsolver]
    exact h.solver
  · rw [hexternal, hlast]
    exact h.below.mono (Set.subset_union_left.trans hwrap.below)
  · rw [hexternal]
    exact h.apart

theorem Distinct.call {call : Call} (h : s.Distinct E)
    (hwrap : SizedTypes.Unwrapped s.input.seeds.typeVar (call.draws s.input)) :
    (s.call call).2.Distinct E := by
  cases hresult : (s.call call).1 with
  | error e => exact h.alike (alike_of_error hresult)
  | ok u =>
    cases call with
    | module m => exact h.module hwrap hresult
    | expr x => exact h.expr hwrap hresult

theorem Distinct.run {calls : List Call} (h : s.Distinct E) (hwrap : s.Unwrapped calls) :
    (s.run calls).Distinct E := by
  induction calls generalizing s with
  | nil => exact h
  | cons call calls ih => exact ih (h.call hwrap.1) hwrap.2

end Session

/-- Ids of type parameters never collide in a session. Started with seeds above all parameters of its
environment, after any calls in which the counter does not wrap around, the seeds are above all
parameters that occur in the environment, and declarations of the environment that share a parameter
are the same or were both there from the start. A call that fails leaves the seeds and the
environment as they are. -/
theorem typeParams_never_collide (s : Session) (calls : List Call)
    (hsolver : s.input.solver.Confined)
    (hseeds : s.input.external.ParamsIn {i | i < s.input.seeds.typeVar})
    (hwrap : s.Unwrapped calls) :
    (s.run calls).input.external.ParamsIn {i | i < (s.run calls).input.seeds.typeVar} ∧
    (∀ d d', (s.run calls).input.external.Declares d → (s.run calls).input.external.Declares d' →
      ∀ p ∈ d.params, ∀ p' ∈ d'.params, p.id = p'.id →
        d.SameAs d' ∨ s.input.external.Declares d ∧ s.input.external.Declares d') ∧
    ∀ call e, ((s.run calls).call call).1 = .error e →
      ((s.run calls).call call).2.input.seeds = (s.run calls).input.seeds ∧
      ((s.run calls).call call).2.input.external = (s.run calls).input.external := by
  have hstart : s.Distinct s.input.external :=
    ⟨hsolver, hseeds, fun d d' hd hd' _ _ _ _ _ => Or.inr ⟨hd, hd'⟩⟩
  have hend := hstart.run hwrap
  refine ⟨hend.below, hend.apart, fun call e h => ?_⟩
  have halike := Session.alike_of_error h
  exact ⟨halike.seeds, halike.external⟩

/-! ## A function beside one of the host -/

/-- `a -> a` over the parameter with the given id. -/
def identitySchema (id : Int) : Schema where
  params := [{ id, kind := .type }]
  body := .arrow (.bound { id, kind := .type }) (.bound { id, kind := .type })

/-- A session in which the host has a function `h : a -> a` over parameter 0. -/
def hostSession : Session where
  input := { seeds := ⟨1, 0⟩, external := { vars := [(7, identitySchema 0)] } }

/-- `f x = x`. -/
def identityModule : Surface.Module where
  name := { id := 1, ident := "Main" }
  decls := [.group false [.mk { id := 8, ident := "f" }
    [.var { id := 9, ident := "x" }] (some (.var { id := 9, ident := "x" })) none false false .empty]]

/-- The module, then the expression `f`. -/
def identityCalls : List Call := [.module identityModule, .expr (.var { id := 8, ident := "f" })]

/-- Whether a schema with parameters is exposed for `f`, and one over parameter 0 for `h`. -/
def exposesIdentity : Bool :=
  match (hostSession.run identityCalls).input.external.vars.find? 8,
    (hostSession.run identityCalls).input.external.vars.find? 7 with
  | some sc, some host => !sc.params.isEmpty && host.params.any fun p => p.id == 0
  | _, _ => false

theorem exposesIdentity_eq_true : exposesIdentity = true := by cbv

theorem unwrapped_identityCalls : hostSession.Unwrapped identityCalls := by
  have hmodule : Call.draws hostSession.input (.module identityModule) = 4 := by cbv
  have hseeds : (hostSession.call (.module identityModule)).2.input.seeds.typeVar = 5 := by cbv
  have hexpr : Call.draws (hostSession.call (.module identityModule)).2.input
      (.expr (.var { id := 8, ident := "f" })) = 3 := by cbv
  refine ⟨?_, ?_, trivial⟩
  · rw [hmodule]
    decide
  · rw [hseeds, hexpr]
    decide

theorem paramsIn_hostSession :
    hostSession.input.external.ParamsIn {i | i < hostSession.input.seeds.typeVar} := by
  have hid : (0 : Int) ∈ {i | i < hostSession.input.seeds.typeVar} := Int.one_pos
  constructor
  case vars =>
    refine List.forall_mem_singleton.mpr ⟨List.forall_mem_singleton.mpr hid, List.forall_mem_nil _, ?_⟩
    exact Ty.paramsIn_arrow.mpr ⟨.bound hid, .bound hid⟩
  all_goals exact List.forall_mem_nil _

/-- The parameters of `f` are none of those of `h`, and they are below the seeds. -/
theorem typeParams_never_collide_identity : ∃ sc,
    (8, sc) ∈ (hostSession.run identityCalls).input.external.vars ∧ sc.params ≠ [] ∧
    ∀ p ∈ sc.params, p.id ≠ 0 ∧ p.id < (hostSession.run identityCalls).input.seeds.typeVar := by
  have h := exposesIdentity_eq_true
  unfold exposesIdentity at h
  split at h
  · rename_i sc host hfind hhost
    obtain ⟨hnonempty, hzero⟩ := Bool.and_eq_true_iff.mp h
    obtain ⟨q, hq, hqid⟩ := List.any_eq_true.mp hzero
    obtain ⟨hbelow, happart, -⟩ := typeParams_never_collide hostSession identityCalls
      Solver.confined_localRules paramsIn_hostSession unwrapped_identityCalls
    have hmem := Table.mem_of_find? hfind
    refine ⟨sc, hmem, fun hnil => by simp [hnil] at hnonempty, fun p hp => ⟨fun hid => ?_, ?_⟩⟩
    · have hshared : p.id = q.id := hid.trans (beq_iff_eq.mp hqid).symm
      rcases happart _ _ (.value hmem) (.value (Table.mem_of_find? hhost)) p hp q hq hshared with
        hsame | ⟨hold, -⟩
      · exact absurd (show (8 : Int) = 7 from hsame.value.1) (by decide)
      · rcases hold.value_cases with hold | ⟨e, he, -⟩
        · cases List.mem_singleton.mp hold
        · cases he
    · exact (hbelow.vars _ hmem).params p hp
  · cases h

/-! ## Parameters that do collide

Two functions of the host over one parameter, a solver that brings in a parameter of its own, and
two bindings of a group that have one name. -/

/-- The host has two functions over parameter 0. -/
def sharingHost : Session where
  input := { seeds := ⟨1, 0⟩, external := { vars := [(7, identitySchema 0), (8, identitySchema 0)] } }

/-- A solver that leaves a comparison with parameter 100 for each variable it is asked about. -/
def comparing : Solver where
  ask _ _ q := ⟨.ok {
    status := .unknown
    residual := (Ty.freeVars q.goals).map fun v => .geq (.free v) (.bound { id := 100, kind := .num })
  }, false⟩

def comparingSession : Session where
  input := { seeds := ⟨1, 0⟩, solver := comparing }

/-- `f (x : [_ - 1]Bit) = x where y = ()`. -/
def predecessor : Surface.Module where
  name := { id := 1, ident := "Main" }
  decls := [.group false [.mk { id := 8, ident := "f" }
    [.typed (.var { id := 9, ident := "x" }) (.seq (.builtin (.op .sub) [.wildcard, .num 1]) .bit)]
    (some (.block (.var { id := 9, ident := "x" }) [.group false
      [.mk { id := 10, ident := "y" } [] (some (.tuple [])) none false false .empty]]))
    none false false .empty]]

/-- `f x = x; f x = x`, with one id for both bindings. -/
def sameName : Surface.Module where
  name := { id := 1, ident := "Main" }
  decls := [.group false (List.replicate 2 (.mk { id := 8, ident := "f" }
    [.var { id := 9, ident := "x" }] (some (.var { id := 9, ident := "x" })) none false false .empty))]

/-- Whether a predicate in the schema of a value mentions parameter 100. -/
def mentionsComparison : Bool :=
  let input := (comparingSession.run [.module predecessor]).input
  input.seeds.typeVar < 100 && input.external.vars.any fun e =>
    e.2.props.any fun p => p.params.any fun q => q.id == 100

/-- Whether the module has two definitions that share a parameter. -/
def sharesParameter : Bool :=
  match (runModule { seeds := ⟨1, 0⟩ } sameName).1 with
  | .ok out =>
    match out.content.decls with
    | [d, d'] => d.schema.params.any fun p => d'.schema.params.any fun p' => p.id == p'.id
    | _ => false
  | .error _ => false

theorem mentionsComparison_eq_true : mentionsComparison = true := by cbv

theorem sharesParameter_eq_true : sharesParameter = true := by cbv

theorem draws_unit : Call.draws sharingHost.input (.expr (.tuple [])) = 1 := by cbv

theorem draws_predecessor : Call.draws comparingSession.input (.module predecessor) = 6 := by cbv

theorem paramsIn_sharingHost :
    sharingHost.input.external.ParamsIn {i | i < sharingHost.input.seeds.typeVar} := by
  have hid : (0 : Int) ∈ {i | i < sharingHost.input.seeds.typeVar} := Int.one_pos
  have hidentity : (identitySchema 0).ParamsIn {i | i < sharingHost.input.seeds.typeVar} :=
    ⟨List.forall_mem_singleton.mpr hid, List.forall_mem_nil _,
      Ty.paramsIn_arrow.mpr ⟨.bound hid, .bound hid⟩⟩
  constructor
  case vars => exact List.forall_mem_cons.mpr ⟨hidentity, List.forall_mem_singleton.mpr hidentity⟩
  all_goals exact List.forall_mem_nil _

/-- A parameter can be shared by two values that the host has had from the start, a solver can bring
in parameters that are not below the seeds, and two bindings under one name get the same parameters. -/
theorem typeParams_collide :
    (sharingHost.input.external.ParamsIn {i | i < sharingHost.input.seeds.typeVar} ∧
      sharingHost.Unwrapped [.expr (.tuple [])] ∧
      ∃ d d', (sharingHost.run [.expr (.tuple [])]).input.external.Declares d ∧
        (sharingHost.run [.expr (.tuple [])]).input.external.Declares d' ∧ ¬d.SameAs d' ∧
        ∃ p ∈ d.params, p ∈ d'.params) ∧
    (comparingSession.input.external.ParamsIn {i | i < comparingSession.input.seeds.typeVar} ∧
      comparingSession.Unwrapped [.module predecessor] ∧
      ¬(comparingSession.run [.module predecessor]).input.external.ParamsIn
        {i | i < (comparingSession.run [.module predecessor]).input.seeds.typeVar}) ∧
    ∃ out d d', (runModule { seeds := ⟨1, 0⟩ } sameName).1 = .ok out ∧ out.content.decls = [d, d'] ∧
      ∃ p ∈ d.schema.params, ∃ p' ∈ d'.schema.params, p.id = p'.id := by
  refine ⟨⟨paramsIn_sharingHost, ⟨?_, trivial⟩, ?_⟩, ⟨?_, ⟨?_, trivial⟩, fun hin => ?_⟩, ?_⟩
  · rw [draws_unit]
    decide
  · have hvars : (sharingHost.run [.expr (.tuple [])]).input.external.vars =
        [(7, identitySchema 0), (8, identitySchema 0)] := by cbv
    have hin : ∀ e ∈ [(7, identitySchema 0), (8, identitySchema 0)],
        (sharingHost.run [.expr (.tuple [])]).input.external.Declares (.value e.1 e.2) :=
      fun e he => .value (hvars ▸ he)
    refine ⟨.value 7 (identitySchema 0), .value 8 (identitySchema 0), hin (7, _) List.mem_cons_self,
      hin (8, _) (List.mem_cons_of_mem _ List.mem_cons_self), fun hsame => ?_, _,
      List.mem_cons_self, List.mem_cons_self⟩
    exact absurd hsame.value.1 (by decide)
  · constructor
    all_goals exact List.forall_mem_nil _
  · rw [draws_predecessor]
    decide
  · obtain ⟨hlt, hany⟩ := Bool.and_eq_true_iff.mp mentionsComparison_eq_true
    obtain ⟨e, he, hany⟩ := List.any_eq_true.mp hany
    obtain ⟨p, hp, hany⟩ := List.any_eq_true.mp hany
    obtain ⟨q, hq, hid⟩ := List.any_eq_true.mp hany
    have hbelow : q.id < (comparingSession.run [.module predecessor]).input.seeds.typeVar :=
      ((hin.vars e he).props p hp).mem_params q hq
    have hhundred : q.id = 100 := beq_iff_eq.mp hid
    have hseeds := of_decide_eq_true hlt
    omega
  · have h := sharesParameter_eq_true
    unfold sharesParameter at h
    split at h
    · rename_i out heq
      split at h
      · rename_i d d' hdecls
        obtain ⟨p, hp, hany⟩ := List.any_eq_true.mp h
        obtain ⟨p', hp', hid⟩ := List.any_eq_true.mp hany
        exact ⟨out, d, d', heq, hdecls, p, hp, p', hp', beq_iff_eq.mp hid⟩
      · cases h
    · cases h

end SizedTypes
