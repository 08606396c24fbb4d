import SizedTypes.Core.Term
import SizedTypes.Infer.Resolve

/-!
# Where variables are bound and used

The binders of a term, each with the parameters and predicates of what it binds, and the uses of
variables, each with what it is applied to. Substitution and the resolution of selections keep all
binders, and each use that they leave comes from one that was there or belongs to a new binder.
-/

set_option autoImplicit false

namespace SizedTypes

open SizedTypes.Core

namespace Core

/-- What a polymorphic term is applied to. -/
inductive Passed where
  | type
  | proof
deriving DecidableEq

/-- A place at which a term names a variable. -/
inductive Mention where
  /-- A use of a variable, with the token of a place-holder and what it is applied to, innermost
  first. -/
  | use (name : Name) (token : Option Int) (passed : List Passed)
  /-- A binder of a variable with so many parameters and predicates. -/
  | binder (id : Int) (params props : Nat)
deriving DecidableEq

/-- What a variable with so many parameters and predicates has to be applied to. -/
def Passed.all (params props : Nat) : List Passed :=
  List.replicate params .type ++ List.replicate props .proof

/-- The binder of a variable with a schema. -/
def Mention.head (n : Name) (sc : Schema) : Mention := .binder n.id sc.params.length sc.props.length

/-- A binder, or a use of none of the given variables. -/
def Mention.outside (ids : List Int) : Mention → Bool
  | .use n _ _ => !ids.contains n.id
  | .binder _ _ _ => true

/-- The variable that a qualifier defines with parameters or predicates. -/
def Match.polymorphic : Match → Option Int
  | .draw _ _ _ _ => none
  | .define d => if d.schema.isMono then none else some d.name.id

/-- The variables that an arm of a comprehension defines with parameters or predicates. -/
def polymorphicLets (arm : List Match) : List Int := arm.filterMap Match.polymorphic

mutual
/-- The binders and uses of a term that is itself applied to `passed`. The result of a
comprehension sees the definitions of the arms without their parameters and predicates; its uses
of those that have some are left out. -/
def Term.mentions : Term → List Passed → List Mention
  | .var n, passed => [.use n none passed]
  | .groupVar n token, passed => [.use n (some token) passed]
  | .typeApp e _, passed => e.mentions (.type :: passed)
  | .proofApp e, passed => e.mentions (.proof :: passed)
  | .app fn arg, _ => fn.mentions [] ++ arg.mentions []
  | .abs n _ body, _ => .binder n.id 0 0 :: body.mentions []
  | .typeAbs _ body, _ => body.mentions []
  | .proofAbs _ body, _ => body.mentions []
  | .tuple es, _ => mentionsList es
  | .record fs, _ => mentionsFields fs
  | .select e _, _ => e.mentions []
  | .update _ e _ v, _ => e.mentions [] ++ v.mentions []
  | .list es _, _ => mentionsList es
  | .comp _ _ result arms, _ =>
    mentionsArms arms ++
      (result.mentions []).filter (Mention.outside (arms.flatMap polymorphicLets))
  | .ifThenElse c t e, _ => c.mentions [] ++ (t.mentions [] ++ e.mentions [])
  | .block e gs, _ => e.mentions [] ++ mentionsGroups gs
  | .located _ e, _ => e.mentions []
  | .pendingSelect _ e, _ => e.mentions []
  | .pendingUpdate _ e v, _ => e.mentions [] ++ v.mentions []

def mentionsList : List Term → List Mention
  | [] => []
  | e :: es => e.mentions [] ++ mentionsList es

def mentionsFields : List (String × Term) → List Mention
  | [] => []
  | (_, e) :: fs => e.mentions [] ++ mentionsFields fs

def mentionsArms : List (List Match) → List Mention
  | [] => []
  | arm :: arms => mentionsMatches arm ++ mentionsArms arms

def mentionsMatches : List Match → List Mention
  | [] => []
  | .draw n _ _ e :: ms => .binder n.id 0 0 :: (e.mentions [] ++ mentionsMatches ms)
  | .define d :: ms => d.mentions ++ mentionsMatches ms

def Decl.mentions : Decl → List Mention
  | .mk n sc (some e) _ _ => .head n sc :: e.mentions []
  | .mk n sc none _ _ => [.head n sc]

def mentionsDecls : List Decl → List Mention
  | [] => []
  | d :: ds => d.mentions ++ mentionsDecls ds

def mentionsGroups : List Group → List Mention
  | [] => []
  | .mk _ ds :: gs => mentionsDecls ds ++ mentionsGroups gs
end

theorem mentionsList_eq (es : List Term) : mentionsList es = es.flatMap fun e => e.mentions [] := by
  induction es with
  | nil => rfl
  | cons e es ih => rw [mentionsList, ih, List.flatMap_cons]

theorem mentionsDecls_eq (ds : List Decl) : mentionsDecls ds = ds.flatMap Decl.mentions := by
  induction ds with
  | nil => rfl
  | cons d ds ih => rw [mentionsDecls, ih, List.flatMap_cons]

theorem mentionsArms_eq (arms : List (List Match)) :
    mentionsArms arms = arms.flatMap mentionsMatches := by
  induction arms with
  | nil => rfl
  | cons arm arms ih => rw [mentionsArms, ih, List.flatMap_cons]

theorem mentionsDecls_append (ds ds' : List Decl) :
    mentionsDecls (ds ++ ds') = mentionsDecls ds ++ mentionsDecls ds' := by
  rw [mentionsDecls_eq, mentionsDecls_eq, mentionsDecls_eq, List.flatMap_append]

theorem mentionsMatches_append (ms ms' : List Match) :
    mentionsMatches (ms ++ ms') = mentionsMatches ms ++ mentionsMatches ms' := by
  induction ms with
  | nil => rfl
  | cons m ms ih =>
    cases m with
    | draw n len t e => simp only [List.cons_append, mentionsMatches, ih, List.append_assoc]
    | define d => simp only [List.cons_append, mentionsMatches, ih, List.append_assoc]

theorem mentionsGroups_append (gs gs' : List Group) :
    mentionsGroups (gs ++ gs') = mentionsGroups gs ++ mentionsGroups gs' := by
  induction gs with
  | nil => rfl
  | cons g gs ih =>
    obtain ⟨recursive, ds⟩ := g
    simp only [List.cons_append, mentionsGroups, ih, List.append_assoc]

theorem mentions_instantiated (n : Name) (args : List Ty) (proofs : Nat) (passed : List Passed) :
    ((Term.var n).instantiated args proofs).mentions passed =
      [.use n none (Passed.all args.length proofs ++ passed)] := by
  have hproofs : ∀ (k : Nat) (e : Term) (passed : List Passed),
      ((List.replicate k ()).foldl (fun e _ => Term.proofApp e) e).mentions passed =
        e.mentions (List.replicate k .proof ++ passed) := by
    intro k
    induction k with
    | zero => exact fun _ _ => rfl
    | succ k ih =>
      intro e passed
      rw [List.replicate_succ, List.foldl_cons, ih, Term.mentions, List.replicate_succ,
        List.cons_append]
  have htypes : ∀ (args : List Ty) (e : Term) (passed : List Passed),
      (args.foldl Term.typeApp e).mentions passed =
        e.mentions (List.replicate args.length .type ++ passed) := by
    intro args
    induction args with
    | nil => exact fun _ _ => rfl
    | cons a args ih =>
      intro e passed
      rw [List.foldl_cons, ih, Term.mentions, List.length_cons, List.replicate_succ,
        List.cons_append]
  rw [Term.instantiated, hproofs, htypes, Term.mentions, Passed.all, List.append_assoc]

theorem mentions_generalized (e : Term) (params : List Param) (props : List Ty) :
    (e.generalized params props).mentions [] = e.mentions [] := by
  have hprops : (props.foldr Term.proofAbs e).mentions [] = e.mentions [] := by
    induction props with
    | nil => rfl
    | cons p ps ih => rw [List.foldr_cons, Term.mentions, ih]
  rw [Term.generalized]
  induction params with
  | nil => exact hprops
  | cons p ps ih => rw [List.foldr_cons, Term.mentions, ih]

/-! ## What becomes of mentions -/

/-- `ms'` has the binders of `ms`; its uses are what `R` makes of uses of `ms`, or of new binders. -/
structure Becomes (R : Mention → Mention → Prop) (ms ms' : List Mention) : Prop where
  binders : ∀ {i k p}, Mention.binder i k p ∈ ms → Mention.binder i k p ∈ ms'
  uses : ∀ {n token passed}, Mention.use n token passed ∈ ms' →
    (∃ m ∈ ms, R m (.use n token passed)) ∨
      token = none ∧ passed = [] ∧ Mention.binder n.id 0 0 ∈ ms'

namespace Becomes

variable {R : Mention → Mention → Prop} {ms ms' ns ns' : List Mention}

theorem nil : Becomes R [] [] := ⟨fun h => h, fun h => nomatch h⟩

theorem refl (ms : List Mention) : Becomes Eq ms ms := ⟨fun h => h, fun h => Or.inl ⟨_, h, rfl⟩⟩

theorem trans (h : Becomes Eq ms ns) (h' : Becomes Eq ns ms') : Becomes Eq ms ms' where
  binders hm := h'.binders (h.binders hm)
  uses hm := by
    rcases h'.uses hm with ⟨_, hm, rfl⟩ | hnew
    · exact (h.uses hm).imp_right fun ⟨htoken, hpassed, hm⟩ => ⟨htoken, hpassed, h'.binders hm⟩
    · exact Or.inr hnew

theorem congr (h : Becomes R ms ms') (hmem : ∀ m, m ∈ ms' ↔ m ∈ ns') : Becomes R ms ns' where
  binders hm := (hmem _).mp (h.binders hm)
  uses hm := by simpa only [hmem] using h.uses ((hmem _).mpr hm)

theorem append (h : Becomes R ms ms') (h' : Becomes R ns ns') :
    Becomes R (ms ++ ns) (ms' ++ ns') where
  binders hm := by
    rcases List.mem_append.mp hm with hm | hm
    · exact List.mem_append_left _ (h.binders hm)
    · exact List.mem_append_right _ (h'.binders hm)
  uses hm := by
    rcases List.mem_append.mp hm with hm | hm
    · refine (h.uses hm).imp ?_ ?_
      · exact fun ⟨m, hm, hR⟩ => ⟨m, List.mem_append_left _ hm, hR⟩
      · exact fun ⟨htoken, hpassed, hm⟩ => ⟨htoken, hpassed, List.mem_append_left _ hm⟩
    · refine (h'.uses hm).imp ?_ ?_
      · exact fun ⟨m, hm, hR⟩ => ⟨m, List.mem_append_right _ hm, hR⟩
      · exact fun ⟨htoken, hpassed, hm⟩ => ⟨htoken, hpassed, List.mem_append_right _ hm⟩

theorem binder (i : Int) (k p : Nat) : Becomes R [.binder i k p] [.binder i k p] where
  binders hm := hm
  uses hm := nomatch List.mem_singleton.mp hm

theorem cons (h : Becomes R ms ms') (i : Int) (k p : Nat) :
    Becomes R (.binder i k p :: ms) (.binder i k p :: ms') := (binder i k p).append h

theorem head (h : Becomes R ms ms') (n : Name) (sc : Schema) (f : Ty → Ty) :
    Becomes R (.head n sc :: ms) (.head n (sc.mapTypes f) :: ms') := by
  have harity : Mention.head n (sc.mapTypes f) = .head n sc := by
    simp only [Mention.head, Schema.mapTypes, List.length_map]
  rw [harity]
  exact h.cons ..

theorem filter (h : Becomes R ms ms') (ids : List Int)
    (hR : ∀ m m', R m m' → m.outside ids = m'.outside ids) :
    Becomes R (ms.filter (Mention.outside ids)) (ms'.filter (Mention.outside ids)) where
  binders hm := List.mem_filter.mpr ⟨h.binders (List.mem_filter.mp hm).1, rfl⟩
  uses hm := by
    obtain ⟨hm, hout⟩ := List.mem_filter.mp hm
    refine (h.uses hm).imp ?_ ?_
    · exact fun ⟨m, hm, hm'⟩ => ⟨m, List.mem_filter.mpr ⟨hm, (hR _ _ hm').trans hout⟩, hm'⟩
    · exact fun ⟨htoken, hpassed, hm⟩ => ⟨htoken, hpassed, List.mem_filter.mpr ⟨hm, rfl⟩⟩

end Becomes

/-! ## Substitution -/

theorem Schema.isMono_mapTypes (sc : Schema) (f : Ty → Ty) : (sc.mapTypes f).isMono = sc.isMono := by
  simp [Schema.isMono, Schema.mapTypes]

theorem polymorphic_substitute (f : Ty → Ty) (g : Name → Int → Option Term) (d : Decl) :
    (Match.define (d.substitute f g)).polymorphic = (Match.define d).polymorphic := by
  obtain ⟨n, sc, _ | e, prim, r⟩ := d
  · exact congrArg (fun b => if b then none else some n.id) (Schema.isMono_mapTypes sc f)
  · exact congrArg (fun b => if b then none else some n.id) (Schema.isMono_mapTypes sc f)

theorem polymorphicLets_substitute (f : Ty → Ty) (g : Name → Int → Option Term) (ms : List Match) :
    polymorphicLets (substituteMatches f g ms) = polymorphicLets ms := by
  unfold polymorphicLets
  induction ms with
  | nil => rfl
  | cons m ms ih =>
    cases m with
    | draw n len t e =>
      rw [substituteMatches, List.filterMap_cons, List.filterMap_cons, ih]
      rfl
    | define d =>
      rw [substituteMatches, List.filterMap_cons, List.filterMap_cons, ih, polymorphic_substitute]

theorem flatMap_polymorphicLets_substitute (f : Ty → Ty) (g : Name → Int → Option Term)
    (arms : List (List Match)) :
    (substituteArms f g arms).flatMap polymorphicLets = arms.flatMap polymorphicLets := by
  induction arms with
  | nil => rfl
  | cons arm arms ih =>
    rw [substituteArms, List.flatMap_cons, List.flatMap_cons, polymorphicLets_substitute, ih]

/-- What a substitution makes of a use: it stays unless a term is put in its place. -/
def Mention.Replaced (g : Name → Int → Option Term) : Mention → Mention → Prop
  | .use n none passed, m => m = .use n none passed
  | .use n (some token) passed, m =>
    match g n token with
    | none => m = .use n (some token) passed
    | some e => m ∈ e.mentions passed
  | .binder _ _ _, _ => False

section Substitute

set_option linter.unusedSectionVars false

variable {f : Ty → Ty} {g : Name → Int → Option Term}
  (hg : ∀ n token e, g n token = some e → ∀ passed, ∀ m ∈ e.mentions passed,
    ∃ token' passed', m = .use n token' passed')

include hg

theorem Mention.Replaced.outside (ids : List Int) {m m' : Mention} (h : m.Replaced g m') :
    m.outside ids = m'.outside ids := by
  unfold Replaced at h
  split at h
  · rw [h]
  · split at h
    · rw [h]
    · rename_i hsome
      obtain ⟨_, _, rfl⟩ := hg _ _ _ hsome _ _ h
      rfl
  · exact h.elim

mutual
theorem Term.becomes_substitute : ∀ (e : Term) (passed : List Passed),
    Becomes (Mention.Replaced g) (e.mentions passed) ((e.substitute f g).mentions passed)
  | .var n, passed => by
    refine ⟨fun hm => hm, fun hm => Or.inl ⟨_, hm, ?_⟩⟩
    obtain ⟨rfl, rfl, rfl⟩ := Mention.use.inj (List.mem_singleton.mp hm)
    rfl
  | .groupVar n token, passed => by
    rw [Term.substitute]
    cases h : g n token with
    | none =>
      refine ⟨fun hm => hm, fun hm => Or.inl ⟨_, hm, ?_⟩⟩
      obtain ⟨rfl, rfl, rfl⟩ := Mention.use.inj (List.mem_singleton.mp hm)
      simp [Mention.Replaced, h]
    | some e =>
      refine ⟨fun hm => (nomatch List.mem_singleton.mp hm), fun hm => Or.inl ?_⟩
      exact ⟨_, List.mem_singleton_self _, by simpa [Mention.Replaced, h] using hm⟩
  | .typeApp e _, _ => e.becomes_substitute _
  | .proofApp e, _ => e.becomes_substitute _
  | .app fn arg, _ => (fn.becomes_substitute _).append (arg.becomes_substitute _)
  | .abs _ _ body, _ => (body.becomes_substitute _).cons ..
  | .typeAbs _ body, _ => body.becomes_substitute _
  | .proofAbs _ body, _ => body.becomes_substitute _
  | .tuple es, _ => becomes_substituteList es
  | .record fs, _ => becomes_substituteFields fs
  | .select e _, _ => e.becomes_substitute _
  | .update _ e _ v, _ => (e.becomes_substitute _).append (v.becomes_substitute _)
  | .list es _, _ => becomes_substituteList es
  | .comp _ _ result arms, _ => by
    rw [Term.substitute, Term.mentions, Term.mentions, flatMap_polymorphicLets_substitute]
    exact (becomes_substituteArms arms).append
      ((result.becomes_substitute []).filter _ fun _ _ => Mention.Replaced.outside hg _)
  | .ifThenElse c t e, _ =>
    (c.becomes_substitute _).append ((t.becomes_substitute _).append (e.becomes_substitute _))
  | .block e gs, _ => (e.becomes_substitute _).append (becomes_substituteGroups gs)
  | .located _ e, _ => e.becomes_substitute _
  | .pendingSelect _ e, _ => e.becomes_substitute _
  | .pendingUpdate _ e v, _ => (e.becomes_substitute _).append (v.becomes_substitute _)

theorem becomes_substituteList : ∀ es : List Term,
    Becomes (Mention.Replaced g) (mentionsList es) (mentionsList (substituteList f g es))
  | [] => .nil
  | e :: es => (e.becomes_substitute _).append (becomes_substituteList es)

theorem becomes_substituteFields : ∀ fs : List (String × Term),
    Becomes (Mention.Replaced g) (mentionsFields fs) (mentionsFields (substituteFields f g fs))
  | [] => .nil
  | (_, e) :: fs => (e.becomes_substitute _).append (becomes_substituteFields fs)

theorem becomes_substituteArms : ∀ arms : List (List Match),
    Becomes (Mention.Replaced g) (mentionsArms arms) (mentionsArms (substituteArms f g arms))
  | [] => .nil
  | arm :: arms => (becomes_substituteMatches arm).append (becomes_substituteArms arms)

theorem becomes_substituteMatches : ∀ ms : List Match,
    Becomes (Mention.Replaced g) (mentionsMatches ms) (mentionsMatches (substituteMatches f g ms))
  | [] => .nil
  | .draw _ _ _ e :: ms =>
    ((e.becomes_substitute _).append (becomes_substituteMatches ms)).cons ..
  | .define d :: ms => (d.becomes_substitute).append (becomes_substituteMatches ms)

theorem Decl.becomes_substitute : ∀ d : Decl,
    Becomes (Mention.Replaced g) d.mentions (d.substitute f g).mentions
  | .mk _ _ (some e) _ _ => (e.becomes_substitute _).head ..
  | .mk _ _ none _ _ => Becomes.nil.head ..

theorem becomes_substituteDecls : ∀ ds : List Decl,
    Becomes (Mention.Replaced g) (mentionsDecls ds) (mentionsDecls (substituteDecls f g ds))
  | [] => .nil
  | d :: ds => d.becomes_substitute.append (becomes_substituteDecls ds)

theorem becomes_substituteGroups : ∀ gs : List Group,
    Becomes (Mention.Replaced g) (mentionsGroups gs) (mentionsGroups (substituteGroups f g gs))
  | [] => .nil
  | .mk _ ds :: gs => (becomes_substituteDecls ds).append (becomes_substituteGroups gs)
end

end Substitute

end Core

/-! ## Resolution -/

namespace Resolver

/-- A new binder around a term binds what was put into it. -/
theorem becomes_bind (x : Name) (ms : List Mention) {ns ms' : List Mention} (h : Becomes Eq ns ms')
    (hms : ms ⊆ ns) (hns : ∀ m ∈ ns, m ∈ ms ∨ m = .use x none []) :
    Becomes Eq ms (.binder x.id 0 0 :: ms') where
  binders hm := List.mem_cons_of_mem _ (h.binders (hms hm))
  uses {n token passed} hm := by
    have hm' : Mention.use n token passed ∈ ms' := (List.mem_cons.mp hm).resolve_left nofun
    rcases h.uses hm' with ⟨m, hm, rfl⟩ | ⟨htoken, hpassed, hm⟩
    · rcases hns _ hm with hm | hm
      · exact Or.inl ⟨_, hm, rfl⟩
      · obtain ⟨rfl, rfl, rfl⟩ := Mention.use.inj hm
        exact Or.inr ⟨rfl, rfl, List.mem_cons_self ..⟩
    · exact Or.inr ⟨htoken, hpassed, List.mem_cons_of_mem _ hm⟩

/-- The uses in a comprehension without definitions are all there. -/
theorem mentions_comp_draws {len elem : Ty} {result : Term} {arms : List (List Match)}
    (h : arms.flatMap polymorphicLets = []) (passed : List Passed) :
    (Term.comp len elem result arms).mentions passed = mentionsArms arms ++ result.mentions [] := by
  rw [Term.mentions, h, List.filter_eq_self.mpr]
  intro m _
  cases m <;> rfl

theorem becomes_selectAlong {zonk : Ty → Ty} {sel : Selector} (lifts : List Lift) (e : Term)
    (supply : Supply) (passed : List Passed) :
    Becomes Eq (e.mentions []) ((selectAlong zonk sel lifts e supply).1.mentions passed) := by
  induction lifts generalizing e supply passed with
  | nil => exact .refl _
  | cons l lifts ih =>
    cases l with
    | seq len elem inner =>
      let x := supply.fresh "x"
      have heq : (selectAlong zonk sel (.seq len elem inner :: lifts) e supply).1 =
          .comp (zonk len) (zonk inner) (selectAlong zonk sel lifts (.var x.1) x.2).1
            [[.draw x.1 (zonk len) (zonk elem) e]] := rfl
      have hresult := becomes_bind x.1 [] (ih (.var x.1) x.2 []) (List.nil_subset _)
        fun m hm => Or.inr (List.mem_singleton.mp hm)
      rw [heq, mentions_comp_draws rfl]
      refine (hresult.append (Becomes.refl (e.mentions []))).congr fun m => ?_
      simp only [mentionsArms, mentionsMatches, List.mem_append, List.mem_cons, List.not_mem_nil]
      grind
    | arrow arg =>
      let x := supply.fresh "x"
      refine becomes_bind x.1 _ (ih (.app e (.var x.1)) x.2 []) (List.subset_append_left ..) ?_
      exact fun m hm => (List.mem_append.mp hm).imp_right List.mem_singleton.mp

theorem becomes_updateAlong {zonk : Ty → Ty} {sel : Selector} {record : Ty} (lifts : List Lift)
    (e v : Term) (supply : Supply) (passed : List Passed) :
    Becomes Eq (e.mentions [] ++ v.mentions [])
      ((updateAlong zonk sel record lifts e v supply).1.mentions passed) := by
  induction lifts generalizing e v supply passed with
  | nil => exact .refl _
  | cons l lifts ih =>
    cases l with
    | seq len elem inner =>
      let x := supply.fresh "x"
      let y := x.2.fresh "y"
      have heq : (updateAlong zonk sel record (.seq len elem inner :: lifts) e v supply).1 =
          .comp (zonk len) (zonk elem)
            (updateAlong zonk sel record lifts (.var x.1) (.var y.1) y.2).1
            [[.draw x.1 (zonk len) (zonk elem) e], [.draw y.1 (zonk len) (zonk inner) v]] := rfl
      have hinner := becomes_bind y.1 [.use x.1 none []] (ih (.var x.1) (.var y.1) y.2 [])
        (List.subset_append_left ..)
        fun m hm => (List.mem_append.mp hm).imp_right List.mem_singleton.mp
      have hresult := becomes_bind x.1 [] hinner (List.nil_subset _)
        fun m hm => Or.inr (List.mem_singleton.mp hm)
      rw [heq, mentions_comp_draws rfl]
      refine (hresult.append (Becomes.refl (e.mentions [] ++ v.mentions []))).congr fun m => ?_
      simp only [mentionsArms, mentionsMatches, List.mem_append, List.mem_cons, List.not_mem_nil]
      grind
    | arrow arg =>
      let x := supply.fresh "x"
      refine becomes_bind x.1 _ (ih (.app e (.var x.1)) (.app v (.var x.1)) x.2 []) ?_ ?_
      · intro m hm
        simp only [Term.mentions, List.mem_append] at hm ⊢
        grind
      · intro m hm
        simp only [Term.mentions, List.mem_append, List.mem_singleton] at hm ⊢
        grind

variable (r : Resolver)

theorem name_decl (d : Decl) (supply : Supply) : ((r.decl d) supply).1.name = d.name := by
  obtain ⟨n, sc, body, prim, range⟩ := d
  cases body <;> rfl

theorem schema_decl (d : Decl) (supply : Supply) :
    ((r.decl d) supply).1.schema = d.schema.mapTypes r.zonk := by
  obtain ⟨n, sc, body, prim, range⟩ := d
  cases body <;> rfl

theorem polymorphicLets_quals (ms : List Match) (supply : Supply) :
    polymorphicLets (r.quals ms supply).1 = polymorphicLets ms := by
  unfold polymorphicLets
  induction ms generalizing supply with
  | nil => rfl
  | cons m ms ih =>
    cases m with
    | draw n len t e =>
      rw [quals, List.filterMap_cons]
      exact (List.filterMap_cons ..).trans (ih _)
    | define d =>
      have hd : (Match.define (r.decl d supply).1).polymorphic = (Match.define d).polymorphic := by
        rw [Match.polymorphic, Match.polymorphic, r.schema_decl, r.name_decl, Schema.isMono_mapTypes]
      rw [quals, List.filterMap_cons, ← hd, ← ih (r.decl d supply).2]
      exact List.filterMap_cons ..

theorem flatMap_polymorphicLets_arms (arms : List (List Match)) (supply : Supply) :
    (r.arms arms supply).1.flatMap polymorphicLets = arms.flatMap polymorphicLets := by
  induction arms generalizing supply with
  | nil => rfl
  | cons arm arms ih =>
    have heq : (r.arms (arm :: arms) supply).1 =
      (r.quals arm supply).1 :: (r.arms arms (r.quals arm supply).2).1 := rfl
    rw [heq, List.flatMap_cons, List.flatMap_cons, r.polymorphicLets_quals, ih]

mutual
theorem becomes_term : ∀ (e : Term) (passed : List Passed) (supply : Supply),
    Becomes Eq (e.mentions passed) ((r.term e supply).1.mentions passed)
  | .var _, _, _ => .refl _
  | .groupVar _ _, _, _ => .refl _
  | .typeApp e _, _, _ => becomes_term e ..
  | .proofApp e, _, _ => becomes_term e ..
  | .app fn arg, _, _ => (becomes_term fn ..).append (becomes_term arg ..)
  | .abs _ _ body, _, _ => (becomes_term body ..).cons ..
  | .typeAbs _ body, _, _ => becomes_term body ..
  | .proofAbs _ body, _, _ => becomes_term body ..
  | .tuple es, _, _ => becomes_terms es _
  | .record fs, _, _ => becomes_fields fs _
  | .select e _, _, _ => becomes_term e ..
  | .update _ e _ v, _, _ => (becomes_term e ..).append (becomes_term v ..)
  | .list es _, _, _ => becomes_terms es _
  | .comp len elem result arms, _, supply => by
    have heq : (r.term (.comp len elem result arms) supply).1 =
      .comp (r.zonk len) (r.zonk elem) (r.term result (r.arms arms supply).2).1
        (r.arms arms supply).1 := rfl
    rw [heq, Term.mentions, Term.mentions, r.flatMap_polymorphicLets_arms]
    exact (becomes_arms arms _).append ((becomes_term result ..).filter _ fun _ _ => congrArg _)
  | .ifThenElse c t e, _, _ =>
    (becomes_term c ..).append ((becomes_term t ..).append (becomes_term e ..))
  | .block e gs, _, _ => (becomes_term e ..).append (becomes_groups gs _)
  | .located _ e, _, _ => becomes_term e ..
  | .pendingSelect goal e, passed, supply => by
    have heq : (r.term (.pendingSelect goal e) supply).1 =
      (r.select goal (r.term e supply).1 (r.term e supply).2).1 := rfl
    rw [heq, select, Term.mentions]
    exact (becomes_term e [] supply).trans (becomes_selectAlong ..)
  | .pendingUpdate goal e v, passed, supply => by
    have heq : (r.term (.pendingUpdate goal e v) supply).1 =
      (r.update goal (r.term e supply).1 (r.term v (r.term e supply).2).1
        (r.term v (r.term e supply).2).2).1 := rfl
    rw [heq, update, Term.mentions]
    exact ((becomes_term e [] supply).append (becomes_term v [] _)).trans (becomes_updateAlong ..)

theorem becomes_terms : ∀ (es : List Term) (supply : Supply),
    Becomes Eq (mentionsList es) (mentionsList (r.terms es supply).1)
  | [], _ => .nil
  | e :: es, _ => (becomes_term e ..).append (becomes_terms es _)

theorem becomes_fields : ∀ (fs : List (String × Term)) (supply : Supply),
    Becomes Eq (mentionsFields fs) (mentionsFields (r.fields fs supply).1)
  | [], _ => .nil
  | (_, e) :: fs, _ => (becomes_term e ..).append (becomes_fields fs _)

theorem becomes_arms : ∀ (arms : List (List Match)) (supply : Supply),
    Becomes Eq (mentionsArms arms) (mentionsArms (r.arms arms supply).1)
  | [], _ => .nil
  | arm :: arms, _ => (becomes_quals arm _).append (becomes_arms arms _)

theorem becomes_quals : ∀ (ms : List Match) (supply : Supply),
    Becomes Eq (mentionsMatches ms) (mentionsMatches (r.quals ms supply).1)
  | [], _ => .nil
  | .draw _ _ _ e :: ms, _ => ((becomes_term e ..).append (becomes_quals ms _)).cons ..
  | .define d :: ms, _ => (becomes_decl d _).append (becomes_quals ms _)

theorem becomes_decl : ∀ (d : Decl) (supply : Supply),
    Becomes Eq d.mentions (r.decl d supply).1.mentions
  | .mk _ _ (some e) _ _, _ => (becomes_term e ..).head ..
  | .mk _ _ none _ _, _ => Becomes.nil.head ..

theorem becomes_decls : ∀ (ds : List Decl) (supply : Supply),
    Becomes Eq (mentionsDecls ds) (mentionsDecls (r.decls ds supply).1)
  | [], _ => .nil
  | d :: ds, _ => (becomes_decl d _).append (becomes_decls ds _)

theorem becomes_groups : ∀ (gs : List Group) (supply : Supply),
    Becomes Eq (mentionsGroups gs) (mentionsGroups (r.groups gs supply).1)
  | [], _ => .nil
  | .mk _ ds :: gs, _ => (becomes_decls ds _).append (becomes_groups gs _)
end

end Resolver
end SizedTypes
