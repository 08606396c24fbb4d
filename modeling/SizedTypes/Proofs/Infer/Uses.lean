import SizedTypes.Proofs.Core.Mentions
import SizedTypes.Proofs.Infer.Calls
import SizedTypes.Proofs.Infer.Frame.Recursion

/-!
# Uses of a variable

Every use of a variable in a checked term belongs to a binder in that term, with as many parameters
and predicates as the use passes types and evidence, or to what the environment has for the
variable.
-/

set_option autoImplicit false

namespace SizedTypes.Infer

open Surface (Bind Expr Pattern TypeArg TypeExpr)
open SizedTypes.Core

/-! ## Accounting for uses -/

/-- A set of uses of one variable, each with the token of a place-holder and what is passed. -/
abbrev Uses : Type := Option Int → List Passed → Prop

/-- The uses that a variable of this type can have. -/
def usesOf : VarType → Uses
  | .known sc => fun token passed => token = none ∧ passed = Passed.all sc.params.length sc.props.length
  | .inGroup token _ _ => fun token' passed => token' = some token ∧ passed = []

/-- The uses that the variable `x` can have where the state says what is in scope. -/
def State.uses (s : State) (E : External) (x : Int) : Uses := fun token passed =>
  ∃ v, s.typeOf E x = some v ∧ usesOf v token passed

/-- The uses of the variable `x` that belong to a binder. -/
def boundUses (x : Int) (ms : List Mention) : Uses := fun token passed =>
  token = none ∧ ∃ k p, Mention.binder x k p ∈ ms ∧ passed = Passed.all k p

variable {x : Int} {U U' : Uses} {bs bs' ms ns : List Mention}

theorem boundUses_mono (h : bs ⊆ bs') {token : Option Int} {passed : List Passed}
    (hu : boundUses x bs token passed) : boundUses x bs' token passed := by
  obtain ⟨htoken, k, p, hb, hpassed⟩ := hu
  exact ⟨htoken, k, p, h hb, hpassed⟩

theorem boundUses_head {n : Name} {sc : Schema} (h : Mention.head n sc ∈ bs) {token : Option Int}
    {passed : List Passed} (hu : usesOf (.known sc) token passed) :
    boundUses n.id bs token passed := ⟨hu.1, _, _, h, hu.2⟩

/-- Every use of `x` in `ms` belongs to a binder in `bs` or is one of `U`. -/
def Covers (x : Int) (U : Uses) (bs ms : List Mention) : Prop :=
  ∀ n token passed, Mention.use n token passed ∈ ms → n.id = x →
    boundUses x bs token passed ∨ U token passed

namespace Covers

theorem nil : Covers x U bs [] := fun _ _ _ hm => nomatch hm

theorem append (h : Covers x U bs ms) (h' : Covers x U bs ns) : Covers x U bs (ms ++ ns) :=
  fun n token passed hm hn => (List.mem_append.mp hm).elim (h n token passed · hn)
    (h' n token passed · hn)

theorem cons {i : Int} {k p : Nat} (h : Covers x U bs ms) : Covers x U bs (.binder i k p :: ms) :=
  fun n token passed hm => h n token passed ((List.mem_cons.mp hm).resolve_left nofun)

/-- Only the uses matter among what is covered. -/
theorem of_uses (h : Covers x U bs ms) (hsub : ∀ {n token passed},
    Mention.use n token passed ∈ ns → Mention.use n token passed ∈ ms) : Covers x U bs ns :=
  fun n token passed hm => h n token passed (hsub hm)

/-- More binders, and other uses as long as binders account for those that are no longer
allowed. -/
theorem imp (h : Covers x U bs ms) (hbs : bs ⊆ bs')
    (hU : ∀ token passed, U token passed → boundUses x bs' token passed ∨ U' token passed) :
    Covers x U' bs' ms := fun n token passed hm hn => by
  rcases h n token passed hm hn with hbound | hu
  · exact Or.inl (boundUses_mono hbs hbound)
  · exact hU token passed hu

theorem mono (h : Covers x U bs ms) (hbs : bs ⊆ bs') : Covers x U bs' ms :=
  h.imp hbs fun _ _ => Or.inr

/-- A use without place-holder that passes nothing. -/
theorem bare {n : Name} (h : Mention.binder n.id 0 0 ∈ bs) : Covers x U bs [.use n none []] := by
  intro n' token passed hm hn
  obtain ⟨rfl, rfl, rfl⟩ := Mention.use.inj (List.mem_singleton.mp hm)
  exact Or.inl ⟨rfl, 0, 0, hn ▸ h, rfl⟩

end Covers

/-- Every use of `x` belongs to a binder that is there too, or is one of `U`. -/
abbrev Accounted (x : Int) (U : Uses) (ms : List Mention) : Prop := Covers x U ms ms

namespace Accounted

theorem use {n : Name} {token : Option Int} {passed : List Passed}
    (h : n.id = x → U token passed) : Accounted x U [.use n token passed] := by
  intro n' token' passed' hm hn
  obtain ⟨rfl, rfl, rfl⟩ := Mention.use.inj (List.mem_singleton.mp hm)
  exact Or.inr (h hn)

theorem append (h : Accounted x U ms) (h' : Accounted x U ns) : Accounted x U (ms ++ ns) :=
  (h.mono (List.subset_append_left ..)).append (h'.mono (List.subset_append_right ..))

theorem cons {i : Int} {k p : Nat} (h : Accounted x U ms) : Accounted x U (.binder i k p :: ms) :=
  (h.mono (List.subset_cons_self ..)).cons

theorem congr (h : Accounted x U ms) (hmem : ∀ {m}, m ∈ ms ↔ m ∈ ns) : Accounted x U ns :=
  (h.mono fun _ hm => hmem.mp hm).of_uses fun hm => hmem.mpr hm

theorem flatMap {α : Type} {xs : List α} {f : α → List Mention} (h : ∀ a ∈ xs, Accounted x U (f a)) :
    Accounted x U (xs.flatMap f) := by
  intro n token passed hm hn
  obtain ⟨a, ha, hm⟩ := List.mem_flatMap.mp hm
  refine (h a ha n token passed hm hn).imp_left (boundUses_mono fun m hm => ?_)
  exact List.mem_flatMap.mpr ⟨a, ha, hm⟩

theorem filter (h : Accounted x U ms) (ids : List Int) :
    Accounted x U (ms.filter (Mention.outside ids)) := by
  intro n token passed hm hn
  refine (h n token passed (List.mem_filter.mp hm).1 hn).imp_left ?_
  exact fun ⟨htoken, k, p, hb, hpassed⟩ => ⟨htoken, k, p, List.mem_filter.mpr ⟨hb, rfl⟩, hpassed⟩

/-- Binders account for uses that are allowed because of them. -/
theorem under (h : Accounted x U ms) (h' : Accounted x U' ns)
    (hU : ∀ token passed, U' token passed → boundUses x ms token passed ∨ U token passed) :
    Accounted x U (ms ++ ns) := by
  refine (h.mono (List.subset_append_left ..)).append (h'.imp (List.subset_append_right ..) ?_)
  exact fun token passed hu => (hU token passed hu).imp_left (boundUses_mono (List.subset_append_left ..))

end Accounted

/-! ## Variables in scope -/

/-- The table of variables is in order, and place-holders have the names of their entries. -/
structure Tidy (s : State) : Prop where
  sorted : s.vars.Sorted
  named : ∀ e ∈ s.vars, ∀ token n t, e.2 = .inGroup token n t → n.id = e.1

variable {c : Context} {E : External} {s s₁ s' : State} {vs : List (Name × VarType)}

theorem Tidy.of_vars (h : Tidy s) (hvars : s'.vars = s.vars) : Tidy s' where
  sorted := by rw [hvars]; exact h.sorted
  named := by rw [hvars]; exact h.named

theorem typeOf_of_vars (hvars : s'.vars = s.vars) : s'.typeOf E x = s.typeOf E x := by
  rw [State.typeOf, hvars, State.typeOf]

theorem uses_of_vars (hvars : s'.vars = s.vars) : s'.uses E x = s.uses E x := by
  unfold State.uses
  rw [typeOf_of_vars hvars]

theorem Tidy.pushAll (h : Tidy s)
    (hvs : ∀ v ∈ vs, ∀ token n t, v.2 = .inGroup token n t → n.id = v.1.id) :
    Tidy (s.pushAll vs) := by
  induction vs generalizing s with
  | nil => exact h
  | cons v vs ih =>
    rw [List.forall_mem_cons] at hvs
    exact ih ⟨Table.sorted_insert h.sorted, Table.forall_mem_insert hvs.1 h.named⟩ hvs.2

/-- Variables that are declared with schemas account for their uses where they are bound. -/
theorem boundUses_or_of_pushAll {token : Option Int} {passed : List Passed}
    (hvs : ∀ v ∈ vs, v.1.id = x → ∃ sc, v.2 = .known sc ∧ Mention.head v.1 sc ∈ bs)
    (h : (s.pushAll vs).uses E x token passed) :
    boundUses x bs token passed ∨ s.uses E x token passed := by
  obtain ⟨v, hv, hu⟩ := h
  rcases typeOf_pushAll (E := E) s vs x with ⟨w, hw, rfl, htype⟩ | ⟨-, htype⟩
  · obtain ⟨sc, hknown, hhead⟩ := hvs w hw rfl
    rw [htype, Option.some_inj, hknown] at hv
    exact Or.inl (boundUses_head hhead (hv ▸ hu))
  · exact Or.inr ⟨v, htype ▸ hv, hu⟩

/-! ## Computations -/

/-- A computation that declares nothing in the end, and whose result is as `post` says for the uses
of `x` that the state allows at its start. -/
structure Covered {α : Type} (x : Int) (act : Infer α) (post : Uses → α → Prop) : Prop
    extends Scoped act where
  covers : ∀ {c : Context} {s s' : State} {a : α}, Returns act c s a s' → Tidy s →
    post (s.uses c.external x) a

theorem Scoped.covered {α : Type} {act : Infer α} (h : Scoped act) :
    Covered x act fun _ _ => True := ⟨h, fun _ _ => trivial⟩

namespace Covered

variable {α β : Type} {post post' : Uses → α → Prop} {post₂ : Uses → β → Prop}

theorem pure {a : α} (h : ∀ U, post U a) : Covered x (Pure.pure a : Infer α) post :=
  ⟨.pure a, fun ha _ => (returns_pure.mp ha).1 ▸ h _⟩

theorem bind {act : Infer α} {f : α → Infer β} (h : Covered x act post)
    (h' : ∀ a, Covered x (f a) fun U b => post U a → post₂ U b) : Covered x (act >>= f) post₂ where
  toScoped := h.toScoped.bind fun a => (h' a).toScoped
  covers hab hs := by
    obtain ⟨a, s₁, ha, hb⟩ := returns_bind.mp hab
    have hframe := h.step ha hs.sorted
    have hpost := (h' a).covers hb (hs.of_vars hframe.vars)
    rw [uses_of_vars hframe.vars] at hpost
    exact hpost (h.covers ha hs)

/-- The next computation need not know what this one is for. -/
theorem andThen {act : Infer α} {f : α → Infer β} (h : Scoped act)
    (h' : ∀ a, Covered x (f a) post₂) : Covered x (act >>= f) post₂ :=
  h.covered.bind fun a => ⟨(h' a).toScoped, fun hb hs _ => (h' a).covers hb hs⟩

theorem imp {act : Infer α} (h : Covered x act post) (hpost : ∀ U a, post U a → post' U a) :
    Covered x act post' := ⟨h.toScoped, fun ha hs => hpost _ _ (h.covers ha hs)⟩

theorem withRange {r : Range} {act : Infer α} (h : Covered x act post) :
    Covered x (withRange r act) post where
  toScoped := h.toScoped.withRange
  covers {c _ _ _} ha hs := h.covers (c := c.located r) ha hs

theorem ite {p : Prop} [Decidable p] {act act' : Infer α} (h : Covered x act post)
    (h' : Covered x act' post) : Covered x (if p then act else act') post := by
  split
  · exact h
  · exact h'

theorem throw {e : InternalError} : Covered x (MonadExcept.throw e : Infer α) post :=
  ⟨(Framed.throw e).scoped, fun ha _ => absurd ha not_returns_throw⟩

theorem mapM {xs : List α} {f : α → Infer β} (h : ∀ a ∈ xs, Covered x (f a) post₂) :
    Covered x (xs.mapM f) fun U bs => ∀ b ∈ bs, post₂ U b := by
  induction xs with
  | nil => exact .pure fun _ => List.forall_mem_nil _
  | cons a xs ih =>
    rw [List.mapM_cons]
    rw [List.forall_mem_cons] at h
    refine h.1.bind fun b => (ih h.2).bind fun bs => .pure fun U hbs hb => ?_
    exact List.forall_mem_cons.mpr ⟨hb, hbs⟩

end Covered

/-- A term accounts for its uses. -/
def termUses (x : Int) (U : Uses) (e : Term) : Prop := Accounted x U (e.mentions [])

theorem accounted_mentionsList {es : List Term} (h : ∀ e ∈ es, termUses x U e) :
    Accounted x U (mentionsList es) := by
  rw [mentionsList_eq]
  exact .flatMap h

/-! ## Uses of variables and primitives -/

theorem length_of_instantiate {sc : Schema} {given : Table Int Ty}
    {source : Nat → Param → TypeSource} {inst : Instance}
    (h : Returns (instantiate sc given source) c s inst s') :
    inst.args.length = sc.params.length ∧ inst.props.length = sc.props.length := by
  unfold instantiate at h
  simp only [returns_get_bind, returns_set_bind, returns_pure] at h
  obtain ⟨rfl, -⟩ := h
  exact ⟨length_freshArgs .., List.length_map ..⟩

/-- An instance of a known schema passes a type for each parameter and evidence for each
predicate. -/
theorem termUses_instance {n : Name} {schema : Schema} {inst : Instance}
    (hv : s.typeOf E n.id = some (.known schema))
    (hlen : inst.args.length = schema.params.length ∧ inst.props.length = schema.props.length) :
    termUses x (s.uses E x) ((Term.var n).instantiated inst.args inst.props.length) := by
  rw [termUses, mentions_instantiated, List.append_nil]
  refine .use fun hn => ?_
  subst hn
  exact ⟨_, hv, rfl, by rw [hlen.1, hlen.2]⟩

theorem Tidy.name_id (hs : Tidy s) {i token : Int} {n : Name} {t : Ty}
    (h : s.typeOf E i = some (.inGroup token n t)) : n.id = i := by
  have hfind : s.vars.find? i = some (.inGroup token n t) := by
    rcases Option.or_eq_some_iff.mp h with h | ⟨-, h⟩
    · exact h
    · obtain ⟨_, -, h⟩ := Option.map_eq_some_iff.mp h
      cases h
  exact hs.named _ (Table.mem_of_find? hfind) token n t rfl

theorem covered_checkVar (n : Name) (args : List TypeArg) (exp : Expected) :
    Covered x (checkVar n args exp) (termUses x) where
  toScoped := (framed_checkVar ..).scoped
  covers {c s s' e} h hs := by
    unfold checkVar at h
    obtain ⟨v, _, hlookup, h⟩ := returns_bind.mp h
    obtain ⟨rfl, hv⟩ := returns_lookupVar hlookup
    cases v with
    | known schema =>
      simp only [returns_bind, returns_pure] at h
      obtain ⟨_, _, hget, given, s₁, -, inst, s₂, hinst, ⟨⟩, _, -, ⟨⟩, _, -, rfl, -⟩ := h
      obtain ⟨rfl, rfl⟩ := returns_get.mp hget
      have hlen := length_of_instantiate hinst
      rw [Subst.applySchema, Schema.mapTypes, List.length_map] at hlen
      exact termUses_instance hv hlen
    | inGroup token name t =>
      have hout : e = .groupVar name token := by
        cases args with
        | nil =>
          simp only [returns_bind, returns_pure] at h
          obtain ⟨_, _, -, ⟨⟩, _, -, rfl, -⟩ := h
          rfl
        | cons a as =>
          simp only [returns_bind, returns_pure] at h
          obtain ⟨_, _, -, ⟨⟩, _, -, ⟨⟩, _, -, rfl, -⟩ := h
          rfl
      rw [hout, termUses]
      refine .use fun hn => ⟨.inGroup token name t, ?_, rfl, rfl⟩
      rw [← hn, hs.name_id hv]
      exact hv

theorem covered_checkPrim (src : GoalSource) (ident : String) (args : List (String × Ty))
    (exp : Expected) : Covered x (checkPrim src ident args exp) (termUses x) where
  toScoped := (framed_checkPrim ..).scoped
  covers {c s s' e} h _ := by
    unfold checkPrim at h
    obtain ⟨n, s₁, hprim, h⟩ := returns_bind.mp h
    have hvars := ((framed_prim ident).step hprim).vars
    obtain ⟨v, _, hlookup, h⟩ := returns_bind.mp h
    obtain ⟨rfl, hv⟩ := returns_lookupVar hlookup
    rw [← uses_of_vars hvars]
    cases v with
    | known schema =>
      simp only [pure_bind, returns_get_bind] at h
      split at h
      · simp at h
      · simp only [returns_bind, returns_pure] at h
        obtain ⟨inst, s₂, hinst, ⟨⟩, _, -, ⟨⟩, _, -, rfl, -⟩ := h
        have hlen := length_of_instantiate hinst
        rw [Subst.applySchema, Schema.mapTypes, List.length_map] at hlen
        exact termUses_instance hv hlen
    | inGroup token name t => simp at h

theorem covered_checkNum (value base digits : Int) (exp : Expected) :
    Covered x (checkNum value base digits exp) (termUses x) := covered_checkPrim ..

theorem covered_checkString (str : String) (exp : Expected) :
    Covered x (checkString str exp) (termUses x) := by
  refine .andThen (framed_unifyExact ..).scoped fun _ =>
    (Covered.mapM fun _ _ => covered_checkPrim ..).bind fun es => .pure fun U hes => ?_
  show Accounted x U (mentionsList es)
  exact accounted_mentionsList hes

theorem covered_checkEnumeration (e : Surface.Enumeration) (exp : Expected) :
    Covered x (checkEnumeration e exp) (termUses x) := by
  unfold checkEnumeration
  cases e.elem with
  | none =>
    exact .andThen (.pure _) fun _ => .andThen (framed_checkBound ..).scoped fun _ =>
      .andThen (Framed.mapM fun _ _ => framed_checkBound ..).scoped fun _ => covered_checkPrim ..
  | some t =>
    exact .andThen (framed_checkType ..).scoped fun _ => .andThen (.pure _) fun _ =>
      .andThen (framed_checkBound ..).scoped fun _ =>
      .andThen (Framed.mapM fun _ _ => framed_checkBound ..).scoped fun _ => covered_checkPrim ..

/-! ## Patterns -/

/-- The binders and uses of a checked pattern. -/
def Matched.mentions (m : Matched) : List Mention := .binder m.name.id 0 0 :: mentionsDecls m.decls

/-- A checked pattern accounts for its uses and binds its variables without parameters. -/
structure Matched.Accounts (x : Int) (U : Uses) (m : Matched) : Prop where
  accounted : Accounted x U m.mentions
  vars : ∀ v ∈ m.vars, Mention.binder v.1.id 0 0 ∈ m.mentions

theorem covered_monoDecl (n : Name) (t : Ty) (e : Term) : Covered x (monoDecl n t e) fun _ d =>
    d.mentions = .binder n.id 0 0 :: e.mentions [] :=
  .andThen framed_currentRange.scoped fun _ => .pure fun _ => rfl

/-- A part of a pattern comes after a definition that selects it. -/
theorem covered_part (whole : Matched) (sel : Selector) (t : Ty) (m : Matched) :
    Covered x (whole.part sel t m) fun _ m' => m'.name = whole.name ∧
      m'.vars = whole.vars ++ m.vars ∧ mentionsDecls m'.decls = mentionsDecls whole.decls ++
        .binder m.name.id 0 0 :: .use whole.name none [] :: mentionsDecls m.decls := by
  refine (covered_monoDecl ..).bind fun d => .pure fun U hd => ⟨rfl, rfl, ?_⟩
  rw [mentionsDecls_append, mentionsDecls, hd]
  rfl

theorem Matched.Accounts.part {whole m m' : Matched} (h : whole.Accounts x U) (hm : m.Accounts x U)
    (hname : m'.name = whole.name) (hvars : m'.vars = whole.vars ++ m.vars)
    (hdecls : mentionsDecls m'.decls = mentionsDecls whole.decls ++
      .binder m.name.id 0 0 :: .use whole.name none [] :: mentionsDecls m.decls) :
    m'.Accounts x U := by
  have hwhole : whole.mentions ⊆ m'.mentions := by
    intro e he
    simp only [Matched.mentions, hname, hdecls, List.mem_cons, List.mem_append] at he ⊢
    grind
  have hpart : m.mentions ⊆ m'.mentions := by
    intro e he
    simp only [Matched.mentions, hname, hdecls, List.mem_cons, List.mem_append] at he ⊢
    grind
  refine ⟨?_, ?_⟩
  · have hself : Covers x U m'.mentions [.use whole.name none []] := .bare (hwhole (List.mem_cons_self ..))
    refine (((h.accounted.mono hwhole).append (hm.accounted.mono hpart)).append hself).of_uses ?_
    intro n token passed he
    simp only [Matched.mentions, hname, hdecls, List.mem_cons, List.mem_append] at he ⊢
    grind
  · rw [hvars]
    exact List.forall_mem_append.mpr ⟨fun v hv => hwhole (h.vars v hv), fun v hv => hpart (hm.vars v hv)⟩

theorem Matched.Accounts.named (n : Name) : Matched.Accounts x U { name := n } where
  accounted := Covers.nil.cons
  vars := List.forall_mem_nil _

theorem covered_checkSplit (exp : Expected) : Covered x (checkSplit exp) fun U r =>
    r.2.1.vars = [] ∧ ∃ split : Term, termUses x U split ∧ mentionsDecls r.2.1.decls =
      .binder r.2.1.name.id 0 0 :: (split.mentions [] ++ [.use r.1 none []]) := by
  refine .andThen (framed_freshType ..).scoped fun _ => .andThen (framed_freshType ..).scoped fun _ =>
    .andThen (framed_freshType ..).scoped fun _ => .andThen (framed_unifyFrom ..).scoped fun _ =>
    .andThen (framed_addGoals ..).scoped fun _ => (covered_checkPrim ..).bind fun split =>
    .andThen (framed_freshName _).scoped fun y => .andThen (framed_freshName _).scoped fun parts =>
    (covered_monoDecl ..).bind fun d => .pure fun U hd hsplit => ⟨rfl, split, hsplit, ?_⟩
  rw [mentionsDecls, hd, mentionsDecls, List.append_nil]
  rfl

/-- The two parts of a sequence are selected from the pair of them. -/
theorem Matched.Accounts.split {y : Name} {parts parts₁ parts₂ l r : Matched} {split : Term}
    (hl : l.Accounts x U) (hr : r.Accounts x U) (hsplit : termUses x U split)
    (hvars : parts.vars = [])
    (hdecls : mentionsDecls parts.decls =
      .binder parts.name.id 0 0 :: (split.mentions [] ++ [.use y none []]))
    (h₁ : parts₁.name = parts.name ∧ parts₁.vars = parts.vars ++ l.vars ∧
      mentionsDecls parts₁.decls = mentionsDecls parts.decls ++
        .binder l.name.id 0 0 :: .use parts.name none [] :: mentionsDecls l.decls)
    (h₂ : parts₂.name = parts₁.name ∧ parts₂.vars = parts₁.vars ++ r.vars ∧
      mentionsDecls parts₂.decls = mentionsDecls parts₁.decls ++
        .binder r.name.id 0 0 :: .use parts₁.name none [] :: mentionsDecls r.decls) :
    Matched.Accounts x U { parts₂ with name := y } := by
  have hall : Matched.mentions { parts₂ with name := y } = .binder y.id 0 0 ::
      (.binder parts.name.id 0 0 :: (split.mentions [] ++ [.use y none []]) ++
        .binder l.name.id 0 0 :: .use parts.name none [] :: mentionsDecls l.decls ++
        .binder r.name.id 0 0 :: .use parts.name none [] :: mentionsDecls r.decls) := by
    rw [Matched.mentions, h₂.2.2, h₁.2.2, hdecls, h₁.1]
  have hleft : l.mentions ⊆ Matched.mentions { parts₂ with name := y } := by
    rw [hall, Matched.mentions]
    intro e he
    simp only [List.mem_cons, List.mem_append] at he ⊢
    grind
  have hright : r.mentions ⊆ Matched.mentions { parts₂ with name := y } := by
    rw [hall, Matched.mentions]
    intro e he
    simp only [List.mem_cons, List.mem_append] at he ⊢
    grind
  have hfn : split.mentions [] ⊆ Matched.mentions { parts₂ with name := y } := by
    rw [hall]
    intro e he
    simp only [List.mem_cons, List.mem_append]
    grind
  have hwhole : Covers x U (Matched.mentions { parts₂ with name := y }) [.use y none []] :=
    .bare (List.mem_cons_self ..)
  have hpair : Covers x U (Matched.mentions { parts₂ with name := y })
      [.use parts.name none []] := .bare (by rw [hall]; simp)
  refine ⟨?_, ?_⟩
  · refine (((((hsplit.mono hfn).append (hl.accounted.mono hleft)).append
      (hr.accounted.mono hright)).append hwhole).append hpair).of_uses ?_
    rw [hall]
    intro n token passed he
    simp only [Matched.mentions, List.mem_cons, List.mem_append, reduceCtorEq, false_or] at he ⊢
    grind
  · show ∀ v ∈ parts₂.vars, _
    rw [h₂.2.1, h₁.2.1, hvars, List.nil_append]
    exact List.forall_mem_append.mpr ⟨fun v hv => hleft (hl.vars v hv), fun v hv => hright (hr.vars v hv)⟩

mutual
theorem covered_checkPattern : ∀ (p : Pattern) (exp : Expected),
    Covered x (checkPattern p exp) (Matched.Accounts x)
  | .located r p, exp => by
    rw [checkPattern]
    exact (covered_checkPattern p exp).withRange
  | .var n, exp => by
    rw [checkPattern]
    refine .pure fun U => ⟨Covers.nil.cons, fun v hv => ?_⟩
    rw [List.mem_singleton.mp hv]
    exact List.mem_cons_self ..
  | .wildcard, exp => by
    rw [checkPattern]
    exact .andThen (framed_freshName _).scoped fun y => .pure fun _ => .named y
  | .typed p t, exp => by
    rw [checkPattern]
    exact .andThen (framed_checkType ..).scoped fun _ => .andThen (framed_unifyExact ..).scoped fun _ =>
      covered_checkPattern p _
  | .tuple ps, exp => by
    rw [checkPattern]
    exact .andThen (framed_expectTuple ..).scoped fun _ => .andThen (framed_freshName _).scoped fun y =>
      (covered_checkParts ps _ _).imp fun _ _ h => h (.named y)
  | .record fs, exp => by
    rw [checkPattern]
    exact .andThen (framed_expectRecord ..).scoped fun _ =>
      .andThen (framed_freshName _).scoped fun y =>
      (covered_checkFieldParts fs _ _).imp fun _ _ h => h (.named y)
  | .list ps, exp => by
    rw [checkPattern]
    exact .andThen (framed_expectSeq _).scoped fun _ => .andThen (framed_unifyFrom ..).scoped fun _ =>
      .andThen (framed_freshName _).scoped fun y =>
      (covered_checkParts ps _ _).imp fun _ _ h => h (.named y)
  | .split left right, exp => by
    rw [checkPattern]
    refine (covered_checkSplit exp).bind fun ⟨y, parts, lt, rt⟩ =>
      (covered_checkPattern left _).bind fun l => (covered_part ..).bind fun parts₁ =>
      (covered_checkPattern right _).bind fun r => (covered_part ..).bind fun parts₂ =>
      .pure fun U h₂ hr h₁ hl hsplit => ?_
    obtain ⟨hvars, split, hu, hdecls⟩ := hsplit
    exact hl.split hr hu hvars hdecls h₁ h₂

theorem covered_checkParts : ∀ (ps : List Pattern) (slots : List (Selector × Expected))
    (whole : Matched), Covered x (checkParts ps slots whole) fun U m =>
      whole.Accounts x U → m.Accounts x U
  | p :: ps, (sel, exp) :: slots, whole => by
    rw [checkParts]
    refine (covered_checkPattern p exp).bind fun m => (covered_part ..).bind fun whole' =>
      (covered_checkParts ps slots whole').imp fun U m' hm' hpart hm hwhole => hm' ?_
    exact hwhole.part hm hpart.1 hpart.2.1 hpart.2.2
  | [], _, whole => by
    rw [checkParts]
    · exact .pure fun _ h => h
    · simp
  | _ :: _, [], whole => by
    rw [checkParts]
    · exact .pure fun _ h => h
    · simp

theorem covered_checkFieldParts : ∀ (fs : List (String × Pattern)) (fields : Table String Ty)
    (whole : Matched), Covered x (checkFieldParts fs fields whole) fun U m =>
      whole.Accounts x U → m.Accounts x U
  | [], _, whole => by
    rw [checkFieldParts]
    exact .pure fun _ h => h
  | (l, p) :: fs, fields, whole => by
    rw [checkFieldParts]
    refine (covered_checkPattern p _).bind fun m => (covered_part ..).bind fun whole' =>
      (covered_checkFieldParts fs fields whole').imp fun U m' hm' hpart hm hwhole => hm' ?_
    exact hwhole.part hm hpart.1 hpart.2.1 hpart.2.2
end

end SizedTypes.Infer
