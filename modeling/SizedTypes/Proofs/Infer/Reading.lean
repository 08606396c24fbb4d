import SizedTypes.Proofs.Core.Typing
import SizedTypes.Proofs.Infer.State

/-!
# Readings of a run

How the types of a run are read once it is over: under a map that solves the last substitution, up
to the equalities of sizes that the run has put off. A reading accepts every part of a run that it
accepts as a whole, and the typing rules hold of terms and types as they are read.
-/

set_option autoImplicit false

namespace SizedTypes.Infer

open SizedTypes.Core (Env HasType Term)

/-- How the types of a run are read: variables stand for shapes, and shapes are compared up to a
congruence. -/
structure Reading (W : Setting) where
  rel : Shape → Shape → Prop
  image : Int → Shape
  type : Ty → Ty
  congruence : Shape.Congruence rel
  shape_type : ∀ t, (type t).shape = t.shape.subst image
  inScope : ∀ i, ∀ p ∈ (image i).params, W.scope p

namespace Reading

variable {W : Setting} (V : Reading W)

/-- Types that are the same once they are read. -/
def Same (t u : Ty) : Prop := V.rel (t.shape.subst V.image) (u.shape.subst V.image)

theorem same_iff {t u : Ty} : V.Same t u ↔ V.rel (V.type t).shape (V.type u).shape := by
  rw [Same, V.shape_type, V.shape_type]

theorem same_of_shape {t u : Ty} (h : t.shape = u.shape) : V.Same t u := by
  rw [Same, h]
  exact V.congruence.refl _

theorem same_refl (t : Ty) : V.Same t t := V.same_of_shape rfl

variable {V}

theorem Same.symm {t u : Ty} (h : V.Same t u) : V.Same u t := V.congruence.symm h

theorem Same.trans {t u v : Ty} (h : V.Same t u) (h' : V.Same u v) : V.Same t v :=
  V.congruence.trans h h'

theorem Same.arrow {a b c d : Ty} (h : V.Same a b) (h' : V.Same c d) :
    V.Same (.arrow a c) (.arrow b d) := by
  unfold Same Ty.arrow
  simp only [Ty.shape_con, List.map_cons, List.map_nil, Shape.subst_node]
  exact V.congruence.node_two h h'

theorem Same.seq {a b c d : Ty} (h : V.Same a b) (h' : V.Same c d) :
    V.Same (.seq a c) (.seq b d) := by
  unfold Same Ty.seq
  simp only [Ty.shape_con, List.map_cons, List.map_nil, Shape.subst_node]
  exact V.congruence.node_two h h'

variable (V)

/-- A reading under which a part of a run is accepted: no error is recorded, and the reading takes
what has been bound and put off as given. -/
structure Accepts (s s' : State) : Prop where
  errors : s'.errors = s.errors
  solves : Subst.Solves V.image s'.subst
  equates : ∀ g ∈ newGoals s s', ∀ l r : Ty, g.prop = .equal l r → V.Same l r

variable {V} {E : External} {m n : Nat} {s s₁ s' : State}

theorem Accepts.left (h : V.Accepts s s') (h₁ : Extends W E m s s₁)
    (h₂ : Extends W E n s₁ s') : V.Accepts s s₁ where
  errors := by
    refine (h₁.errors.eq_of_length_le ?_).symm
    rw [← h.errors]
    exact h₂.errors.length_le
  solves := h₂.solves _ h.solves
  equates g hg := h.equates g (mem_newGoals_left h₁ h₂ hg)

theorem Accepts.right (h : V.Accepts s s') (h₁ : Extends W E m s s₁)
    (h₂ : Extends W E n s₁ s') : V.Accepts s₁ s' where
  errors := h.errors.trans (h.left h₁ h₂).errors.symm
  solves := h.solves
  equates g hg := h.equates g (mem_newGoals_right h₁ hg)

/-! ## Typing rules under a reading -/

variable (V)

/-- A term with its types as they are read. -/
def term (e : Term) : Term := e.substitute V.type fun _ _ => none

def Typed (Γ : Env) (e : Term) (t : Ty) : Prop := HasType V.rel Γ (V.term e) (V.type t)

variable {V} {Γ : Env} {e e' f x : Term} {t u : Ty}

theorem Typed.conv (h : V.Typed Γ e t) (h' : V.Same t u) : V.Typed Γ e u :=
  HasType.conv h (V.same_iff.mp h')

/-- A term with a type of the shape as it is read. -/
theorem typed_of_shape (h : HasType V.rel Γ (V.term e) u) (hu : u.shape = t.shape.subst V.image) :
    V.Typed Γ e t := by
  refine HasType.conv h (V.congruence.of_eq ?_)
  rw [hu, V.shape_type]

theorem Typed.of_shape (h : V.Typed Γ e t) (hu : u.shape = t.shape.subst V.image) :
    HasType V.rel Γ (V.term e) u := by
  refine HasType.conv h (V.congruence.of_eq ?_)
  rw [hu, V.shape_type]

theorem shape_arrow_type (t u : Ty) :
    (Ty.arrow (V.type t) (V.type u)).shape = (Ty.arrow t u).shape.subst V.image := by
  simp [Ty.arrow, V.shape_type]

theorem shape_seq_type (n : Int) (t : Ty) :
    (Ty.seq (.num n) (V.type t)).shape = (Ty.seq (.num n) t).shape.subst V.image := by
  simp [Ty.seq, Ty.num, V.shape_type]

theorem shape_tuple_type (ts : List Ty) :
    (Ty.tuple (ts.map V.type)).shape = (Ty.tuple ts).shape.subst V.image := by
  simp [Ty.tuple, V.shape_type, Function.comp_def]

theorem shape_record_type (fs : Table String Ty) :
    (Ty.record (fs.map fun f => (f.1, V.type f.2))).shape =
      (Ty.record fs).shape.subst V.image := by
  simp [V.shape_type, Function.comp_def]

theorem Typed.app (hf : V.Typed Γ f (.arrow t u)) (hx : V.Typed Γ x t) :
    V.Typed Γ (.app f x) u :=
  HasType.app (hf.of_shape (shape_arrow_type t u)) hx

theorem Typed.abs {n : Name} (h : V.Typed (Γ.set n (.mono (V.type t))) e u) :
    V.Typed Γ (.abs n t e) (.arrow t u) :=
  typed_of_shape (HasType.abs h) (shape_arrow_type t u)

theorem substituteList_eq_map (es : List Term) :
    Core.substituteList V.type (fun _ _ => none) es = es.map V.term := by
  induction es with
  | nil => rfl
  | cons e es ih => rw [Core.substituteList, ih, List.map_cons, term]

theorem substituteFields_eq_map (fs : List (String × Term)) :
    Core.substituteFields V.type (fun _ _ => none) fs = fs.map fun f => (f.1, V.term f.2) := by
  induction fs with
  | nil => rfl
  | cons f fs ih => rw [Core.substituteFields, ih, List.map_cons, term]

theorem Typed.tuple {es : List Term} {ts : List Ty} (hlen : es.length = ts.length)
    (h : ∀ p ∈ es.zip ts, V.Typed Γ p.1 p.2) : V.Typed Γ (.tuple es) (.tuple ts) := by
  refine typed_of_shape ?_ (shape_tuple_type ts)
  rw [term, Term.substitute, substituteList_eq_map]
  refine HasType.tuple (by simp [hlen]) fun p hp => ?_
  rw [List.zip_map, List.mem_map] at hp
  obtain ⟨q, hq, rfl⟩ := hp
  exact h q hq

theorem Typed.record {es : List (String × Term)} {fs : Table String Ty} (hfs : fs.Sorted)
    (hnodup : (es.map Prod.fst).Nodup)
    (hlabels : ∀ l, l ∈ fs.map Prod.fst ↔ l ∈ es.map Prod.fst)
    (h : ∀ f ∈ es, ∀ t, fs.find? f.1 = some t → V.Typed Γ f.2 t) :
    V.Typed Γ (.record es) (.record fs) := by
  refine typed_of_shape ?_ (shape_record_type fs)
  rw [term, Term.substitute, substituteFields_eq_map]
  refine HasType.record (Ty.sorted_mapValues hfs V.type) (by rwa [List.map_map])
    (by simpa using hlabels) fun f hf t ht => ?_
  obtain ⟨g, hg, rfl⟩ := List.mem_map.mp hf
  rw [Table.find?_map] at ht
  obtain ⟨u, hu, rfl⟩ := Option.map_eq_some_iff.mp ht
  exact h g hg u hu

theorem Typed.component {i : Nat} {ts : List Ty} (h : V.Typed Γ e (.tuple ts))
    (hi : ts[i]? = some t) : V.Typed Γ (.select e (.component i)) t :=
  HasType.component (h.of_shape (shape_tuple_type ts)) (by simp [hi])

theorem Typed.field {l : String} {fs : Table String Ty} (h : V.Typed Γ e (.record fs))
    (hl : fs.find? l = some t) : V.Typed Γ (.select e (.field l)) t := by
  refine HasType.field (h.of_shape (shape_record_type fs)) ?_
  rw [Table.find?_map, hl, Option.map_some]

theorem Typed.element {i n : Nat} (h : V.Typed Γ e (.seq (.num n) t)) (hi : i < n) :
    V.Typed Γ (.select e (.element i)) t :=
  HasType.element (h.of_shape (shape_seq_type n t)) hi

theorem Typed.list {es : List Term} (h : ∀ e ∈ es, V.Typed Γ e t) :
    V.Typed Γ (.list es t) (.seq (.num es.length) t) := by
  refine typed_of_shape ?_ (shape_seq_type es.length t)
  rw [term, Term.substitute, substituteList_eq_map]
  have hall : HasType V.rel Γ (.list (es.map V.term) (V.type t))
      (.seq (.num (es.map V.term).length) (V.type t)) := by
    refine HasType.list fun e he => ?_
    obtain ⟨e', he', rfl⟩ := List.mem_map.mp he
    exact h e' he'
  rwa [List.length_map] at hall

theorem Typed.ifThenElse {c : Term} (hc : V.Typed Γ c .bit) (h : V.Typed Γ e t)
    (h' : V.Typed Γ e' t) : V.Typed Γ (.ifThenElse c e e') t :=
  HasType.ifThenElse (hc.of_shape (by simp [Ty.bit])) h h'

theorem Typed.located {r : Range} (h : V.Typed Γ e t) : V.Typed Γ (.located r e) t :=
  HasType.located h

theorem Typed.block (h : V.Typed Γ e t) : V.Typed Γ (.block e []) t := HasType.block h

theorem Typed.define {n : Name} {prim : Bool} {r : Range} {gs : List Core.Group}
    (h : V.Typed Γ e' u) (h' : V.Typed (Γ.set n (.mono (V.type u))) (.block e gs) t) :
    V.Typed Γ (.block e (.mk false [.mk n (.mono u) (some e') prim r] :: gs)) t :=
  HasType.define h h'

/-! ## Environments as they are read -/

variable (V)

/-- The schema `sc'` is how `sc` is read. That of a variable which is not generalized is fixed up
to what the reading takes as given. -/
structure Reads (sc' sc : Schema) : Prop where
  params : sc'.params = sc.params
  props : sc'.props.length = sc.props.length
  body : sc'.body.shape = sc.body.shape.subst V.image ∨
    sc.params = [] ∧ V.rel sc'.body.shape (sc.body.shape.subst V.image)

variable {V} {sc sc' : Schema}

theorem reads_mapTypes (sc : Schema) : V.Reads (sc.mapTypes V.type) sc where
  params := rfl
  props := List.length_map ..
  body := Or.inl (V.shape_type sc.body)

theorem reads_mono (h : V.Same u t) : V.Reads (.mono (V.type u)) (.mono t) where
  params := rfl
  props := rfl
  body := Or.inr ⟨rfl, by rw [Schema.mono, V.shape_type]; exact h⟩

theorem Reads.applySchema (h : V.Reads sc' sc) {θ : Subst} (hθ : Subst.Solves V.image θ) :
    V.Reads sc' (θ.applySchema sc) where
  params := h.params
  props := h.props.trans (List.length_map ..).symm
  body := by
    have heq : (θ.applySchema sc).body.shape.subst V.image = sc.body.shape.subst V.image :=
      hθ.shape_apply sc.body
    rw [heq]
    exact h.body

/-- Instantiating a schema and reading it can be exchanged. -/
theorem shape_instantiate_of_reads (h : sc'.body.shape = sc.body.shape.subst V.image)
    (hsc : sc.WellFormed W) (args : List Ty) :
    (sc'.body.instantiate (Schema.assignment sc.params (args.map V.type))).shape =
      (sc.body.instantiate (Schema.assignment sc.params args)).shape.subst V.image := by
  rw [Ty.shape_instantiate, Ty.shape_instantiate, h, Shape.subst, Shape.bind_bind, Shape.subst,
    Shape.bind_bind]
  refine Shape.bind_congr (fun i hi => ?_) fun i _ => ?_
  · -- the image of a variable mentions none of the parameters
    refine (Shape.bind_congr (fun _ _ => rfl) fun p hp => ?_).trans (Shape.bind_self _)
    have hscope := V.inScope i p hp
    rcases hsc.hygienic with hclosed | hparams
    · rw [← Ty.varIds_eq_shape, hclosed] at hi
      cases hi
    · cases hfind : (Schema.assignment sc.params (args.map V.type)).find? p with
      | none => rfl
      | some a =>
        obtain ⟨e, he, heq⟩ := List.mem_map.mp (Table.mem_ofList (Table.mem_of_find? hfind))
        obtain ⟨rfl, -⟩ := Prod.mk.inj heq
        exact absurd hscope (hparams _ (List.of_mem_zip he).1)
  · have hmap : (args.map V.type).map Ty.shape = args.map fun a => a.shape.subst V.image := by
      rw [List.map_map]
      exact List.map_congr_left fun a _ => V.shape_type a
    rw [Shape.bind_param, Ty.find?_assignment, hmap, ← Ty.find?_assignment]
    cases (Schema.assignment sc.params args).find? i with
    | none => rfl
    | some a => rfl

theorem term_instantiated (e : Term) (args : List Ty) (proofs : Nat) :
    V.term (e.instantiated args proofs) = (V.term e).instantiated (args.map V.type) proofs := by
  have htypes : ∀ e : Term, V.term (args.foldl Term.typeApp e) =
      (args.map V.type).foldl Term.typeApp (V.term e) := by
    induction args with
    | nil => exact fun _ => rfl
    | cons a args ih => exact fun e => ih (.typeApp e a)
  have hproofs : ∀ (us : List Unit) (e : Term),
      V.term (us.foldl (fun e _ => Term.proofApp e) e) =
        us.foldl (fun e _ => Term.proofApp e) (V.term e) := by
    intro us
    induction us with
    | nil => exact fun _ => rfl
    | cons u us ih => exact fun e => ih (.proofApp e)
  rw [Term.instantiated, Term.instantiated, hproofs, htypes]

/-- A variable at types for all of its parameters. -/
theorem Typed.use {n : Name} {args : List Ty} (hn : Γ n.id = some sc') (hsc' : V.Reads sc' sc)
    (hsc : sc.WellFormed W) (hargs : args.length = sc.params.length) :
    V.Typed Γ ((Term.var n).instantiated args sc.props.length) (sc.instantiate args).2 := by
  have hlen : (args.map V.type).length = sc'.params.length := by
    rw [List.length_map, hsc'.params, hargs]
  have htyped := Core.hasType_instantiated (R := V.rel) hn hlen
  rw [hsc'.props] at htyped
  rw [Typed, term_instantiated]
  refine HasType.conv htyped ?_
  rw [V.shape_type]
  simp only [Schema.instantiate, hsc'.params]
  rcases hsc'.body with hbody | ⟨hmono, hbody⟩
  · exact V.congruence.of_eq (shape_instantiate_of_reads hbody hsc args)
  · have hself : ∀ (t : Ty) (as : List Ty),
        (t.instantiate (Schema.assignment [] as)).shape = t.shape := by
      intro t as
      rw [Ty.shape_instantiate]
      exact Shape.bind_self t.shape
    rw [hmono, hself, hself]
    exact hbody

/-- A variable that is not generalized. -/
theorem Typed.var {n : Name} (hn : Γ n.id = some sc') (hsc' : V.Reads sc' (.mono t))
    (ht : t.WellFormed W) : V.Typed Γ (.var n) t := by
  have hnone : ([] : List Ty).length = (Schema.mono t).params.length := rfl
  have huse := Typed.use hn hsc' (.mono ht) hnone
  refine huse.conv (V.same_of_shape ?_)
  simp only [Schema.instantiate, Schema.mono, Ty.shape_instantiate]
  exact Shape.bind_self t.shape

variable (V)

/-- The environment has the variables whose ids satisfy `P` as they are read. -/
def Agrees (P : Int → Prop) (E : External) (s : State) (Γ : Env) : Prop :=
  ∀ i, P i → ∀ sc, s.typeOf E i = some (.known sc) → ∃ sc', Γ i = some sc' ∧ V.Reads sc' sc

variable {V}

theorem Agrees.extends {P : Int → Prop} {E : External} {n : Nat} {s s' : State}
    (h : V.Agrees P E s Γ) (hext : Extends W E n s s') : V.Agrees P E s' Γ := by
  intro i hi sc hsc
  rw [hext.typeOf] at hsc
  exact h i hi sc hsc

end Reading
end SizedTypes.Infer
