import SizedTypes.Proofs.Simplify.Images
import SizedTypes.Proofs.Ty.Shape

/-!
# Types up to equal sizes

Sizes of the same value are equal, and so are a size and the smaller one of it and itself. Types of
values that are equal up to such sizes have the same constructor.
-/

set_option autoImplicit false

namespace SizedTypes

/-- When two sizes are equal: a congruence under which every type is as good as its final form, and
the smaller one of two equal sizes is that size. -/
structure Shape.SizeEquality (R : Shape → Shape → Prop) : Prop extends Shape.Congruence R where
  normalize : ∀ t : Ty, R t.normalize.shape t.shape
  min_self : ∀ n : Ty, R (Ty.op .min [n, n]).shape n.shape

/-- A constructor that is no size and no function on sizes. -/
def ShapeHead.OfValue (h : ShapeHead) : Prop :=
  (∀ n, h ≠ .con (.num n)) ∧ h ≠ .con .inf ∧ ∀ f, h ≠ .con (.op f)

namespace Shape

/-! ## Reducing sizes -/

/-- The size that is written as a literal. -/
def literal? : Shape → Option Size
  | node (.con (.num n)) [] => some (.finite n)
  | node (.con .inf) [] => some .inf
  | _ => none

/-- The value of a function at literals. -/
def opValue? (f : SizeOp) (ps : List Shape) : Option Size := (ps.mapM literal?).bind f.eval

/-- The value in place of the application of a function on sizes, if there is one. -/
def evaluated (f : SizeOp) (ps : List Shape) : Shape :=
  ((opValue? f ps).map fun n => n.toTy.shape).getD (node (.con (.op f)) ps)

open Classical in
/-- A function on sizes at parts that have been reduced. -/
noncomputable def reduceOp (f : SizeOp) (ps : List Shape) : Shape :=
  match f, ps with
  | .min, [a, b] => if a = b then a else evaluated .min [a, b]
  | f, ps => evaluated f ps

/-- A constructor at parts that have been reduced. -/
noncomputable def reduceNode : ShapeHead → List Shape → Shape
  | .con (.num n), _ => (Ty.num n).shape
  | .con .inf, _ => Ty.inf.shape
  | .con (.op f), ps => reduceOp f ps
  | h, ps => node h ps

mutual
/-- A shape with values in place of the functions on sizes that have one. -/
noncomputable def reduced : Shape → Shape
  | var i => var i
  | param i => param i
  | node h ps => reduceNode h (reducedAll ps)

noncomputable def reducedAll : List Shape → List Shape
  | [] => []
  | p :: ps => reduced p :: reducedAll ps
end

theorem reduced_node (h : ShapeHead) (ps : List Shape) :
    (node h ps).reduced = reduceNode h (ps.map reduced) := by
  have hall : reducedAll ps = ps.map reduced := by
    induction ps with
    | nil => rfl
    | cons p ps ih => rw [reducedAll, ih, List.map_cons]
  rw [reduced, hall]

theorem literal?_toTy (n : Size) : n.toTy.shape.literal? = some n := by
  cases n <;> rfl

theorem shape_toTy_of_literal? {p : Shape} {n : Size} (h : p.literal? = some n) :
    n.toTy.shape = p := by
  unfold literal? at h
  split at h
  · cases h
    rfl
  · cases h
    rfl
  · cases h

theorem reduced_toTy (n : Size) : n.toTy.shape.reduced = n.toTy.shape := by
  cases n <;> rfl

theorem literal?_evaluated (f : SizeOp) (ps : List Shape) :
    (evaluated f ps).literal? = opValue? f ps := by
  unfold evaluated
  cases opValue? f ps with
  | none => rfl
  | some n => exact literal?_toTy n

theorem literal?_reduceOp (f : SizeOp) (ps : List Shape) :
    (reduceOp f ps).literal? = opValue? f ps := by
  unfold reduceOp
  split
  · rename_i a b
    split
    · rename_i hab
      subst hab
      cases ha : a.literal? <;> simp [opValue?, ha, SizeOp.eval, Size.min]
    · exact literal?_evaluated .min [a, b]
  · exact literal?_evaluated f ps

/-! ## Types with reduced shapes -/

/-- The literals of reduced shapes are the values of their types. -/
theorem opValue?_reduced {ts : List Ty} (h : ∀ t ∈ ts, t.shape.reduced.literal? = t.eval)
    (f : SizeOp) : opValue? f (ts.map fun t => t.shape.reduced) = (Ty.con (.op f) ts).eval := by
  have hlist : (ts.map fun t => t.shape.reduced).mapM literal? = Ty.evalList ts := by
    induction ts with
    | nil => rfl
    | cons t ts ih =>
      obtain ⟨ht, hts⟩ := List.forall_mem_cons.mp h
      rw [List.map_cons, List.mapM_cons, ht, ih hts, Ty.evalList]
      cases t.eval <;> cases Ty.evalList ts <;> rfl
  rw [opValue?, hlist, Ty.eval]

/-- A type has a value exactly if its reduced shape is a literal. -/
theorem literal?_reduced (t : Ty) : t.shape.reduced.literal? = t.eval := by
  induction t using Ty.induct with
  | free v => rfl
  | bound p => rfl
  | con c args ih =>
    rw [Ty.shape_con, reduced_node, List.map_map]
    cases c with
    | op f => exact (literal?_reduceOp f _).trans (opValue?_reduced ih f)
    | _ => rfl
  | record fs ih =>
    rw [Ty.shape_record, reduced_node]
    rfl
  | synonym n args body iha ihb => exact ihb
  | newtype n ps fs args ih =>
    rw [Ty.shape_newtype, reduced_node]
    rfl

/-- A type and its final form are the same up to the values of sizes. -/
theorem reduced_normalize (t : Ty) : t.normalize.shape.reduced = t.shape.reduced := by
  have hlist : ∀ {ts : List Ty}, (∀ t ∈ ts, t.normalize.shape.reduced = t.shape.reduced) →
      ((Ty.normalizeList ts).map Ty.shape).map reduced = (ts.map Ty.shape).map reduced := by
    intro ts h
    rw [Ty.normalizeList_eq_map, List.map_map, List.map_map, List.map_map]
    exact List.map_congr_left h
  induction t using Ty.induct with
  | free v => rfl
  | bound p => rfl
  | con c args ih =>
    have hcon : (Ty.con c (Ty.normalizeList args)).shape.reduced =
        (Ty.con c args).shape.reduced := by
      rw [Ty.shape_con, Ty.shape_con, reduced_node, reduced_node, hlist ih]
    cases c with
    | op f =>
      rw [Ty.normalize_op]
      cases h : (Ty.con (.op f) args).eval with
      | none => exact hcon
      | some n =>
        -- the reduced shape is the literal with this value
        rw [← shape_toTy_of_literal? ((literal?_reduced _).trans h)]
        exact reduced_toTy n
    | _ => exact hcon
  | record fs ih =>
    rw [Ty.normalize, Ty.normalizeFields_eq_map, Ty.shape_record, Ty.shape_record, reduced_node,
      reduced_node, List.map_map, List.map_map, List.map_map, List.map_map]
    exact congrArg (reduceNode _) (List.map_congr_left ih)
  | synonym n args body iha ihb => exact ihb
  | newtype n ps fs args ih =>
    rw [Ty.normalize, Ty.shape_newtype, Ty.shape_newtype, reduced_node, reduced_node, hlist ih]

theorem reduceNode_of_value {h : ShapeHead} (hh : h.OfValue) (ps : List Shape) :
    reduceNode h ps = node h ps := by
  obtain ⟨hnum, hinf, hop⟩ := hh
  unfold reduceNode
  split
  · exact absurd rfl (hnum _)
  · exact absurd rfl hinf
  · exact absurd rfl (hop _)
  · rfl

theorem map_reduced_eq_iff {ps qs : List Shape} :
    ps.map reduced = qs.map reduced ↔ List.Forall₂ (fun a b => a.reduced = b.reduced) ps qs := by
  rw [← List.forall₂_eq_eq_eq, List.forall₂_map_left_iff, List.forall₂_map_right_iff]

theorem sizeEquality_reduced : SizeEquality fun a b => a.reduced = b.reduced where
  refl _ := rfl
  symm h := h.symm
  trans h h' := h.trans h'
  node h := by
    rw [reduced_node, reduced_node, map_reduced_eq_iff.mpr h]
  normalize := reduced_normalize
  min_self n := by
    rw [Ty.op, Ty.shape_con, reduced_node]
    exact if_pos rfl

/-- There is an equality of sizes under which types of values are equal only if their constructors
are the same and their parts are equal, and literals only if they are the same. -/
theorem exists_sizeEquality : ∃ R, SizeEquality R ∧
    (∀ (h h' : ShapeHead) (ps qs : List Shape), h.OfValue → h'.OfValue →
      R (.node h ps) (.node h' qs) → h = h' ∧ List.Forall₂ R ps qs) ∧
    ∀ m n : Int, R (Ty.num m).shape (Ty.num n).shape → m = n := by
  refine ⟨_, sizeEquality_reduced, fun h h' ps qs hh hh' heq => ?_, fun m n heq => ?_⟩
  · rw [reduced_node, reduced_node, reduceNode_of_value hh, reduceNode_of_value hh'] at heq
    obtain ⟨rfl, hparts⟩ := Shape.node.inj heq
    exact ⟨rfl, map_reduced_eq_iff.mp hparts⟩
  · have hcon := Shape.node.inj heq
    simpa [Con.key] using hcon

end Shape
end SizedTypes
