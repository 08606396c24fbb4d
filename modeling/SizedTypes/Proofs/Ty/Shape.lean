import Mathlib.Data.List.Basic
import Mathlib.Data.List.Forall2
import SizedTypes.Ty.Lemmas

/-!
# Shapes

What `Ty.same` compares: a type without its synonyms, with every variable, parameter and name cut
down to its id. Two types are the same exactly if their shapes are equal, so facts about types up
to synonyms are equations between shapes, and substitution acts on shapes.

Equations of sizes that wait for the solver are taken as they stand: shapes are compared up to the
least congruence that holds of both sides of each equation.
-/

set_option autoImplicit false

namespace SizedTypes

/-! ## Induction over types -/

namespace Ty

/-- Induction over a type with the hypotheses for its parts as members of lists. -/
@[elab_as_elim]
theorem induct {motive : Ty → Prop}
    (free : ∀ v, motive (.free v))
    (bound : ∀ p, motive (.bound p))
    (con : ∀ c args, (∀ a ∈ args, motive a) → motive (.con c args))
    (record : ∀ fs, (∀ f ∈ fs, motive f.2) → motive (.record fs))
    (synonym : ∀ n args body, (∀ a ∈ args, motive a) → motive body →
      motive (.synonym n args body))
    (newtype : ∀ n ps fs args, (∀ a ∈ args, motive a) → motive (.newtype n ps fs args))
    (t : Ty) : motive t := by
  refine @Ty.rec motive (fun ts => ∀ a ∈ ts, motive a) (fun fs => ∀ f ∈ fs, motive f.2)
    (fun f => motive f.2) free bound con record synonym (fun n ps fs args _ h => newtype n ps fs args h)
    ?_ ?_ ?_ ?_ ?_ t
  · intro a ha
    simp at ha
  · intro t ts ht hts a ha
    rcases List.mem_cons.mp ha with rfl | ha
    · exact ht
    · exact hts a ha
  · intro f hf
    simp at hf
  · intro f fs hf hfs g hg
    rcases List.mem_cons.mp hg with rfl | hg
    · exact hf
    · exact hfs g hg
  · intro _ _ h
    exact h

theorem bindList_eq_map (f : TyVar → Ty) (g : Param → Ty) (ts : List Ty) :
    bindList f g ts = ts.map (bind f g) := by
  induction ts with
  | nil => rfl
  | cons t ts ih => rw [bindList, ih, List.map_cons]

theorem bindFields_eq_map (f : TyVar → Ty) (g : Param → Ty) (fs : List (String × Ty)) :
    bindFields f g fs = fs.map fun e => (e.1, bind f g e.2) := by
  induction fs with
  | nil => rfl
  | cons e fs ih => rw [bindFields, ih, List.map_cons]

theorem varsList_eq_flatMap (ts : List Ty) : varsList ts = ts.flatMap vars := by
  induction ts with
  | nil => rfl
  | cons t ts ih => rw [varsList, ih, List.flatMap_cons]

theorem varsFields_eq_flatMap (fs : List (String × Ty)) :
    varsFields fs = fs.flatMap fun e => vars e.2 := by
  induction fs with
  | nil => rfl
  | cons e fs ih => rw [varsFields, ih, List.flatMap_cons]

theorem paramsList_eq_flatMap (ts : List Ty) : paramsList ts = ts.flatMap params := by
  induction ts with
  | nil => rfl
  | cons t ts ih => rw [paramsList, ih, List.flatMap_cons]

theorem paramsFields_eq_flatMap (fs : List (String × Ty)) :
    paramsFields fs = fs.flatMap fun e => params e.2 := by
  induction fs with
  | nil => rfl
  | cons e fs ih => rw [paramsFields, ih, List.flatMap_cons]

end Ty

/-! ## Shapes and their parts -/

/-- What is left of a constructor: abstract types are known by their ids. -/
def Con.key : Con → Con
  | .abstract n _ => .abstract { id := n.id, ident := "" } .unknown
  | c => c

theorem Con.same_iff_key {c d : Con} : c.same d = true ↔ c.key = d.key := by
  cases c <;> cases d <;> simp [Con.same, Con.key]

/-- Constructors that are the same are equal, apart from abstract types. -/
theorem Con.eq_or_abstract_of_same {c d : Con} (h : c.same d = true) :
    c = d ∨ ∃ n k m l, c = .abstract n k ∧ d = .abstract m l := by
  unfold Con.same at h
  split at h
  · exact Or.inr ⟨_, _, _, _, rfl, rfl⟩
  · cases h
  · cases h
  · exact Or.inl (of_decide_eq_true h)

/-- The outermost constructor of a shape. -/
inductive ShapeHead where
  | con (c : Con)
  | record (labels : List String)
  | newtype (id : Int)
deriving DecidableEq

inductive Shape where
  | var (id : Int)
  | param (id : Int)
  | node (head : ShapeHead) (parts : List Shape)

namespace Shape

@[elab_as_elim]
theorem induct {motive : Shape → Prop}
    (var : ∀ i, motive (.var i))
    (param : ∀ i, motive (.param i))
    (node : ∀ h ps, (∀ p ∈ ps, motive p) → motive (.node h ps))
    (s : Shape) : motive s := by
  refine @Shape.rec motive (fun ps => ∀ p ∈ ps, motive p) var param node ?_ ?_ s
  · intro p hp
    simp at hp
  · intro p ps hp hps q hq
    rcases List.mem_cons.mp hq with rfl | hq
    · exact hp
    · exact hps q hq

mutual
/-- Put shapes in place of variables and parameters. -/
def bind (f g : Int → Shape) : Shape → Shape
  | var i => f i
  | param i => g i
  | node h ps => node h (bindAll f g ps)

def bindAll (f g : Int → Shape) : List Shape → List Shape
  | [] => []
  | p :: ps => bind f g p :: bindAll f g ps
end

theorem bindAll_eq_map (f g : Int → Shape) (ps : List Shape) :
    bindAll f g ps = ps.map (bind f g) := by
  induction ps with
  | nil => rfl
  | cons p ps ih => rw [bindAll, ih, List.map_cons]

@[simp] theorem bind_var (f g : Int → Shape) (i : Int) : (var i).bind f g = f i := rfl

@[simp] theorem bind_param (f g : Int → Shape) (i : Int) : (param i).bind f g = g i := rfl

@[simp] theorem bind_node (f g : Int → Shape) (h : ShapeHead) (ps : List Shape) :
    (node h ps).bind f g = node h (ps.map (bind f g)) := by
  rw [bind, bindAll_eq_map]

/-- Put shapes in place of variables. -/
def subst (f : Int → Shape) (s : Shape) : Shape := s.bind f param

@[simp] theorem subst_var (f : Int → Shape) (i : Int) : (var i).subst f = f i := rfl

@[simp] theorem subst_param (f : Int → Shape) (i : Int) : (param i).subst f = param i := rfl

@[simp] theorem subst_node (f : Int → Shape) (h : ShapeHead) (ps : List Shape) :
    (node h ps).subst f = node h (ps.map (subst f)) := bind_node f param h ps

/-- One variable at a shape, the others at themselves. -/
def single (v : Int) (u : Shape) (i : Int) : Shape := if i = v then u else var i

mutual
/-- What variables and parameters contribute, from left to right. -/
def collect (f g : Int → List Int) : Shape → List Int
  | var i => f i
  | param i => g i
  | node _ ps => collectAll f g ps

def collectAll (f g : Int → List Int) : List Shape → List Int
  | [] => []
  | p :: ps => collect f g p ++ collectAll f g ps
end

theorem collectAll_eq_flatMap (f g : Int → List Int) (ps : List Shape) :
    collectAll f g ps = ps.flatMap (collect f g) := by
  induction ps with
  | nil => rfl
  | cons p ps ih => rw [collectAll, ih, List.flatMap_cons]

@[simp] theorem collect_var (f g : Int → List Int) (i : Int) : (var i).collect f g = f i := rfl

@[simp] theorem collect_param (f g : Int → List Int) (i : Int) : (param i).collect f g = g i := rfl

@[simp] theorem collect_node (f g : Int → List Int) (h : ShapeHead) (ps : List Shape) :
    (node h ps).collect f g = ps.flatMap (collect f g) := by
  rw [collect, collectAll_eq_flatMap]

/-- The ids of the variables, an entry for each occurrence. -/
def vars : Shape → List Int := collect (fun i => [i]) fun _ => []

/-- The ids of the parameters, an entry for each occurrence. -/
def params : Shape → List Int := collect (fun _ => []) fun i => [i]

@[simp] theorem vars_var (i : Int) : (var i).vars = [i] := rfl

@[simp] theorem vars_param (i : Int) : (param i).vars = [] := rfl

@[simp] theorem vars_node (h : ShapeHead) (ps : List Shape) :
    (node h ps).vars = ps.flatMap vars := collect_node _ _ h ps

@[simp] theorem params_var (i : Int) : (var i).params = [] := rfl

@[simp] theorem params_param (i : Int) : (param i).params = [i] := rfl

@[simp] theorem params_node (h : ShapeHead) (ps : List Shape) :
    (node h ps).params = ps.flatMap params := collect_node _ _ h ps

mutual
/-- The number of nodes. -/
def size : Shape → Nat
  | var _ | param _ => 1
  | node _ ps => 1 + sizeAll ps

def sizeAll : List Shape → Nat
  | [] => 0
  | p :: ps => size p + sizeAll ps
end

theorem size_le_sizeAll {p : Shape} {ps : List Shape} (h : p ∈ ps) : p.size ≤ sizeAll ps := by
  induction ps with
  | nil => simp at h
  | cons q qs ih =>
    rw [sizeAll]
    rcases List.mem_cons.mp h with rfl | h
    · omega
    · have := ih h
      omega

/-! ## Substitution on shapes -/

theorem bind_congr {f f' g g' : Int → Shape} {s : Shape} (hf : ∀ i ∈ s.vars, f i = f' i)
    (hg : ∀ i ∈ s.params, g i = g' i) : s.bind f g = s.bind f' g' := by
  induction s using Shape.induct with
  | var i => exact hf i (by simp)
  | param i => exact hg i (by simp)
  | node h ps ih =>
    rw [bind_node, bind_node]
    congr 1
    refine List.map_congr_left fun p hp => ih p hp (fun i hi => hf i ?_) fun i hi => hg i ?_
    · rw [vars_node]
      exact List.mem_flatMap_of_mem hp hi
    · rw [params_node]
      exact List.mem_flatMap_of_mem hp hi

theorem subst_congr {f f' : Int → Shape} {s : Shape} (h : ∀ i ∈ s.vars, f i = f' i) :
    s.subst f = s.subst f' := bind_congr h fun _ _ => rfl

theorem bind_bind (f g f' g' : Int → Shape) (s : Shape) :
    (s.bind f g).bind f' g' = s.bind (fun i => (f i).bind f' g') fun i => (g i).bind f' g' := by
  induction s using Shape.induct with
  | var i => rfl
  | param i => rfl
  | node h ps ih =>
    rw [bind_node, bind_node, bind_node, List.map_map]
    congr 1
    exact List.map_congr_left fun p hp => ih p hp

theorem subst_subst (f f' : Int → Shape) (s : Shape) :
    (s.subst f).subst f' = s.subst fun i => (f i).subst f' := bind_bind f param f' param s

theorem bind_self (s : Shape) : s.bind var param = s := by
  induction s using Shape.induct with
  | var i => rfl
  | param i => rfl
  | node h ps ih =>
    rw [bind_node]
    congr 1
    have hid : ps.map (bind var param) = ps.map id := List.map_congr_left ih
    rw [hid, List.map_id]

@[simp] theorem subst_self (s : Shape) : s.subst var = s := bind_self s

theorem subst_eq_self {f : Int → Shape} {s : Shape} (h : ∀ i ∈ s.vars, f i = var i) :
    s.subst f = s := (subst_congr h).trans (subst_self s)

theorem mem_collect_bind {a b : Int → List Int} {f g : Int → Shape} {s : Shape} {x : Int} :
    x ∈ (s.bind f g).collect a b ↔
      (∃ j ∈ s.vars, x ∈ (f j).collect a b) ∨ ∃ j ∈ s.params, x ∈ (g j).collect a b := by
  induction s using Shape.induct with
  | var j => simp
  | param j => simp
  | node h ps ih =>
    rw [bind_node, collect_node, vars_node, params_node, List.flatMap_map]
    simp only [List.mem_flatMap]
    constructor
    · rintro ⟨p, hp, hx⟩
      rcases (ih p hp).mp hx with ⟨j, hj, hx⟩ | ⟨j, hj, hx⟩
      · exact Or.inl ⟨j, ⟨p, hp, hj⟩, hx⟩
      · exact Or.inr ⟨j, ⟨p, hp, hj⟩, hx⟩
    · rintro (⟨j, ⟨p, hp, hj⟩, hx⟩ | ⟨j, ⟨p, hp, hj⟩, hx⟩)
      · exact ⟨p, hp, (ih p hp).mpr (Or.inl ⟨j, hj, hx⟩)⟩
      · exact ⟨p, hp, (ih p hp).mpr (Or.inr ⟨j, hj, hx⟩)⟩

theorem mem_vars_bind {f g : Int → Shape} {s : Shape} {i : Int} :
    i ∈ (s.bind f g).vars ↔
      (∃ j ∈ s.vars, i ∈ (f j).vars) ∨ ∃ j ∈ s.params, i ∈ (g j).vars := mem_collect_bind

theorem mem_params_bind {f g : Int → Shape} {s : Shape} {i : Int} :
    i ∈ (s.bind f g).params ↔
      (∃ j ∈ s.vars, i ∈ (f j).params) ∨ ∃ j ∈ s.params, i ∈ (g j).params := mem_collect_bind

theorem mem_vars_subst {f : Int → Shape} {s : Shape} {i : Int} :
    i ∈ (s.subst f).vars ↔ ∃ j ∈ s.vars, i ∈ (f j).vars := by
  rw [subst, mem_vars_bind]
  simp

theorem mem_params_subst {f : Int → Shape} {s : Shape} {i : Int} :
    i ∈ (s.subst f).params ↔ (∃ j ∈ s.vars, i ∈ (f j).params) ∨ i ∈ s.params := by
  rw [subst, mem_params_bind]
  simp

theorem size_le_size_subst {f : Int → Shape} {s : Shape} {i : Int} (h : i ∈ s.vars) :
    (f i).size ≤ (s.subst f).size := by
  induction s using Shape.induct with
  | var j =>
    simp only [vars_var, List.mem_singleton] at h
    subst h
    exact Nat.le_refl _
  | param j => simp at h
  | node hd ps ih =>
    rw [vars_node] at h
    obtain ⟨p, hp, hi⟩ := List.mem_flatMap.mp h
    have hle := ih p hp hi
    have hmem : p.subst f ∈ ps.map (subst f) := List.mem_map_of_mem hp
    have := size_le_sizeAll hmem
    rw [subst_node, size]
    omega

/-- A variable below a constructor cannot become equal to the whole. -/
theorem subst_ne_of_mem_vars {f : Int → Shape} {h : ShapeHead} {ps : List Shape} {i : Int}
    (hi : i ∈ (node h ps).vars) : f i ≠ (node h ps).subst f := by
  intro heq
  rw [vars_node] at hi
  obtain ⟨p, hp, hi⟩ := List.mem_flatMap.mp hi
  have hle := size_le_size_subst (f := f) hi
  have hmem : p.subst f ∈ ps.map (subst f) := List.mem_map_of_mem hp
  have hall := size_le_sizeAll hmem
  have hsize : (f i).size = 1 + sizeAll (ps.map (subst f)) := by
    rw [heq, subst_node, size]
  omega

end Shape

/-! ## The shape of a type -/

namespace Ty

mutual
def shape : Ty → Shape
  | free v => .var v.id
  | bound p => .param p.id
  | con c args => .node (.con c.key) (shapeList args)
  | record fields => .node (.record (Table.keys fields)) (shapeFields fields)
  | synonym _ _ body => shape body
  | newtype n _ _ args => .node (.newtype n.id) (shapeList args)

def shapeList : List Ty → List Shape
  | [] => []
  | t :: ts => shape t :: shapeList ts

def shapeFields : List (String × Ty) → List Shape
  | [] => []
  | (_, t) :: fs => shape t :: shapeFields fs
end

theorem shapeList_eq_map (ts : List Ty) : shapeList ts = ts.map shape := by
  induction ts with
  | nil => rfl
  | cons t ts ih => rw [shapeList, ih, List.map_cons]

theorem shapeFields_eq_map (fs : List (String × Ty)) :
    shapeFields fs = fs.map fun e => e.2.shape := by
  induction fs with
  | nil => rfl
  | cons e fs ih => rw [shapeFields, ih, List.map_cons]

@[simp] theorem shape_free (v : TyVar) : (free v).shape = .var v.id := rfl

@[simp] theorem shape_bound (p : Param) : (bound p).shape = .param p.id := rfl

@[simp] theorem shape_con (c : Con) (args : List Ty) :
    (con c args).shape = .node (.con c.key) (args.map shape) := by
  rw [shape, shapeList_eq_map]

@[simp] theorem shape_record (fs : List (String × Ty)) :
    (record fs).shape = .node (.record (fs.map Prod.fst)) (fs.map fun e => e.2.shape) := by
  rw [shape, shapeFields_eq_map]
  rfl

@[simp] theorem shape_synonym (n : Name) (args : List Ty) (body : Ty) :
    (synonym n args body).shape = body.shape := rfl

@[simp] theorem shape_newtype (n : Name) (ps : List Param) (fs : List (String × Ty))
    (args : List Ty) : (newtype n ps fs args).shape = .node (.newtype n.id) (args.map shape) := by
  rw [shape, shapeList_eq_map]

theorem shape_expand : ∀ t : Ty, t.expand.shape = t.shape
  | free _ | bound _ | con _ _ | record _ | newtype _ _ _ _ => rfl
  | synonym _ _ body => shape_expand body

theorem expand_ne_synonym {n : Name} {args : List Ty} {body : Ty} :
    ∀ {t : Ty}, t.expand ≠ synonym n args body
  | free _ => nofun
  | bound _ => nofun
  | con _ _ => nofun
  | record _ => nofun
  | newtype _ _ _ _ => nofun
  | synonym _ _ inner => expand_ne_synonym (t := inner)

mutual
theorem same_iff_shape : ∀ a b : Ty, a.same b = true ↔ a.shape = b.shape
  | free v, b => by
    rw [same, ← shape_expand b]
    cases hb : b.expand with
    | synonym n args body => exact absurd hb expand_ne_synonym
    | _ => simp
  | bound p, b => by
    rw [same, ← shape_expand b]
    cases hb : b.expand with
    | synonym n args body => exact absurd hb expand_ne_synonym
    | _ => simp
  | con c as, b => by
    rw [same, ← shape_expand b]
    cases hb : b.expand with
    | synonym n args body => exact absurd hb expand_ne_synonym
    | con d bs => simp [sameList_iff_shape as bs, Con.same_iff_key]
    | _ => simp
  | newtype n _ _ as, b => by
    rw [same, ← shape_expand b]
    cases hb : b.expand with
    | synonym n args body => exact absurd hb expand_ne_synonym
    | newtype m _ _ bs => simp [sameList_iff_shape as bs]
    | _ => simp
  | record fs, b => by
    rw [same, ← shape_expand b]
    cases hb : b.expand with
    | synonym n args body => exact absurd hb expand_ne_synonym
    | record gs => simp [sameFields_iff_shape fs gs]
    | _ => simp
  | synonym _ _ body, b => by
    rw [same, shape_synonym]
    exact same_iff_shape body b

theorem sameList_iff_shape : ∀ as bs : List Ty,
    sameList as bs = true ↔ as.map shape = bs.map shape
  | [], [] => by simp [sameList]
  | [], _ :: _ => by simp [sameList]
  | _ :: _, [] => by simp [sameList]
  | a :: as, b :: bs => by
    simp [sameList, same_iff_shape a b, sameList_iff_shape as bs]

theorem sameFields_iff_shape : ∀ fs gs : List (String × Ty),
    sameFields fs gs = true ↔ fs.map Prod.fst = gs.map Prod.fst ∧
      (fs.map fun e => e.2.shape) = gs.map fun e => e.2.shape
  | [], [] => by simp [sameFields]
  | [], _ :: _ => by simp [sameFields]
  | _ :: _, [] => by simp [sameFields]
  | (l, t) :: fs, (m, u) :: gs => by
    simp only [sameFields, Bool.and_eq_true, beq_iff_eq, same_iff_shape t u,
      sameFields_iff_shape fs gs, List.map_cons, List.cons.injEq]
    exact ⟨fun ⟨⟨hl, ht⟩, hls, hts⟩ => ⟨⟨hl, hls⟩, ht, hts⟩,
      fun ⟨⟨hl, hls⟩, ht, hts⟩ => ⟨⟨hl, ht⟩, hls, hts⟩⟩
end

/-! ## Variables, parameters and substitution through shapes -/

theorem varIds_eq_shape (t : Ty) : t.varIds = t.shape.vars := by
  induction t using Ty.induct with
  | free v => rfl
  | bound p => rfl
  | con c args ih =>
    rw [shape_con, Shape.vars_node, List.flatMap_map, varIds, vars, varsList_eq_flatMap,
      List.map_flatMap]
    exact List.flatMap_congr ih
  | record fs ih =>
    rw [shape_record, Shape.vars_node, List.flatMap_map, varIds, vars, varsFields_eq_flatMap,
      List.map_flatMap]
    exact List.flatMap_congr ih
  | synonym n args body _ ih => exact ih
  | newtype n ps fs args ih =>
    rw [shape_newtype, Shape.vars_node, List.flatMap_map, varIds, vars, varsList_eq_flatMap,
      List.map_flatMap]
    exact List.flatMap_congr ih

theorem paramIds_eq_shape (t : Ty) : t.params.map Param.id = t.shape.params := by
  induction t using Ty.induct with
  | free v => rfl
  | bound p => rfl
  | con c args ih =>
    rw [shape_con, Shape.params_node, List.flatMap_map, params, paramsList_eq_flatMap,
      List.map_flatMap]
    exact List.flatMap_congr ih
  | record fs ih =>
    rw [shape_record, Shape.params_node, List.flatMap_map, params, paramsFields_eq_flatMap,
      List.map_flatMap]
    exact List.flatMap_congr ih
  | synonym n args body _ ih => exact ih
  | newtype n ps fs args ih =>
    rw [shape_newtype, Shape.params_node, List.flatMap_map, params, paramsList_eq_flatMap,
      List.map_flatMap]
    exact List.flatMap_congr ih

theorem vars_bind (f : TyVar → Ty) (t : Ty) :
    (t.bind f bound).vars = t.vars.flatMap fun v => (f v).vars := by
  induction t using Ty.induct with
  | free v => simp [bind, vars]
  | bound p => rfl
  | con c args ih =>
    rw [bind, vars, vars, varsList_eq_flatMap, varsList_eq_flatMap, bindList_eq_map,
      List.flatMap_map, List.flatMap_assoc]
    exact List.flatMap_congr ih
  | record fs ih =>
    rw [bind, vars, vars, varsFields_eq_flatMap, varsFields_eq_flatMap, bindFields_eq_map,
      List.flatMap_map, List.flatMap_assoc]
    exact List.flatMap_congr ih
  | synonym n args body _ ih => exact ih
  | newtype n ps fs args ih =>
    rw [bind, vars, vars, varsList_eq_flatMap, varsList_eq_flatMap, bindList_eq_map,
      List.flatMap_map, List.flatMap_assoc]
    exact List.flatMap_congr ih

theorem vars_replace_of_not_mem {t u : Ty} {v : Int} (h : v ∉ t.varIds) :
    (t.replace v u).vars = t.vars := by
  rw [replace, vars_bind]
  have hself : ∀ w ∈ t.vars, (if w.id = v then u else free w).vars = [w] := by
    intro w hw
    have hid : w.id ≠ v := fun hid => h (hid ▸ List.mem_map_of_mem hw)
    rw [if_neg hid]
    rfl
  rw [List.flatMap_congr hself, List.flatMap_singleton']

theorem mem_varIds_of_mem_vars {v : TyVar} {t : Ty} (h : v ∈ t.vars) : v.id ∈ t.varIds :=
  List.mem_map_of_mem h

theorem occurs_iff_shape {v : Int} {t : Ty} : t.occurs v = true ↔ v ∈ t.shape.vars := by
  rw [occurs, List.contains_iff_mem, varIds_eq_shape]

/-- A substitution by ids acts on shapes. -/
theorem shape_bind {onFree : TyVar → Ty} {onBound : Param → Ty} {f g : Int → Shape}
    (hf : ∀ v, (onFree v).shape = f v.id) (hg : ∀ p, (onBound p).shape = g p.id) (t : Ty) :
    (t.bind onFree onBound).shape = t.shape.bind f g := by
  induction t using Ty.induct with
  | free v => exact hf v
  | bound p => exact hg p
  | con c args ih =>
    rw [bind, shape_con, shape_con, Shape.bind_node, bindList_eq_map, List.map_map, List.map_map]
    congr 1
    exact List.map_congr_left ih
  | record fs ih =>
    rw [bind, shape_record, shape_record, Shape.bind_node, bindFields_eq_map, List.map_map,
      List.map_map, List.map_map]
    congr 1
    exact List.map_congr_left ih
  | synonym n args body _ ih => exact ih
  | newtype n ps fs args ih =>
    rw [bind, shape_newtype, shape_newtype, Shape.bind_node, bindList_eq_map, List.map_map,
      List.map_map]
    congr 1
    exact List.map_congr_left ih

/-- Put `σ i` in place of the variable with the id `i`. -/
def substitute (t : Ty) (σ : Int → Ty) : Ty := t.bind (fun v => σ v.id) bound

theorem shape_substitute (t : Ty) (σ : Int → Ty) :
    (t.substitute σ).shape = t.shape.subst fun i => (σ i).shape :=
  shape_bind (fun _ => rfl) (fun _ => rfl) t

theorem shape_instantiate (t : Ty) (m : Table Int Ty) :
    (t.instantiate m).shape = t.shape.bind .var fun i => ((m.find? i).map shape).getD (.param i) := by
  refine shape_bind (fun _ => rfl) (fun p => ?_) t
  cases m.find? p.id with
  | none => rfl
  | some u => rfl

theorem shape_replace (t : Ty) (v : Int) (u : Ty) :
    (t.replace v u).shape = t.shape.subst (Shape.single v u.shape) := by
  refine shape_bind (fun w => ?_) (fun _ => rfl) t
  by_cases h : w.id = v
  · simp [Shape.single, h]
  · simp [Shape.single, h]

end Ty

/-! ## Shapes up to equations -/

namespace Shape

/-- An equivalence of shapes that constructors respect. -/
structure Congruence (R : Shape → Shape → Prop) : Prop where
  refl : ∀ a, R a a
  symm : ∀ {a b}, R a b → R b a
  trans : ∀ {a b c}, R a b → R b c → R a c
  node : ∀ {h ps qs}, List.Forall₂ R ps qs → R (.node h ps) (.node h qs)

theorem congruence_eq : Congruence Eq where
  refl _ := rfl
  symm h := h.symm
  trans h h' := h.trans h'
  node h := by
    rw [List.forall₂_eq_eq_eq] at h
    rw [h]

namespace Congruence

variable {R : Shape → Shape → Prop}

theorem of_eq (hR : Congruence R) {a b : Shape} (h : a = b) : R a b := h ▸ hR.refl a

theorem node_two (hR : Congruence R) {h : ShapeHead} {a b c d : Shape} (hab : R a b)
    (hcd : R c d) : R (.node h [a, c]) (.node h [b, d]) := hR.node (.cons hab (.cons hcd .nil))

end Congruence

/-- The least congruence that holds of the equations. -/
inductive Conv (eqs : Shape → Shape → Prop) : Shape → Shape → Prop
  | eq {a b : Shape} : eqs a b → Conv eqs a b
  | refl (a : Shape) : Conv eqs a a
  | symm {a b : Shape} : Conv eqs a b → Conv eqs b a
  | trans {a b c : Shape} : Conv eqs a b → Conv eqs b c → Conv eqs a c
  | part {a b : Shape} (h : ShapeHead) (before after : List Shape) : Conv eqs a b →
      Conv eqs (.node h (before ++ a :: after)) (.node h (before ++ b :: after))

theorem conv_congruence (eqs : Shape → Shape → Prop) : Congruence (Conv eqs) where
  refl := .refl
  symm := .symm
  trans := .trans
  node := by
    intro h ps qs hpq
    -- one part after the other is exchanged; those before it are done
    have key : ∀ before, Conv eqs (.node h (before ++ ps)) (.node h (before ++ qs)) := by
      induction hpq with
      | nil => exact fun before => .refl _
      | @cons p q ps qs hp _ ih =>
        intro before
        have hrest := ih (before ++ [q])
        rw [List.append_assoc, List.append_assoc] at hrest
        exact .trans (.part h before ps hp) hrest
    exact key []

end Shape
end SizedTypes
