import Mathlib.Data.Set.Card
import SizedTypes.Prelude
import SizedTypes.Proofs.Simplify.WithinWords
import SizedTypes.Proofs.Ty.WellFormed

/-!
# The lengths of enumerations

An enumeration of finitely many sizes, or of all sizes from one on, is a call of a primitive of
the prelude. Its schema gives a length, and its predicates are there to keep the length defined.
The length is the number of elements of the arithmetic progression that is enumerated, at all
arguments that the predicates admit, with one exception: they let an infinite bound through to a
quotient that has no value there.
-/

set_option autoImplicit false

namespace SizedTypes

/-! ## Progressions -/

/-- The sizes in `f`, `f + s`, `f + 2 * s` and so on of which `P` holds. -/
def ascending (f s : ℕ∞) (P : ℕ∞ → Prop) : Set ℕ := {n | ∃ k : ℕ, (n : ℕ∞) = f + k * s ∧ P n}

/-- The sizes in `f`, `f - s`, `f - 2 * s` and so on of which `P` holds. -/
def descending (f s : ℕ∞) (P : ℕ∞ → Prop) : Set ℕ := {n | ∃ k : ℕ, (n : ℕ∞) + k * s = f ∧ P n}

section Counting

variable {f s : ℕ} {P : ℕ∞ → Prop} {c : ℕ∞}

theorem encard_setOf_lt (c : ℕ∞) : {k : ℕ | (k : ℕ∞) < c}.encard = c := by
  cases c with
  | top => simp
  | coe c =>
    have hrange : {k : ℕ | (k : ℕ∞) < c} = (Finset.range c : Set ℕ) := by
      ext k
      simp
    rw [hrange, Set.encard_coe_eq_coe_finsetCard, Finset.card_range]

/-- A progression upward has as many elements as steps from its first one are admitted. -/
theorem encard_ascending (hs : 0 < s) (h : ∀ k : ℕ, P (f + k * s : ℕ) ↔ (k : ℕ∞) < c) :
    (ascending f s P).encard = c := by
  have himage : ascending f s P = (fun k : ℕ => f + k * s) '' {k | (k : ℕ∞) < c} := by
    ext n
    simp only [ascending, Set.mem_ofPred_eq, Set.mem_image, ← h]
    constructor
    · rintro ⟨k, hn, hP⟩
      obtain rfl : n = f + k * s := by exact_mod_cast hn
      exact ⟨k, hP, rfl⟩
    · rintro ⟨k, hP, rfl⟩
      exact ⟨k, by push_cast; rfl, hP⟩
  have hinj : Function.Injective fun k : ℕ => f + k * s := fun a b hab =>
    Nat.eq_of_mul_eq_mul_right hs (Nat.add_left_cancel hab)
  rw [himage, hinj.encard_image, encard_setOf_lt]

/-- A progression downward has as many elements as steps from its first one are admitted. -/
theorem encard_descending (hs : 0 < s)
    (h : ∀ k : ℕ, (k * s ≤ f ∧ P (f - k * s : ℕ)) ↔ (k : ℕ∞) < c) :
    (descending f s P).encard = c := by
  have himage : descending f s P = (fun k : ℕ => f - k * s) '' {k | (k : ℕ∞) < c} := by
    ext n
    simp only [descending, Set.mem_ofPred_eq, Set.mem_image, ← h]
    constructor
    · rintro ⟨k, hn, hP⟩
      have hf : n + k * s = f := by exact_mod_cast hn
      obtain rfl : n = f - k * s := by omega
      exact ⟨k, ⟨by omega, hP⟩, rfl⟩
    · rintro ⟨k, ⟨hle, hP⟩, rfl⟩
      exact ⟨k, by exact_mod_cast Nat.sub_add_cancel hle, hP⟩
  have hinj : Set.InjOn (fun k : ℕ => f - k * s) {k | (k : ℕ∞) < c} := by
    intro a ha b hb hab
    have hale := ((h a).mpr ha).1
    have hble := ((h b).mpr hb).1
    refine Nat.eq_of_mul_eq_mul_right hs ?_
    simp only at hab
    omega
  rw [himage, hinj.encard_image, encard_setOf_lt]

/-- Steps that stay within a distance. -/
theorem lt_div_add_one_iff {k d : ℕ} (hs : 0 < s) : k < d / s + 1 ↔ k * s ≤ d := by
  rw [Nat.lt_succ_iff, Nat.le_div_iff_mul_le hs]

/-- Steps that stay short of a distance. -/
theorem lt_ceilDiv_iff {k d : ℕ} (hs : 0 < s) : k < (d + s - 1) / s ↔ k * s < d := by
  rw [← Nat.succ_le_iff, Nat.le_div_iff_mul_le hs, Nat.succ_mul]
  omega

/-- The elements up to a last one, from the first two. -/
theorem encard_upTo {n l : ℕ} (h : f < n) :
    (ascending f (n - f : ℕ) (· ≤ l)).encard =
      (if l < f then 0 else (l - f) / (n - f) + 1 : ℕ) := by
  refine encard_ascending (by omega) fun k => ?_
  rw [Nat.cast_le, Nat.cast_lt]
  split
  · omega
  · rw [lt_div_add_one_iff (by omega)]
    omega

/-- The elements down to a last one, from the first two. -/
theorem encard_downTo {n l : ℕ} (h : n < f) :
    (descending f (f - n : ℕ) (l ≤ ·)).encard =
      (if f < l then 0 else (f - l) / (f - n) + 1 : ℕ) := by
  refine encard_descending (by omega) fun k => ?_
  rw [Nat.cast_le, Nat.cast_lt]
  split
  · omega
  · rw [lt_div_add_one_iff (by omega)]
    omega

end Counting

/-! ## The forms of enumerations -/

/-- The enumerations by the primitives that they call, apart from those without a last element. -/
inductive EnumerationForm where
  | fromTo
  | fromToLessThan
  | fromThenTo
  | fromToBy
  | fromToByLessThan
  | fromToDownBy
  | fromToDownByGreaterThan
deriving DecidableEq, Repr

namespace EnumerationForm

/-- The primitive that is called. -/
def ident : EnumerationForm → String
  | fromTo => "fromTo"
  | fromToLessThan => "fromToLessThan"
  | fromThenTo => "fromThenTo"
  | fromToBy => "fromToBy"
  | fromToByLessThan => "fromToByLessThan"
  | fromToDownBy => "fromToDownBy"
  | fromToDownByGreaterThan => "fromToDownByGreaterThan"

/-- What is enumerated, by the values of the arguments of the primitive. -/
def elements (x : String → ℕ∞) : EnumerationForm → Set ℕ
  | fromTo => ascending (x "first") 1 (· ≤ x "last")
  | fromToLessThan => ascending (x "first") 1 (· < x "bound")
  | fromThenTo =>
    if x "first" < x "next" then ascending (x "first") (x "next" - x "first") (· ≤ x "last")
    else descending (x "first") (x "first" - x "next") (x "last" ≤ ·)
  | fromToBy => ascending (x "first") (x "stride") (· ≤ x "last")
  | fromToByLessThan => ascending (x "first") (x "stride") (· < x "bound")
  | fromToDownBy => descending (x "first") (x "stride") (x "last" ≤ ·)
  | fromToDownByGreaterThan => descending (x "first") (x "stride") (x "bound" < ·)

end EnumerationForm

/-! ## Schemas of primitives at arguments -/

/-- The length of the sequences of type `t`. A size that a predicate equates with it stands for
it. -/
def Ty.sequenceLength (t : Ty) (props : List Ty) : Option Ty :=
  t.asSeq?.map fun r =>
    (((props.filterMap (asCompare? .equal)).find? fun e => e.2.same r.1).map Prod.fst).getD r.1

theorem Ty.sequenceLength_of_equal {props : List Ty} {t n a l : Ty} (ht : t.asSeq? = some (n, a))
    (h : props.filterMap (asCompare? .equal) = [(l, n)]) : t.sequenceLength props = some l := by
  have hsame : n.same n = true := (same_iff_shape n n).mpr rfl
  simp [sequenceLength, ht, h, hsame]

namespace Primitive

/-- Sizes for the parameters that are sizes, and a type of elements for the others. -/
def argument (σ : String → Size) (elem : Ty) (q : String × Kind) : Ty :=
  if q.2 = .num then (σ q.1).toTy else elem

def arguments (p : Primitive) (σ : String → Size) (elem : Ty) : List Ty :=
  p.params.map (argument σ elem)

/-- The argument for a parameter, by its identifier. -/
def argumentOf (p : Primitive) (σ : String → Size) (elem : Ty) (ident : String) : Ty :=
  ((p.params.find? fun q => q.1 == ident).map (argument σ elem)).getD default

/-- The parameter that gets the number at a position. -/
def numberedParam (next : Int) (e : (String × Kind) × ℕ) : Param :=
  let id := Word.add next e.2
  { id, kind := e.1.2, name := some { id, ident := e.1.1, space := .type, system := true } }

theorem numbered_eq_map (ps : List (String × Kind)) (next : Int) :
    numbered ps next = ps.zipIdx.map (numberedParam next) :=
  rfl

/-- The parameter with an identifier, as a type. -/
def paramOf (p : Primitive) (next : Int) (ident : String) : Ty :=
  (((numbered p.params next).find? fun q => q.display == ident).map .bound).getD default

/-- A schema is the type of the primitive at its own parameters. -/
theorem schema_eq (p : Primitive) (next : Int) :
    p.schema next =
      { params := numbered p.params next
        props := (p.type (p.paramOf next)).1
        body := (p.type (p.paramOf next)).2 } :=
  rfl

/-- Predicates and type of a primitive do nothing with the types for its parameters but mention
them. -/
theorem type_bind {p : Primitive} (h : p ∈ all) (f : TyVar → Ty) (g : Param → Ty)
    (v : String → Ty) :
    p.type (fun i => (v i).bind f g) =
      ((p.type v).1.map (Ty.bind f g), (p.type v).2.bind f g) := by
  simp only [all, List.mem_cons, List.not_mem_nil, or_false] at h
  rcases h with rfl | rfl | rfl | rfl | rfl | rfl | rfl | rfl | rfl | rfl | rfl | rfl | rfl | rfl |
    rfl | rfl | rfl <;> rfl

theorem add_natCast_inj {a : Int} {i j : ℕ} (hi : i < 2 ^ 64) (hj : j < 2 ^ 64)
    (h : Word.add a i = Word.add a j) : i = j := by
  have hmod : (a + i) % ((18446744073709551616 : ℕ) : Int) =
      (a + j) % ((18446744073709551616 : ℕ) : Int) := by
    rw [← Int.bmod_emod, ← Int.bmod_emod (x := a + j)]
    exact congrArg (· % _) h
  omega

theorem nodup_ids_numbered {ps : List (String × Kind)} (h : ps.length ≤ 2 ^ 64) (next : Int) :
    ((numbered ps next).map Param.id).Nodup := by
  have hids : (numbered ps next).map Param.id =
      (List.range' 0 ps.length).map fun i => Word.add next (i : ℕ) := by
    rw [numbered, List.map_map, ← List.zipIdx_map_snd, List.map_map]
    rfl
  rw [hids]
  refine List.Nodup.map_on ?_ List.nodup_range'
  intro i hi j hj hij
  simp only [List.mem_range'_1] at hi hj
  exact add_natCast_inj (by omega) (by omega) hij

/-- At arguments, a parameter stands for the argument with its identifier. -/
theorem instantiate_paramOf {p : Primitive} (h : p.params.length ≤ 2 ^ 64) (next : Int)
    (σ : String → Size) (elem : Ty) (ident : String) :
    (p.paramOf next ident).instantiate
        (Schema.assignment (numbered p.params next) (p.arguments σ elem)) =
      p.argumentOf σ elem ident := by
  have hvar : p.paramOf next ident =
      (((p.params.zipIdx.find? fun e => e.1.1 == ident).map (numberedParam next)).map .bound).getD
        default :=
    congrArg (fun o : Option Param => (o.map Ty.bound).getD default) List.find?_map
  have harg : p.params.find? (fun q => q.1 == ident) =
      (p.params.zipIdx.find? fun e => e.1.1 == ident).map Prod.fst := by
    conv_lhs => rw [← List.zipIdx_map_fst 0 p.params]
    exact List.find?_map
  rw [hvar, argumentOf, harg]
  cases hfind : p.params.zipIdx.find? fun e => e.1.1 == ident with
  | none => rfl
  | some e =>
    have hzip : (numberedParam next e, argument σ elem e.1) ∈
        (numbered p.params next).zip (p.arguments σ elem) := by
      have hargs : p.arguments σ elem = p.params.zipIdx.map fun e => argument σ elem e.1 := by
        conv_lhs => rw [arguments, ← List.zipIdx_map_fst 0 p.params, List.map_map]
        rfl
      rw [numbered_eq_map, hargs, List.zip_map']
      exact List.mem_map_of_mem (List.mem_of_find?_eq_some hfind)
    have hlen : (numbered p.params next).length ≤ (p.arguments σ elem).length := by
      simp [numbered, arguments]
    simp only [Option.map_some, Option.getD_some, Ty.instantiate, Ty.bind,
      Ty.find?_assignment_of_mem (nodup_ids_numbered h next) hlen hzip]

/-- Predicates and type of a primitive at arguments. -/
theorem instantiate_schema {p : Primitive} (h : p ∈ all) (next : Int) (σ : String → Size)
    (elem : Ty) :
    (p.schema next).instantiate (p.arguments σ elem) = p.type (p.argumentOf σ elem) := by
  have hlen : p.params.length ≤ 2 ^ 64 := by
    have : ∀ q ∈ all, q.params.length ≤ 5 := by decide
    have := this p h
    omega
  have hargs := funext (instantiate_paramOf hlen next σ elem)
  rw [← hargs, schema_eq]
  exact (type_bind h Ty.free _ _).symm

end Primitive

/-! ## Conditions and lengths -/

namespace EnumerationForm

/-- What the predicates of the primitive say about the values of its arguments. -/
def Admits (x : String → ℕ∞) : EnumerationForm → Prop
  | fromTo => x "last" ≠ ⊤ ∧ x "first" ≤ x "last"
  | fromToLessThan => x "first" ≠ ⊤ ∧ x "first" ≤ x "bound"
  | fromThenTo => x "first" ≠ ⊤ ∧ x "next" ≠ ⊤ ∧ x "last" ≠ ⊤ ∧ x "first" ≠ x "next"
  | fromToBy => x "last" ≠ ⊤ ∧ x "stride" ≠ ⊤ ∧ 1 ≤ x "stride" ∧ x "first" ≤ x "last"
  | fromToByLessThan => x "first" ≠ ⊤ ∧ x "stride" ≠ ⊤ ∧ 1 ≤ x "stride" ∧ x "first" ≤ x "bound"
  | fromToDownBy => x "first" ≠ ⊤ ∧ x "stride" ≠ ⊤ ∧ 1 ≤ x "stride" ∧ x "last" ≤ x "first"
  | fromToDownByGreaterThan =>
    x "first" ≠ ⊤ ∧ x "stride" ≠ ⊤ ∧ 1 ≤ x "stride" ∧ x "bound" ≤ x "first"

/-- The length in the schema of the primitive, at types for its parameters. -/
def length (v : String → Ty) : EnumerationForm → Ty
  | fromTo => .op .add [.num 1, .op .sub [v "last", v "first"]]
  | fromToLessThan => .op .sub [v "bound", v "first"]
  | fromThenTo => .op .lengthFromThenTo [v "first", v "next", v "last"]
  | fromToBy => .op .add [.num 1, .op .div [.op .sub [v "last", v "first"], v "stride"]]
  | fromToByLessThan => .op .ceilDiv [.op .sub [v "bound", v "first"], v "stride"]
  | fromToDownBy => .op .add [.num 1, .op .div [.op .sub [v "first", v "last"], v "stride"]]
  | fromToDownByGreaterThan => .op .ceilDiv [.op .sub [v "first", v "bound"], v "stride"]

/-- A predicate on sizes that holds, or one that is not about values of sizes. The equation for the
length of `fromThenTo` is of the second sort: what it determines is the length itself. -/
def Granted (ρ : Valuation) (q : Ty) : Prop := q.Defined ρ → q.Holds ρ

variable {ρ : Valuation} {props : List Ty} {σ : String → Size} {x : String → ℕ∞}

theorem granted_iff {q : Ty} {P : Prop} (h : q.statement ρ = some P) : Granted ρ q ↔ P := by
  constructor
  · intro hq
    obtain ⟨Q, hQ, hholds⟩ := hq (by rw [Ty.Defined, h]; rfl)
    cases h.symm.trans hQ
    exact hholds
  · exact fun hP _ => ⟨P, h, hP⟩

theorem granted_fin_iff {s : Size} {m : ℕ∞} (hs : s.Denotes m) :
    Granted ρ (.fin s.toTy) ↔ m ≠ ⊤ :=
  granted_iff (by simp [Ty.fin, Ty.statement, Ty.value_toTy hs])

theorem granted_compare_iff {r : Comparison} {s t : Size} {m n : ℕ∞} (hs : s.Denotes m)
    (ht : t.Denotes n) : Granted ρ (.compare r s.toTy t.toTy) ↔ r.relates m n :=
  granted_iff (by simp [Ty.compare, Ty.statement, Ty.value_toTy hs, Ty.value_toTy ht])

theorem granted_cls (c : TyClass) (args : List Ty) : Granted ρ (.cls c args) := fun h => by
  simp [Ty.Defined, Ty.cls, Ty.statement] at h

/-- The primitive that is called, by its identifier. -/
theorem primitive_eq {e : EnumerationForm} {p : Primitive} (hp : p ∈ Primitive.all)
    (hid : p.ident = e.ident) : Primitive.all.find? (fun q => q.ident == e.ident) = some p := by
  simp only [Primitive.all, List.mem_cons, List.not_mem_nil, or_false] at hp
  rcases hp with rfl | rfl | rfl | rfl | rfl | rfl | rfl | rfl | rfl | rfl | rfl | rfl | rfl | rfl |
    rfl | rfl | rfl <;> cases e <;> first | rfl | exact absurd hid (by decide)

theorem admits_of_granted {e : EnumerationForm} {p : Primitive} (hp : p ∈ Primitive.all)
    (hid : p.ident = e.ident) (hσ : ∀ i, (σ i).Denotes (x i)) {elem : Ty}
    (h : ∀ q ∈ (p.type (p.argumentOf σ elem)).1, Granted ρ q) : e.Admits x := by
  have hfin : ∀ i n, (p.type (p.argumentOf σ elem)).1[n]? = some (Ty.fin (σ i).toTy) → x i ≠ ⊤ :=
    fun i n hn => (granted_fin_iff (hσ i)).mp (h _ (List.mem_of_getElem? hn))
  have hcompare : ∀ {r i j} n, (p.type (p.argumentOf σ elem)).1[n]? =
      some (Ty.compare r (σ i).toTy (σ j).toTy) → r.relates (x i) (x j) :=
    fun n hn => (granted_compare_iff (hσ _) (hσ _)).mp (h _ (List.mem_of_getElem? hn))
  have hone : ∀ i n, (p.type (p.argumentOf σ elem)).1[n]? =
      some (Ty.geq (σ i).toTy (.num 1)) → 1 ≤ x i :=
    fun i n hn => (granted_compare_iff (r := .geq) (hσ i) (.finite 1 (by decide))).mp
      (h _ (List.mem_of_getElem? hn))
  have hfind := primitive_eq hp hid
  cases e <;> cases hfind
  case fromTo => exact ⟨hfin "last" 0 rfl, hcompare (r := .geq) 1 rfl⟩
  case fromToLessThan => exact ⟨hfin "first" 0 rfl, hcompare (r := .geq) 1 rfl⟩
  case fromThenTo =>
    exact ⟨hfin "first" 0 rfl, hfin "next" 1 rfl, hfin "last" 2 rfl, hcompare (r := .neq) 6 rfl⟩
  case fromToBy =>
    exact ⟨hfin "last" 0 rfl, hfin "stride" 1 rfl, hone "stride" 2 rfl,
      hcompare (r := .geq) 3 rfl⟩
  case fromToByLessThan =>
    exact ⟨hfin "first" 0 rfl, hfin "stride" 1 rfl, hone "stride" 2 rfl,
      hcompare (r := .geq) 3 rfl⟩
  case fromToDownBy =>
    exact ⟨hfin "first" 0 rfl, hfin "stride" 1 rfl, hone "stride" 2 rfl,
      hcompare (r := .geq) 3 rfl⟩
  case fromToDownByGreaterThan =>
    exact ⟨hfin "first" 0 rfl, hfin "stride" 1 rfl, hone "stride" 2 rfl,
      hcompare (r := .geq) 3 rfl⟩

theorem sequenceLength_type {e : EnumerationForm} {p : Primitive} (hp : p ∈ Primitive.all)
    (hid : p.ident = e.ident) (elem : Ty) :
    (p.type (p.argumentOf σ elem)).2.sequenceLength (p.type (p.argumentOf σ elem)).1 =
      some (e.length fun i => (σ i).toTy) := by
  have hfind := primitive_eq hp hid
  cases e <;> cases hfind
  case fromThenTo => exact Ty.sequenceLength_of_equal (n := (σ "len").toTy) (a := elem) rfl rfl
  all_goals rfl

/-! ### Values -/

/-- A size evaluates to the word or infinity that stands for its value. -/
def Exact (t : Ty) (m : ℕ∞) : Prop := ∃ s, t.eval = some s ∧ s.Denotes m

theorem exact_finite {t : Ty} {n : ℕ} {m : ℕ∞} (h : t.eval = some (.finite n))
    (hn : (n : Int) ≤ Word.maxValue) (hm : m = n) : Exact t m :=
  ⟨.finite n, h, hm ▸ .finite n hn⟩

theorem eval_finite {s : Size} {m : ℕ∞} (hs : s.Denotes m) (hm : m ≠ ⊤) :
    ∃ n : ℕ, s.toTy.eval = some (.finite n) ∧ m = n ∧ (n : Int) ≤ Word.maxValue := by
  obtain ⟨n, rfl, rfl, hn⟩ := hs.exists_finite hm
  exact ⟨n, Ty.eval_toTy _, rfl, hn⟩

section Counted

variable {a b c : Ty} {m n s : ℕ}

/-- The number of steps to the last element, and the first one. -/
theorem eval_steps (ha : a.eval = some (.finite m)) (hb : b.eval = some (.finite n))
    (hc : c.eval = some (.finite s)) (hm : (m : Int) ≤ Word.maxValue) (hnm : n ≤ m) (hs : 0 < s)
    (hw : (Ty.op .add [.num 1, .op .div [.op .sub [a, b], c]]).WithinWords) :
    (Ty.op .add [.num 1, .op .div [.op .sub [a, b], c]]).eval =
        some (.finite ((m - n) / s + 1 : ℕ)) ∧
      (((m - n) / s + 1 : ℕ) : Int) ≤ Word.maxValue := by
  have hle : (m - n) / s ≤ m - n := Nat.div_le_self _ _
  have hsub : (Ty.op .sub [a, b]).eval = some (.finite (m - n : ℕ)) :=
    (Ty.eval_op (Ty.evalList_pair ha hb)).trans (Size.sub_finite hm hnm)
  have hdiv : (Ty.op .div [.op .sub [a, b], c]).eval = some (.finite ((m - n) / s : ℕ)) :=
    (Ty.eval_op (Ty.evalList_pair hsub hc)).trans (Size.divided_quot (by omega) (by omega))
  have hargs : Ty.evalList [.num 1, .op .div [.op .sub [a, b], c]] =
      some [.finite (1 : ℕ), .finite ((m - n) / s : ℕ)] :=
    Ty.evalList_pair rfl hdiv
  have hfits := hw.op_eval hargs
  rw [Ty.eval_op hargs, Nat.add_comm ((m - n) / s)]
  exact ⟨Size.add_finite (by omega) hfits, hfits.2⟩

/-- The number of steps short of a bound. -/
theorem eval_stepsShort (ha : a.eval = some (.finite m)) (hb : b.eval = some (.finite n))
    (hc : c.eval = some (.finite s)) (hm : (m : Int) ≤ Word.maxValue) (hnm : n ≤ m) (hs : 0 < s)
    (hw : (Ty.op .ceilDiv [.op .sub [a, b], c]).WithinWords) :
    (Ty.op .ceilDiv [.op .sub [a, b], c]).eval = some (.finite ((m - n + s - 1) / s : ℕ)) ∧
      (((m - n + s - 1) / s : ℕ) : Int) ≤ Word.maxValue := by
  have hsub : (Ty.op .sub [a, b]).eval = some (.finite (m - n : ℕ)) :=
    (Ty.eval_op (Ty.evalList_pair ha hb)).trans (Size.sub_finite hm hnm)
  have hargs := Ty.evalList_pair hsub hc
  have hle : (m - n + s - 1) / s ≤ m - n + s - 1 := Nat.div_le_self _ _
  have hfits := hw.op_eval hargs
  have hsum : ((m - n : ℕ) : Int) + s ≤ Word.maxValue := hfits.2
  rw [Ty.eval_op hargs]
  exact ⟨Size.divided_ceilDiv (by omega) hfits, by omega⟩

end Counted

variable (hσ : ∀ i, (σ i).Denotes (x i))

include hσ

theorem exact_fromTo (h : fromTo.Admits x)
    (hw : (fromTo.length fun i => (σ i).toTy).WithinWords) :
    Exact (fromTo.length fun i => (σ i).toTy) (fromTo.elements x).encard := by
  obtain ⟨hlast, hle⟩ := h
  obtain ⟨l, hl, hxl, hlmax⟩ := eval_finite (hσ "last") hlast
  obtain ⟨f, hf, hxf, -⟩ := eval_finite (hσ "first") (ne_top_of_le_ne_top hlast hle)
  have hfl : f ≤ l := by
    rw [hxl, hxf] at hle
    exact_mod_cast hle
  have hsub : (Ty.op .sub [(σ "last").toTy, (σ "first").toTy]).eval = some (.finite (l - f : ℕ)) :=
    (Ty.eval_op (Ty.evalList_pair hl hf)).trans (Size.sub_finite hlmax hfl)
  have hargs : Ty.evalList [.num 1, .op .sub [(σ "last").toTy, (σ "first").toTy]] =
      some [.finite (1 : ℕ), .finite (l - f : ℕ)] :=
    Ty.evalList_pair rfl hsub
  have hfits := hw.op_eval hargs
  refine exact_finite ((Ty.eval_op hargs).trans (Size.add_finite (by omega) hfits)) hfits.2 ?_
  rw [elements, hxf, hxl]
  refine encard_ascending (s := 1) Nat.one_pos fun k => ?_
  rw [Nat.cast_le, Nat.cast_lt]
  omega

theorem exact_fromToLessThan (h : fromToLessThan.Admits x) :
    Exact (fromToLessThan.length fun i => (σ i).toTy) (fromToLessThan.elements x).encard := by
  obtain ⟨hfirst, hle⟩ := h
  obtain ⟨f, hf, hxf, hfmax⟩ := eval_finite (hσ "first") hfirst
  have hargs := Ty.evalList_pair (Ty.eval_toTy (σ "bound")) hf
  have hc : (fromToLessThan.elements x).encard = x "bound" - f := by
    rw [elements, hxf]
    refine encard_ascending (s := 1) Nat.one_pos fun k => ?_
    rw [mul_one, Nat.cast_add, lt_tsub_iff_left]
  rw [hc]
  rw [hxf] at hle
  obtain ⟨c, hsub, hden⟩ := (hσ "bound").exists_sub (.finite f hfmax) hle (ENat.natCast_ne_top f)
  exact ⟨c, (Ty.eval_op hargs).trans hsub, hden⟩

theorem exact_fromToBy (h : fromToBy.Admits x)
    (hw : (fromToBy.length fun i => (σ i).toTy).WithinWords) :
    Exact (fromToBy.length fun i => (σ i).toTy) (fromToBy.elements x).encard := by
  obtain ⟨hlast, hstride, hpos, hle⟩ := h
  obtain ⟨l, hl, hxl, hlmax⟩ := eval_finite (hσ "last") hlast
  obtain ⟨f, hf, hxf, -⟩ := eval_finite (hσ "first") (ne_top_of_le_ne_top hlast hle)
  obtain ⟨s, hs, hxs, -⟩ := eval_finite (hσ "stride") hstride
  rw [hxl, hxf, Nat.cast_le] at hle
  rw [hxs, Nat.one_le_cast] at hpos
  obtain ⟨heval, hmax⟩ := eval_steps hl hf hs hlmax hle hpos hw
  refine exact_finite heval hmax ?_
  rw [elements, hxf, hxl, hxs]
  refine encard_ascending hpos fun k => ?_
  rw [Nat.cast_le, Nat.cast_lt, lt_div_add_one_iff hpos]
  omega

theorem exact_fromToDownBy (h : fromToDownBy.Admits x)
    (hw : (fromToDownBy.length fun i => (σ i).toTy).WithinWords) :
    Exact (fromToDownBy.length fun i => (σ i).toTy) (fromToDownBy.elements x).encard := by
  obtain ⟨hfirst, hstride, hpos, hle⟩ := h
  obtain ⟨f, hf, hxf, hfmax⟩ := eval_finite (hσ "first") hfirst
  obtain ⟨l, hl, hxl, -⟩ := eval_finite (hσ "last") (ne_top_of_le_ne_top hfirst hle)
  obtain ⟨s, hs, hxs, -⟩ := eval_finite (hσ "stride") hstride
  rw [hxl, hxf, Nat.cast_le] at hle
  rw [hxs, Nat.one_le_cast] at hpos
  obtain ⟨heval, hmax⟩ := eval_steps hf hl hs hfmax hle hpos hw
  refine exact_finite heval hmax ?_
  rw [elements, hxf, hxl, hxs]
  refine encard_descending hpos fun k => ?_
  rw [Nat.cast_le, Nat.cast_lt, lt_div_add_one_iff hpos]
  omega

theorem exact_fromToByLessThan (h : fromToByLessThan.Admits x) (hbound : x "bound" ≠ ⊤)
    (hw : (fromToByLessThan.length fun i => (σ i).toTy).WithinWords) :
    Exact (fromToByLessThan.length fun i => (σ i).toTy) (fromToByLessThan.elements x).encard := by
  obtain ⟨hfirst, hstride, hpos, hle⟩ := h
  obtain ⟨b, hb, hxb, hbmax⟩ := eval_finite (hσ "bound") hbound
  obtain ⟨f, hf, hxf, -⟩ := eval_finite (hσ "first") hfirst
  obtain ⟨s, hs, hxs, -⟩ := eval_finite (hσ "stride") hstride
  rw [hxb, hxf, Nat.cast_le] at hle
  rw [hxs, Nat.one_le_cast] at hpos
  obtain ⟨heval, hmax⟩ := eval_stepsShort hb hf hs hbmax hle hpos hw
  refine exact_finite heval hmax ?_
  rw [elements, hxf, hxb, hxs]
  refine encard_ascending hpos fun k => ?_
  rw [Nat.cast_lt, Nat.cast_lt, lt_ceilDiv_iff hpos]
  omega

theorem exact_fromToDownByGreaterThan (h : fromToDownByGreaterThan.Admits x)
    (hw : (fromToDownByGreaterThan.length fun i => (σ i).toTy).WithinWords) :
    Exact (fromToDownByGreaterThan.length fun i => (σ i).toTy)
      (fromToDownByGreaterThan.elements x).encard := by
  obtain ⟨hfirst, hstride, hpos, hle⟩ := h
  obtain ⟨f, hf, hxf, hfmax⟩ := eval_finite (hσ "first") hfirst
  obtain ⟨b, hb, hxb, -⟩ := eval_finite (hσ "bound") (ne_top_of_le_ne_top hfirst hle)
  obtain ⟨s, hs, hxs, -⟩ := eval_finite (hσ "stride") hstride
  rw [hxb, hxf, Nat.cast_le] at hle
  rw [hxs, Nat.one_le_cast] at hpos
  obtain ⟨heval, hmax⟩ := eval_stepsShort hf hb hs hfmax hle hpos hw
  refine exact_finite heval hmax ?_
  rw [elements, hxf, hxb, hxs]
  refine encard_descending hpos fun k => ?_
  rw [Nat.cast_lt, Nat.cast_lt, lt_ceilDiv_iff hpos]
  omega

theorem exact_fromThenTo (h : fromThenTo.Admits x)
    (hw : (fromThenTo.length fun i => (σ i).toTy).WithinWords) :
    Exact (fromThenTo.length fun i => (σ i).toTy) (fromThenTo.elements x).encard := by
  obtain ⟨hfirst, hnext, hlast, hne⟩ := h
  obtain ⟨f, hf, hxf, hfmax⟩ := eval_finite (hσ "first") hfirst
  obtain ⟨n, hn, hxn, hnmax⟩ := eval_finite (hσ "next") hnext
  obtain ⟨l, hl, hxl, hlmax⟩ := eval_finite (hσ "last") hlast
  have hargs := Ty.evalList_triple hf hn hl
  have hfits := hw.op_eval hargs
  have heval : (fromThenTo.length fun i => (σ i).toTy).eval = _ := Ty.eval_op hargs
  rw [hxf, hxn, ne_eq, Nat.cast_inj] at hne
  rw [elements, hxf, hxn, hxl]
  rcases Nat.lt_or_gt_of_ne hne with hup | hdown
  · obtain ⟨c, hlen, hmax, hc⟩ := Size.lengthFromThenTo_up hlmax hup hnmax hfits
    refine exact_finite (heval.trans hlen) hmax ?_
    rw [if_pos (Nat.cast_lt.mpr hup), ← ENat.natCast_sub, hc]
    exact encard_upTo hup
  · obtain ⟨c, hlen, hmax, hc⟩ := Size.lengthFromThenTo_down hfmax hdown hfits
    refine exact_finite (heval.trans hlen) hmax ?_
    rw [if_neg (by rw [Nat.cast_lt]; omega), ← ENat.natCast_sub, hc]
    exact encard_downTo hdown

theorem eval_fromToByLessThan_unbounded (h : fromToByLessThan.Admits x) (hbound : x "bound" = ⊤) :
    (fromToByLessThan.length fun i => (σ i).toTy).eval = none := by
  obtain ⟨f, hf, -, -⟩ := eval_finite (hσ "first") h.1
  have hinf : σ "bound" = .inf := ((hσ "bound").eq_iff Size.Denotes.inf).mpr hbound
  have hb : (σ "bound").toTy.eval = some .inf := (Ty.eval_toTy _).trans (congrArg some hinf)
  have hsub : (Ty.op .sub [(σ "bound").toTy, (σ "first").toTy]).eval = some .inf :=
    Ty.eval_op (Ty.evalList_pair hb hf)
  exact Ty.eval_op (Ty.evalList_pair hsub (Ty.eval_toTy _))

omit hσ

/-- Where the predicates on sizes of an enumeration hold and the arithmetic for its length stays
within the words, the length evaluates to the number of elements. The one exception is an
enumeration in steps below an infinite bound: its length has no value. -/
theorem length_exact {e : EnumerationForm} {p : Primitive} (hp : p ∈ Primitive.all)
    (hid : p.ident = e.ident) (next : Int) (hσ : ∀ i, (σ i).Denotes (x i)) {elem t : Ty}
    (hinst : (p.schema next).instantiate (p.arguments σ elem) = (props, t))
    (hprops : ∀ q ∈ props, Granted ρ q) :
    ∃ l, t.sequenceLength props = some l ∧
      (l.WithinWords →
        (l.eval = none ↔ e = fromToByLessThan ∧ x "bound" = ⊤) ∧
          ∀ s, l.eval = some s → s.Denotes (e.elements x).encard) := by
  rw [Primitive.instantiate_schema hp] at hinst
  obtain ⟨rfl, rfl⟩ := Prod.mk.inj hinst
  have hadmits := admits_of_granted hp hid hσ hprops
  refine ⟨_, sequenceLength_type hp hid elem, fun hw => ?_⟩
  by_cases hexc : e = fromToByLessThan ∧ x "bound" = ⊤
  · obtain ⟨rfl, hbound⟩ := hexc
    have hnone := eval_fromToByLessThan_unbounded hσ hadmits hbound
    refine ⟨iff_of_true hnone ⟨rfl, hbound⟩, fun s hs => ?_⟩
    cases hnone.symm.trans hs
  · have hexact : Exact (e.length fun i => (σ i).toTy) (e.elements x).encard := by
      cases e with
      | fromTo => exact exact_fromTo hσ hadmits hw
      | fromToLessThan => exact exact_fromToLessThan hσ hadmits
      | fromThenTo => exact exact_fromThenTo hσ hadmits hw
      | fromToBy => exact exact_fromToBy hσ hadmits hw
      | fromToByLessThan =>
        exact exact_fromToByLessThan hσ hadmits (fun hb => hexc ⟨rfl, hb⟩) hw
      | fromToDownBy => exact exact_fromToDownBy hσ hadmits hw
      | fromToDownByGreaterThan => exact exact_fromToDownByGreaterThan hσ hadmits hw
    obtain ⟨s, hs, hden⟩ := hexact
    refine ⟨iff_of_false (by rw [hs]; exact Option.some_ne_none s) hexc, fun s' hs' => ?_⟩
    cases hs.symm.trans hs'
    exact hden

/-- Ten, seven, four and one are the sizes from ten down in steps of three that are greater than
zero. -/
theorem length_exact_ten_by_three :
    ∃ p ∈ Primitive.all, ∃ props t l, p.ident = "fromToDownByGreaterThan" ∧
      (p.schema 1000).instantiate [.num 10, .num 0, .num 3, .integer] = (props, t) ∧
      t.sequenceLength props = some l ∧ l.eval = some (.finite 4) ∧
      (descending 10 3 (0 < ·)).encard = 4 := by
  let σ : String → Size := fun i =>
    if i = "first" then .finite 10 else if i = "stride" then .finite 3 else .finite 0
  let x : String → ℕ∞ := fun i => if i = "first" then 10 else if i = "stride" then 3 else 0
  have hσ : ∀ i, (σ i).Denotes (x i) := by
    intro i
    simp only [σ, x]
    split_ifs
    · exact .finite 10 (by decide)
    · exact .finite 3 (by decide)
    · exact .finite 0 (by decide)
  let p := Primitive.all[9]
  have hp : p ∈ Primitive.all := List.getElem_mem _
  have hinst := Primitive.instantiate_schema hp 1000 σ .integer
  have hprops : ∀ q ∈ (p.type (p.argumentOf σ .integer)).1, Granted ⟨0, 0⟩ q := by
    refine List.forall_mem_cons.mpr ⟨(granted_fin_iff (hσ "first")).mpr (by decide), ?_⟩
    refine List.forall_mem_cons.mpr ⟨(granted_fin_iff (hσ "stride")).mpr (by decide), ?_⟩
    refine List.forall_mem_cons.mpr ⟨(granted_compare_iff (r := .geq) (hσ "stride")
      (.finite 1 (by decide))).mpr (by decide : (1 : ℕ∞) ≤ 3), ?_⟩
    refine List.forall_mem_cons.mpr ⟨(granted_compare_iff (r := .geq) (hσ "first")
      (hσ "bound")).mpr (by decide : (0 : ℕ∞) ≤ 10), ?_⟩
    exact List.forall_mem_cons.mpr ⟨granted_cls .literal _, List.forall_mem_nil _⟩
  obtain ⟨l, hl, hexact⟩ := length_exact (e := fromToDownByGreaterThan) hp rfl 1000 hσ hinst hprops
  obtain rfl : Ty.op .ceilDiv [.op .sub [.num 10, .num 0], .num 3] = l :=
    Option.some.inj (Eq.trans rfl hl)
  have hw : (Ty.op .ceilDiv [.op .sub [.num 10, .num 0], .num 3]).WithinWords := by
    refine ⟨⟨⟨⟨trivial, trivial, trivial⟩, fun ms hms => ?_⟩, trivial, trivial⟩, fun ms hms => ?_⟩
    · cases hms
      trivial
    · cases hms
      exact (by decide : Word.Fits (10 + 3))
  have heval : (Ty.op .ceilDiv [.op .sub [.num 10, .num 0], .num 3]).eval = some (.finite 4) := rfl
  refine ⟨p, hp, _, _, _, rfl, hinst, hl, heval, ?_⟩
  exact (((hexact hw).2 _ heval).eq_iff (.finite 4 (by decide))).mp rfl

/-- Every other size from zero on: the predicates hold, and the length has no value. -/
theorem length_unbounded_by_two :
    ∃ p ∈ Primitive.all, ∃ props t l, p.ident = "fromToByLessThan" ∧
      (p.schema 1000).instantiate [.num 0, .inf, .num 2, .integer] = (props, t) ∧
      (∀ q ∈ props, Granted ⟨0, 0⟩ q) ∧ t.sequenceLength props = some l ∧ l.WithinWords ∧
      l.eval = none ∧ (ascending 0 2 (· < ⊤)).encard = ⊤ := by
  let σ : String → Size := fun i =>
    if i = "bound" then .inf else if i = "stride" then .finite 2 else .finite 0
  let x : String → ℕ∞ := fun i => if i = "bound" then ⊤ else if i = "stride" then 2 else 0
  have hσ : ∀ i, (σ i).Denotes (x i) := by
    intro i
    simp only [σ, x]
    split_ifs
    · exact .inf
    · exact .finite 2 (by decide)
    · exact .finite 0 (by decide)
  let p := Primitive.all[7]
  have hp : p ∈ Primitive.all := List.getElem_mem _
  have hprops : ∀ q ∈ (p.type (p.argumentOf σ .integer)).1, Granted ⟨0, 0⟩ q := by
    refine List.forall_mem_cons.mpr ⟨(granted_fin_iff (hσ "first")).mpr (by decide), ?_⟩
    refine List.forall_mem_cons.mpr ⟨(granted_fin_iff (hσ "stride")).mpr (by decide), ?_⟩
    refine List.forall_mem_cons.mpr ⟨(granted_compare_iff (r := .geq) (hσ "stride")
      (.finite 1 (by decide))).mpr (by decide : (1 : ℕ∞) ≤ 2), ?_⟩
    refine List.forall_mem_cons.mpr ⟨(granted_compare_iff (r := .geq) (hσ "bound")
      (hσ "first")).mpr (by decide : (0 : ℕ∞) ≤ ⊤), ?_⟩
    exact List.forall_mem_cons.mpr ⟨granted_cls .literalLessThan _, List.forall_mem_nil _⟩
  have hcount : (ascending (0 : ℕ) (2 : ℕ) (· < ⊤)).encard = ⊤ :=
    encard_ascending (by decide) fun k => iff_of_true (ENat.natCast_lt_top _) (ENat.natCast_lt_top k)
  refine ⟨p, hp, _, _, .op .ceilDiv [.op .sub [.inf, .num 0], .num 2], rfl,
    Primitive.instantiate_schema hp 1000 σ .integer, hprops, rfl, ?_, rfl, hcount⟩
  refine ⟨⟨⟨⟨trivial, trivial, trivial⟩, fun ms hms => ?_⟩, trivial, trivial⟩, fun ms hms => ?_⟩ <;>
    · cases hms
      trivial

end EnumerationForm

end SizedTypes
