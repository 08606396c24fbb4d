import SizedTypes.Infer.Kinding
import SizedTypes.Proofs.Simplify.Decided
import SizedTypes.Proofs.Simplify.Soundness
import SizedTypes.Proofs.Size.Rounded

/-!
# Side conditions and definedness

The side conditions of a function on sizes say where it is defined, with one exception: those of the
divisions let an infinite divisor through. So a size all of whose side conditions are met evaluates,
unless one of its divisions is by infinity or an intermediate result leaves the words.
-/

set_option autoImplicit false

namespace SizedTypes

open Infer.Kinding (sideConditions)
open Simplify (compareSizes compareSizes_iff)

/-! ## Decided conditions -/

namespace Ty

variable {a b : Ty} {m n : Size} {x y : ℕ∞}

theorem decided_fin (h : a.eval = some m) : (fin a).Decided m.isFinite := .fin rfl h

theorem decided_compare (r : Comparison) (ha : a.eval = some m) (hb : b.eval = some n) :
    (compare r a b).Decided (compareSizes r m n) := .compare rfl ha hb

theorem decided_fin_iff (h : a.eval = some m) (hm : m.Denotes x) :
    (fin a).Decided true ↔ x ≠ ⊤ := by
  rw [← hm.isFinite_iff]
  exact ⟨fun hp => (decided_fin h).unique hp, fun hfin => hfin ▸ decided_fin h⟩

theorem decided_compare_iff {r : Comparison} (ha : a.eval = some m) (hb : b.eval = some n)
    (hm : m.Denotes x) (hn : n.Denotes y) : (compare r a b).Decided true ↔ r.relates x y := by
  rw [← compareSizes_iff hm hn]
  exact ⟨fun hp => (decided_compare r ha hb).unique hp, fun hr => hr ▸ decided_compare r ha hb⟩

theorem decided_geq_one_iff (ha : a.eval = some m) (hm : m.Denotes x) :
    (geq a (num 1)).Decided true ↔ x ≠ 0 := by
  have hone : (Size.finite ((1 : ℕ) : Int)).Denotes ((1 : ℕ) : ℕ∞) := .finite 1 (by decide)
  exact (decided_compare_iff ha (eval_toTy (.finite 1)) hm hone).trans Order.one_le_iff_ne_zero

end Ty

namespace Size

variable {a b c : Size} {x y z : ℕ∞}

theorem Denotes.isSome_sub_iff (ha : a.Denotes x) (hb : b.Denotes y) :
    (a.sub b).isSome ↔ y ≤ x ∧ y ≠ ⊤ := by
  refine ⟨fun h => ?_, fun h => ha.isSome_sub hb h.1 h.2⟩
  obtain ⟨d, hd⟩ := Option.isSome_iff_exists.mp h
  obtain ⟨hle, htop, -⟩ := ha.sub hb hd
  exact ⟨hle, htop⟩

theorem isSome_quotient_iff {g : ℕ → ℕ → ℕ} :
    (quotient g x y).isSome ↔ x ≠ ⊤ ∧ y ≠ ⊤ ∧ y ≠ 0 := by
  rw [quotient]
  split
  · rename_i h
    simp only [Option.isSome_none, Bool.false_eq_true, false_iff]
    grind
  · rename_i h
    rw [not_or, not_or] at h
    simpa using h

end Size

namespace SizeOp

variable {f : SizeOp} {ts : List Ty} {ms : List Size} {xs : List ℕ∞}

/-- A division by infinity. -/
def DividesByInf : SizeOp → List Size → Prop
  | .div, [_, b] | .mod, [_, b] | .ceilDiv, [_, b] | .ceilMod, [_, b] => b = .inf
  | _, _ => False

/-- At sizes that have values, each side condition is true or false. -/
theorem decided_sideConditions (h : Ty.evalList ts = some ms) :
    ∀ p ∈ sideConditions f ts, ∃ v, p.Decided v := by
  have hfin : ∀ t ∈ ts, ∃ v, (Ty.fin t).Decided v := fun t ht => by
    obtain ⟨m, hm⟩ := Option.isSome_iff_exists.mp (Ty.isSome_eval_of_mem h t ht)
    exact ⟨_, Ty.decided_fin hm⟩
  have hcompare : ∀ r, ∀ a ∈ ts, ∀ b ∈ .num 1 :: ts, ∃ v, (Ty.compare r a b).Decided v := by
    intro r a ha b hb
    obtain ⟨m, hm⟩ := Option.isSome_iff_exists.mp (Ty.isSome_eval_of_mem h a ha)
    have hsome : b.eval.isSome := by
      rcases List.mem_cons.mp hb with rfl | hb
      · rfl
      · exact Ty.isSome_eval_of_mem h b hb
    obtain ⟨n, hn⟩ := Option.isSome_iff_exists.mp hsome
    exact ⟨_, Ty.decided_compare r hm hn⟩
  unfold sideConditions
  split
  case h_1 =>
    exact List.forall_mem_cons.mpr
      ⟨hcompare .geq _ (by simp) _ (by simp), List.forall_mem_singleton.mpr (hfin _ (by simp))⟩
  case h_2 | h_3 | h_4 | h_5 =>
    exact List.forall_mem_cons.mpr
      ⟨hfin _ (by simp), List.forall_mem_singleton.mpr (hcompare .geq _ (by simp) _ (by simp))⟩
  case h_6 =>
    exact List.forall_mem_cons.mpr ⟨hfin _ (by simp), List.forall_mem_cons.mpr
      ⟨hfin _ (by simp), List.forall_mem_cons.mpr ⟨hfin _ (by simp),
        List.forall_mem_singleton.mpr (hcompare .neq _ (by simp) _ (by simp))⟩⟩⟩
  case h_7 => exact List.forall_mem_nil _

variable {a b c : Ty} {k m n : Size} {x y z : ℕ∞}

/-- Two arguments with their values. -/
theorem exists_pair (hts : Ty.evalList ts = some ms) (h : List.Forall₂ Size.Denotes ms xs)
    (hlen : ts.length = 2) : ∃ a b m n x y, ts = [a, b] ∧ ms = [m, n] ∧ a.eval = some m ∧
      b.eval = some n ∧ m.Denotes x ∧ n.Denotes y := by
  obtain ⟨a, b, rfl⟩ := List.length_eq_two.mp hlen
  simp only [Ty.evalList, Option.bind_eq_some_iff, Option.map_eq_some_iff,
    Option.some.injEq] at hts
  obtain ⟨m, ha, _, ⟨n, hb, _, rfl, rfl⟩, rfl⟩ := hts
  obtain _ | ⟨hm, _ | ⟨hn, _⟩⟩ := h
  exact ⟨a, b, m, n, _, _, rfl, rfl, ha, hb, hm, hn⟩

/-- Three arguments with their values. -/
theorem exists_triple (hts : Ty.evalList ts = some ms) (h : List.Forall₂ Size.Denotes ms xs)
    (hlen : ts.length = 3) : ∃ a b c k m n x y z, ts = [a, b, c] ∧ ms = [k, m, n] ∧
      a.eval = some k ∧ b.eval = some m ∧ c.eval = some n ∧ k.Denotes x ∧ m.Denotes y ∧
      n.Denotes z := by
  obtain ⟨a, b, c, rfl⟩ := List.length_eq_three.mp hlen
  simp only [Ty.evalList, Option.bind_eq_some_iff, Option.map_eq_some_iff,
    Option.some.injEq] at hts
  obtain ⟨k, ha, _, ⟨m, hb, _, ⟨n, hc, _, rfl, rfl⟩, rfl⟩, rfl⟩ := hts
  obtain _ | ⟨hk, _ | ⟨hm, _ | ⟨hn, _⟩⟩⟩ := h
  exact ⟨a, b, c, k, m, n, _, _, _, rfl, rfl, ha, hb, hc, hk, hm, hn⟩

/-! ## One function -/

/-- The conditions of a difference. -/
theorem sub_conditions_iff (ha : a.eval = some m) (hb : b.eval = some n) (hm : m.Denotes x)
    (hn : n.Denotes y) :
    (∀ p ∈ sideConditions .sub [a, b], p.Decided true) ↔ (m.sub n).isSome := by
  rw [hm.isSome_sub_iff hn, sideConditions, List.forall_mem_cons, List.forall_mem_singleton,
    Ty.decided_fin_iff hb hn, Ty.geq, Ty.decided_compare_iff ha hb hm hn]
  rfl

/-- The conditions of a division, which leave out that the divisor is finite. -/
theorem divided_conditions_iff {h : Int → Int → Int} (ha : a.eval = some m) (hb : b.eval = some n)
    (hm : m.Denotes x) (hn : n.Denotes y) :
    (∀ p ∈ [Ty.fin a, .geq b (.num 1)], p.Decided true) ∧ n ≠ .inf ↔
      (Size.divided h m n).isSome := by
  have hinf : n = .inf ↔ y = ⊤ := hn.eq_iff .inf
  rw [hm.isSome_divided_iff hn (g := fun m _ => m), Size.isSome_quotient_iff, List.forall_mem_cons,
    List.forall_mem_singleton, Ty.decided_fin_iff ha hm, Ty.decided_geq_one_iff hb hn]
  grind

/-- The conditions of the length of an enumeration. -/
theorem lengthFromThenTo_conditions_iff (ha : a.eval = some k) (hb : b.eval = some m)
    (hc : c.eval = some n) (hk : k.Denotes x) (hm : m.Denotes y) (hn : n.Denotes z) :
    (∀ p ∈ sideConditions .lengthFromThenTo [a, b, c], p.Decided true) ↔
      (Size.lengthFromThenTo k m n).isSome := by
  have hlen := hk.isSome_lengthFromThenTo_iff hm hn (w := 0)
  have hneq := Ty.decided_compare_iff (r := .neq) ha hb hk hm
  rw [hlen, sideConditions]
  simp only [List.forall_mem_cons, Ty.decided_fin_iff ha hk, Ty.decided_fin_iff hb hm,
    Ty.decided_fin_iff hc hn, Ty.neq, hneq, Comparison.relates]
  split <;> simp <;> grind

theorem isSome_add (hm : m.Denotes x) (hn : n.Denotes y) (hw : add.WithinWords [m, n]) :
    (m.add n).isSome := by
  cases hm with
  | inf => rfl
  | finite i hi =>
    cases hn with
    | inf => rfl
    | finite j hj =>
      rw [Size.add_finite hj hw]
      rfl

theorem isSome_mul (hm : m.Denotes x) (hn : n.Denotes y) (hw : mul.WithinWords [m, n]) :
    (m.mul n).isSome := by
  cases hm with
  | inf =>
    cases hn with
    | inf => rfl
    | finite j hj =>
      rw [Size.mul]
      split <;> rfl
  | finite i hi =>
    cases hn with
    | inf =>
      rw [Size.mul]
      split <;> rfl
    | finite j hj =>
      refine Size.Denotes.isSome_mul (.finite i hi) (.finite j hj) ?_
      have hle : ((i * j : ℕ) : Int) ≤ Word.maxValue := by exact_mod_cast hw.2
      exact_mod_cast Size.representable_natCast.mpr hle

theorem isSome_exp (hm : m.Denotes x) (hn : n.Denotes y) (hw : exp.WithinWords [m, n]) :
    (m.exp n).isSome := by
  unfold Size.exp
  split
  · rfl
  · rfl
  · split <;> rfl
  · cases hm with
    | finite i hi =>
      cases hn with
      | finite j hj =>
        have hle : ((1 * i ^ j : ℕ) : Int) ≤ Word.maxValue := by
          rw [one_mul]
          exact_mod_cast hw.2
        rw [Option.isSome_map, Int.toNat_natCast]
        exact Size.isSome_power hle

/-- Where what is computed stays within the words, a function is defined exactly if its side
conditions are met, and it is no division by infinity. -/
theorem sideConditions_iff (hts : Ty.evalList ts = some ms) (h : List.Forall₂ Size.Denotes ms xs)
    (hlen : ts.length = f.kind.arity) (hw : f.WithinWords ms) :
    (∀ p ∈ sideConditions f ts, p.Decided true) ∧ ¬ f.DividesByInf ms ↔ (f.eval ms).isSome := by
  cases f with
  | width =>
    obtain ⟨m, rfl⟩ := List.length_eq_one_iff.mp ((Ty.length_evalList hts).trans hlen)
    exact iff_of_true ⟨List.forall_mem_nil _, id⟩ rfl
  | add =>
    obtain ⟨a, b, m, n, x, y, rfl, rfl, -, -, hm, hn⟩ := exists_pair hts h hlen
    exact iff_of_true ⟨List.forall_mem_nil _, id⟩ (isSome_add hm hn hw)
  | mul =>
    obtain ⟨a, b, m, n, x, y, rfl, rfl, -, -, hm, hn⟩ := exists_pair hts h hlen
    exact iff_of_true ⟨List.forall_mem_nil _, id⟩ (isSome_mul hm hn hw)
  | exp =>
    obtain ⟨a, b, m, n, x, y, rfl, rfl, -, -, hm, hn⟩ := exists_pair hts h hlen
    exact iff_of_true ⟨List.forall_mem_nil _, id⟩ (isSome_exp hm hn hw)
  | min | max =>
    obtain ⟨a, b, m, n, x, y, rfl, rfl, -⟩ := exists_pair hts h hlen
    exact iff_of_true ⟨List.forall_mem_nil _, id⟩ rfl
  | sub =>
    obtain ⟨a, b, m, n, x, y, rfl, rfl, ha, hb, hm, hn⟩ := exists_pair hts h hlen
    exact (and_iff_left id).trans (sub_conditions_iff ha hb hm hn)
  | div | mod | ceilDiv | ceilMod =>
    obtain ⟨a, b, m, n, x, y, rfl, rfl, ha, hb, hm, hn⟩ := exists_pair hts h hlen
    exact divided_conditions_iff ha hb hm hn
  | lengthFromThenTo =>
    obtain ⟨a, b, c, k, m, n, x, y, z, rfl, rfl, ha, hb, hc, hk, hm, hn⟩ :=
      exists_triple hts h hlen
    exact (and_iff_left id).trans (lengthFromThenTo_conditions_iff ha hb hc hk hm hn)

end SizeOp

/-! ## Sizes with met conditions -/

namespace Kind

/-- What is left of a kind after all arguments. -/
def result : Kind → Kind
  | arrow _ cod => cod.result
  | k => k

/-- With all arguments there may be a size. -/
def MaySize (k : Kind) : Prop := k.result = .num ∨ k.result = .unknown

instance (k : Kind) : Decidable k.MaySize := inferInstanceAs (Decidable (_ ∨ _))

end Kind

namespace Ty

/-- A size, built from variables, parameters that satisfy `Q`, natural literals, `inf`, primitive
types, synonyms and functions on sizes, the side conditions of which satisfy `P`. -/
inductive SizedBy (P : Ty → Prop) (Q : Param → Prop) : Ty → Prop
  | free (v : TyVar) : SizedBy P Q (free v)
  | bound {p : Param} (h : Q p) : SizedBy P Q (bound p)
  | num {n : Int} {args : List Ty} (h : 0 ≤ n ∧ n ≤ Word.maxValue) : SizedBy P Q (con (.num n) args)
  | inf {args : List Ty} : SizedBy P Q (con .inf args)
  | abstract {n : Name} {k : Kind} {args : List Ty} (h : k.MaySize) :
    SizedBy P Q (con (.abstract n k) args)
  | op {f : SizeOp} {args : List Ty} (hlen : args.length = f.kind.arity)
    (hargs : ∀ a ∈ args, SizedBy P Q a) (hP : ∀ p ∈ sideConditions f args, P p) :
    SizedBy P Q (con (.op f) args)
  | synonym {n : Name} {args : List Ty} {body : Ty} (h : SizedBy P Q body) :
    SizedBy P Q (synonym n args body)

/-- Known values for variables, parameters and primitive types that are sizes. -/
structure Closing where
  var : TyVar → Size
  param : Param → Size
  primitive : Name → List Ty → Size
  natural_var : ∀ v, ∃ x, (var v).Denotes x
  natural_param : ∀ p, ∃ x, (param p).Denotes x
  natural_primitive : ∀ n args, ∃ x, (primitive n args).Denotes x

mutual
/-- Put the known values in place of variables, parameters and primitive types. -/
def close (σ : Closing) : Ty → Ty
  | free v => (σ.var v).toTy
  | bound p => (σ.param p).toTy
  | con (.abstract n k) args =>
    if k.MaySize then (σ.primitive n args).toTy else con (.abstract n k) (closeList σ args)
  | con c args => con c (closeList σ args)
  | record fields => record (closeFields σ fields)
  | synonym n args body => synonym n (closeList σ args) (close σ body)
  | newtype n ps fields args => newtype n ps fields (closeList σ args)

def closeList (σ : Closing) : List Ty → List Ty
  | [] => []
  | t :: ts => close σ t :: closeList σ ts

def closeFields (σ : Closing) : List (String × Ty) → List (String × Ty)
  | [] => []
  | (l, t) :: fs => (l, close σ t) :: closeFields σ fs
end

/-- No division in the type is by infinity. -/
def NeverDividesByInf (t : Ty) : Prop :=
  ∀ f args ms, (con (.op f) args).PartOf t → evalList args = some ms → ¬ f.DividesByInf ms

variable {P : Ty → Prop} {Q : Param → Prop} {σ : Closing} {t : Ty}

/-- Side conditions of a function are those of its arguments. -/
theorem bind_sideConditions (g : TyVar → Ty) (h : Param → Ty) (f : SizeOp) (args : List Ty) :
    sideConditions f (args.map (Ty.bind g h)) = (sideConditions f args).map (Ty.bind g h) := by
  rcases args with _ | ⟨a, _ | ⟨b, _ | ⟨c, args⟩⟩⟩ <;> cases f <;> rfl

theorem NeverDividesByInf.arg {c : Con} {args : List Ty} (h : (con c args).NeverDividesByInf) :
    ∀ a ∈ args, a.NeverDividesByInf :=
  fun _ ha f as ms hpart => h f as ms (.arg ha hpart)

theorem closeList_eq_map (σ : Closing) (ts : List Ty) : closeList σ ts = ts.map (close σ) := by
  induction ts with
  | nil => rfl
  | cons t ts ih => rw [closeList, ih, List.map_cons]

theorem close_op (σ : Closing) (f : SizeOp) (args : List Ty) :
    close σ (con (.op f) args) = con (.op f) (args.map (close σ)) :=
  congrArg _ (closeList_eq_map σ args)

theorem close_sideConditions (σ : Closing) (f : SizeOp) (args : List Ty) :
    sideConditions f (args.map (close σ)) = (sideConditions f args).map (close σ) := by
  rcases args with _ | ⟨a, _ | ⟨b, _ | ⟨c, args⟩⟩⟩ <;> cases f <;> rfl

theorem withinWords_of_mem {ts : List Ty} (h : listWithinWords ts) : ∀ t ∈ ts, t.WithinWords := by
  induction ts with
  | nil => exact List.forall_mem_nil _
  | cons t ts ih => exact List.forall_mem_cons.mpr ⟨h.1, ih h.2⟩

/-- Arguments that have natural values have them together. -/
theorem exists_evalList_denotes {ts : List Ty} (h : ∀ t ∈ ts, ∃ m x, t.eval = some m ∧ m.Denotes x) :
    ∃ ms xs, evalList ts = some ms ∧ List.Forall₂ Size.Denotes ms xs := by
  induction ts with
  | nil => exact ⟨[], [], rfl, .nil⟩
  | cons t ts ih =>
    obtain ⟨⟨m, x, hm, hmx⟩, h⟩ := List.forall_mem_cons.mp h
    obtain ⟨ms, xs, hms, hden⟩ := ih h
    exact ⟨m :: ms, x :: xs, by rw [evalList, hm, hms]; rfl, .cons hmx hden⟩

/-- A size evaluates at known values, unless one of its side conditions is refuted there, a division
is by infinity or a result leaves the words. -/
theorem SizedBy.exists_eval (h : t.SizedBy (fun p => ¬ (p.close σ).Decided false) Q)
    (hw : (t.close σ).WithinWords) (hdiv : (t.close σ).NeverDividesByInf) :
    ∃ s x, (t.close σ).eval = some s ∧ s.Denotes x := by
  induction h with
  | free v =>
    obtain ⟨x, hx⟩ := σ.natural_var v
    exact ⟨_, x, eval_toTy _, hx⟩
  | bound =>
    obtain ⟨x, hx⟩ := σ.natural_param _
    exact ⟨_, x, eval_toTy _, hx⟩
  | @num n args hn =>
    obtain ⟨m, rfl⟩ := Int.eq_ofNat_of_zero_le hn.1
    exact ⟨_, m, rfl, .finite m hn.2⟩
  | inf => exact ⟨_, ⊤, rfl, .inf⟩
  | @abstract n k args hk =>
    obtain ⟨x, hx⟩ := σ.natural_primitive n args
    exact ⟨_, x, by rw [close, if_pos hk]; exact eval_toTy _, hx⟩
  | @op f args hlen _ hP ih =>
    rw [close_op] at hw hdiv ⊢
    obtain ⟨hwargs, hwop⟩ := hw
    have hargs : ∀ a ∈ args.map (close σ), ∃ m x, a.eval = some m ∧ m.Denotes x :=
      List.forall_mem_map.mpr fun a ha =>
        have hmem := List.mem_map_of_mem ha
        ih a ha (withinWords_of_mem hwargs _ hmem) (hdiv.arg _ hmem)
    obtain ⟨ms, xs, hms, hxs⟩ := exists_evalList_denotes hargs
    have hlen' : (args.map (close σ)).length = f.kind.arity := (List.length_map _).trans hlen
    have hmet : ∀ p ∈ sideConditions f (args.map (close σ)), p.Decided true := by
      intro p hp
      obtain ⟨v, hv⟩ := SizeOp.decided_sideConditions hms p hp
      rw [close_sideConditions] at hp
      obtain ⟨q, hq, rfl⟩ := List.mem_map.mp hp
      cases v with
      | true => exact hv
      | false => exact absurd hv (hP q hq)
    have hwms := hwop ms hms
    obtain ⟨s, hs⟩ := Option.isSome_iff_exists.mp
      ((SizeOp.sideConditions_iff hms hxs hlen' hwms).mp ⟨hmet, hdiv f _ ms .refl hms⟩)
    obtain ⟨x, hx⟩ := SizeOp.exists_denotes hxs hs
      (hwms.not_overflows ((length_evalList hms).trans hlen'))
    exact ⟨s, x, (eval_op hms).trans hs, hx⟩
  | synonym _ ih =>
    rw [close] at hw hdiv ⊢
    obtain ⟨s, x, hs, hx⟩ := ih hw fun f args ms hpart => hdiv f args ms (.body hpart)
    exact ⟨s, x, by rw [eval]; exact hs, hx⟩

end Ty
end SizedTypes
