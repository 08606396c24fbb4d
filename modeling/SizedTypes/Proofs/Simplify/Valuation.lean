import Mathlib.Data.ENat.Lattice
import Mathlib.Data.ENat.Pow
import Mathlib.Data.Nat.Prime.Basic
import Mathlib.Data.Nat.Size
import SizedTypes.Proofs.Ty.Shape
import SizedTypes.Ty.Predicate

/-!
# What sizes and predicates mean

Under a valuation of its variables and parameters a size is a natural number or infinity, unless a
function on sizes is undefined at its arguments, and a numeric predicate is a statement about such
values. Both meanings look through synonyms.
-/

set_option autoImplicit false

namespace SizedTypes

/-- Values for the variables and for the parameters, by id. -/
structure Valuation where
  var : Int → ℕ∞
  param : Int → ℕ∞

/-- `f` on natural numbers with a divisor other than zero. -/
def Size.quotient (f : ℕ → ℕ → ℕ) (a b : ℕ∞) : Option ℕ∞ :=
  if a = ⊤ ∨ b = ⊤ ∨ b = 0 then none else some (f a.toNat b.toNat : ℕ)

/-- The mathematical value of a function on sizes, where it is defined. -/
noncomputable def SizeOp.denote : SizeOp → List ℕ∞ → Option ℕ∞
  | .width, [a] => some (a.map Nat.size)
  | .add, [a, b] => some (a + b)
  | .sub, [a, b] => if b ≤ a ∧ b ≠ ⊤ then some (a - b) else none
  | .mul, [a, b] => some (a * b)
  | .div, [a, b] => Size.quotient (· / ·) a b
  | .mod, [a, b] => Size.quotient (· % ·) a b
  | .exp, [a, b] => some (a ^ b)
  | .min, [a, b] => some (a ⊓ b)
  | .max, [a, b] => some (a ⊔ b)
  | _, _ => none

/-- What a comparison says about two values. -/
def Comparison.relates : Comparison → ℕ∞ → ℕ∞ → Prop
  | .equal, a, b => a = b
  | .neq, a, b => a ≠ b
  | .geq, a, b => b ≤ a

namespace Ty

variable (ρ : Valuation)

mutual
/-- The value of a size built from natural words, `inf`, variables, parameters, synonyms and
functions on sizes. It has none where a function is undefined. -/
noncomputable def value : Ty → Option ℕ∞
  | free v => some (ρ.var v.id)
  | bound p => some (ρ.param p.id)
  | con (.num n) _ => if 0 ≤ n ∧ n ≤ Word.maxValue then some (n.toNat : ℕ∞) else none
  | con .inf _ => some ⊤
  | con (.op f) args => (valueList args).bind f.denote
  | synonym _ _ body => value body
  | _ => none

noncomputable def valueList : List Ty → Option (List ℕ∞)
  | [] => some []
  | t :: ts => (value t).bind fun a => (valueList ts).map (a :: ·)
end

/-- What a predicate on sizes says. It says nothing where a size in it has no value. -/
noncomputable def statement : Ty → Option Prop
  | con (.prop (.compare r)) [a, b] =>
    (a.value ρ).bind fun m => (b.value ρ).map fun n => r.relates m n
  | con (.prop .fin) [a] => (a.value ρ).map (· ≠ ⊤)
  | con (.prop .prime) [a] => (a.value ρ).map fun m : ℕ∞ => ∃ n : ℕ, n.Prime ∧ m = n
  | con (.prop .conj) [p, q] => (statement p).bind fun P => (statement q).map fun Q => P ∧ Q
  | con (.prop .trivial) [] => some True
  | synonym _ _ body => statement body
  | _ => none

/-- A predicate about sizes in which every function on sizes is defined. -/
def Defined (p : Ty) : Prop := (p.statement ρ).isSome

/-- A predicate that is defined and true. -/
def Holds (p : Ty) : Prop := ∃ P, p.statement ρ = some P ∧ P

variable {ρ}

theorem Holds.defined {p : Ty} (h : p.Holds ρ) : p.Defined ρ := by
  obtain ⟨P, hP, -⟩ := h
  rw [Defined, hP]
  rfl

/-! ## Synonyms -/

theorem value_expand : ∀ t : Ty, t.expand.value ρ = t.value ρ
  | free _ | bound _ | con _ _ | record _ | newtype _ _ _ _ => rfl
  | synonym _ _ body => by
    rw [expand, value_expand body]
    simp only [value]

theorem statement_expand : ∀ p : Ty, p.expand.statement ρ = p.statement ρ
  | free _ | bound _ | con _ _ | record _ | newtype _ _ _ _ => rfl
  | synonym _ _ body => by
    rw [expand, statement_expand body]
    simp only [statement]

/-! ## The predicates that say something -/

/-- What the application of a constructor of predicates says, by its arguments. -/
inductive Reads (ρ : Valuation) : PropCon → List Ty → Prop → Prop
  | compare {r : Comparison} {a b : Ty} {m n : ℕ∞} (ha : a.value ρ = some m)
    (hb : b.value ρ = some n) : Reads ρ (.compare r) [a, b] (r.relates m n)
  | fin {a : Ty} {m : ℕ∞} (ha : a.value ρ = some m) : Reads ρ .fin [a] (m ≠ ⊤)
  | prime {a : Ty} {m : ℕ∞} (ha : a.value ρ = some m) :
    Reads ρ .prime [a] (∃ n : ℕ, n.Prime ∧ m = n)
  | conj {p q : Ty} {P Q : Prop} (hp : p.statement ρ = some P) (hq : q.statement ρ = some Q) :
    Reads ρ .conj [p, q] (P ∧ Q)
  | trivial : Reads ρ .trivial [] True

theorem Reads.of_statement {pc : PropCon} {args : List Ty} {P : Prop}
    (h : (con (.prop pc) args).statement ρ = some P) : Reads ρ pc args P := by
  unfold statement at h
  split at h
  · rename_i heq
    cases heq
    obtain ⟨m, hm, h⟩ := Option.bind_eq_some_iff.mp h
    obtain ⟨n, hn, rfl⟩ := Option.map_eq_some_iff.mp h
    exact .compare hm hn
  · rename_i heq
    cases heq
    obtain ⟨m, hm, rfl⟩ := Option.map_eq_some_iff.mp h
    exact .fin hm
  · rename_i heq
    cases heq
    obtain ⟨m, hm, rfl⟩ := Option.map_eq_some_iff.mp h
    exact .prime hm
  · rename_i heq
    cases heq
    obtain ⟨P, hP, h⟩ := Option.bind_eq_some_iff.mp h
    obtain ⟨Q, hQ, rfl⟩ := Option.map_eq_some_iff.mp h
    exact .conj hP hQ
  · rename_i heq
    cases heq
    cases h
    exact .trivial
  · rename_i heq
    cases heq
  · cases h

/-- A predicate that says something is the application of a constructor of predicates. -/
theorem asProp?_of_statement {p : Ty} {P : Prop} (h : p.statement ρ = some P) :
    ∃ pc args, p.asProp? = some (pc, args) ∧ Reads ρ pc args P := by
  rw [← statement_expand] at h
  unfold asProp?
  cases hp : p.expand with
  | con c args =>
    rw [hp] at h
    cases c with
    | prop pc => exact ⟨pc, args, rfl, Reads.of_statement h⟩
    | _ => simp [statement] at h
  | synonym _ _ _ => exact absurd hp expand_ne_synonym
  | _ => simp [hp, statement] at h

/-! ## Types that are the same -/

theorem value_con_of_same {c d : Con} {as bs : List Ty} (h : c.same d = true)
    (hargs : valueList ρ as = valueList ρ bs) : (con c as).value ρ = (con d bs).value ρ := by
  rcases Con.eq_or_abstract_of_same h with rfl | ⟨n, k, m, l, rfl, rfl⟩
  · cases c <;> simp only [value, hargs]
  · simp only [value]

mutual
theorem value_eq_of_same : ∀ a b : Ty, a.same b = true → a.value ρ = b.value ρ
  | free v, b, h => by
    rw [← value_expand b]
    cases hb : b.expand <;> simp_all [same, value]
  | bound p, b, h => by
    rw [← value_expand b]
    cases hb : b.expand <;> simp_all [same, value]
  | con c as, b, h => by
    rw [← value_expand b]
    rw [same] at h
    cases hb : b.expand with
    | con d bs =>
      rw [hb, Bool.and_eq_true] at h
      exact value_con_of_same h.1 (valueList_eq_of_same as bs h.2)
    | _ => simp [hb] at h
  | newtype n _ _ as, b, h => by
    rw [← value_expand b]
    cases hb : b.expand <;> simp_all [same, value]
  | record fs, b, h => by
    rw [← value_expand b]
    cases hb : b.expand <;> simp_all [same, value]
  | synonym _ _ body, b, h => by
    rw [same] at h
    rw [value]
    exact value_eq_of_same body b h

theorem valueList_eq_of_same : ∀ as bs : List Ty, sameList as bs = true →
    valueList ρ as = valueList ρ bs
  | [], [], _ => rfl
  | [], _ :: _, h => nomatch h
  | _ :: _, [], h => nomatch h
  | a :: as, b :: bs, h => by
    rw [sameList, Bool.and_eq_true] at h
    rw [valueList, valueList, value_eq_of_same a b h.1, valueList_eq_of_same as bs h.2]
end

theorem statement_con_of_same {c d : Con} {as bs : List Ty} (h : c.same d = true)
    (hargs : sameList as bs = true)
    (ih : ∀ a ∈ as, ∀ b : Ty, a.same b = true → a.statement ρ = b.statement ρ) :
    (con c as).statement ρ = (con d bs).statement ρ := by
  rcases Con.eq_or_abstract_of_same h with rfl | ⟨n, k, m, l, rfl, rfl⟩
  · cases c with
    | prop pc =>
      rcases as with _ | ⟨a, _ | ⟨b, _ | ⟨c, as⟩⟩⟩ <;>
        rcases bs with _ | ⟨a', _ | ⟨b', _ | ⟨c', bs⟩⟩⟩ <;>
        simp only [sameList, Bool.and_eq_true, Bool.and_false, Bool.false_eq_true] at hargs
      · rfl
      · have ha := value_eq_of_same (ρ := ρ) a a' hargs.1
        cases pc <;> simp only [statement, ha]
      · have ha := value_eq_of_same (ρ := ρ) a a' hargs.1
        have hb := value_eq_of_same (ρ := ρ) b b' hargs.2.1
        have hp := ih a (by simp) a' hargs.1
        have hq := ih b (by simp) b' hargs.2.1
        cases pc <;> simp only [statement, ha, hb, hp, hq]
      · cases pc <;> simp only [statement]
    | _ => simp only [statement]
  · simp only [statement]

theorem statement_eq_of_same {p q : Ty} (h : p.same q = true) :
    p.statement ρ = q.statement ρ := by
  induction p using Ty.induct generalizing q with
  | con c as ih =>
    rw [← statement_expand q]
    rw [same] at h
    cases hq : q.expand with
    | con d bs =>
      rw [hq, Bool.and_eq_true] at h
      exact statement_con_of_same h.1 h.2 fun a ha b hab => ih a ha hab
    | _ => simp [hq] at h
  | synonym _ _ body _ ih =>
    rw [same] at h
    rw [statement]
    exact ih h
  | _ =>
    rw [← statement_expand q]
    rw [same] at h
    cases hq : q.expand <;> first | rfl | simp [hq] at h

end Ty
end SizedTypes
