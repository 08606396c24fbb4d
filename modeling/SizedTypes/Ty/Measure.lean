import SizedTypes.Size
import SizedTypes.Ty.Predicate

/-!
# Sizes of types under normalization

Normalizing never makes a type larger, and it keeps the constructor of a predicate.
-/

set_option autoImplicit false

namespace SizedTypes.Ty

theorem size_toTy (n : Size) : n.toTy.size = 1 := by
  cases n <;> rfl

mutual
theorem size_normalize_le : ∀ t : Ty, t.normalize.size ≤ t.size
  | free _ | bound _ => by simp [normalize]
  | con c args => by
    have ih := sizeList_normalize_le args
    cases c with
    | op f =>
      simp only [normalize]
      split
      · simp only [size_toTy, size]
        omega
      · simp only [size]
        omega
    | _ =>
      simp only [normalize, size]
      omega
  | record fields => by
    have ih := sizeFields_normalize_le fields
    simp only [normalize, size]
    omega
  | synonym _ args body => by
    have ih := sizeList_normalize_le args
    have ih' := size_normalize_le body
    simp only [normalize, size]
    omega
  | newtype _ _ _ args => by
    have ih := sizeList_normalize_le args
    simp only [normalize, size]
    omega

theorem sizeList_normalize_le : ∀ ts : List Ty, sizeList (normalizeList ts) ≤ sizeList ts
  | [] => Nat.le_refl _
  | t :: ts => by
    have ih := size_normalize_le t
    have ih' := sizeList_normalize_le ts
    simp only [normalizeList, sizeList]
    omega

theorem sizeFields_normalize_le : ∀ fs : List (String × Ty),
    sizeFields (normalizeFields fs) ≤ sizeFields fs
  | [] => Nat.le_refl _
  | (_, t) :: fs => by
    have ih := size_normalize_le t
    have ih' := sizeFields_normalize_le fs
    simp only [normalizeFields, sizeFields]
    omega
end

/-- Normalizing keeps the constructor of a predicate and normalizes its arguments. -/
theorem asProp?_normalize : ∀ t : Ty,
    t.normalize.asProp? = t.asProp?.map fun e => (e.1, normalizeList e.2)
  | free _ | bound _ => rfl
  | record _ | newtype _ _ _ _ => by simp [normalize, asProp?, expand]
  | synonym _ _ body => by
    have ih := asProp?_normalize body
    simpa [normalize, asProp?, expand] using ih
  | con c args => by
    cases c with
    | op f =>
      simp only [normalize]
      split
      · rename_i n _
        cases n <;> rfl
      · rfl
    | _ => rfl

theorem sizeList_append (ts us : List Ty) : sizeList (ts ++ us) = sizeList ts + sizeList us := by
  induction ts with
  | nil => simp [sizeList]
  | cons t ts ih =>
    simp only [List.cons_append, sizeList, ih]
    omega

end SizedTypes.Ty
