import SizedTypes.Proofs.Simplify.Decided
import SizedTypes.Proofs.Size.Rounded
import SizedTypes.Simplify.Improve

/-!
# Improvement is forced

Inverting a type goes down to its only variable, and each step turns the value that the type must
take into the value that one of its parts must take. Where this value stays within the words, it is
forced: the type takes its value exactly if the part does. The difference `t - b` is the one case in
which the target grows, and its sum is not guarded.
-/

set_option autoImplicit false

namespace SizedTypes

/-! ## Equations between sizes -/

section Equations

variable {x y : ℕ∞} {l m n : ℕ}

theorem natCast_add_eq_iff (h : m ≤ n) : (m : ℕ∞) + x = n ↔ x = (n - m : ℕ) := by
  cases x with
  | top => exact iff_of_false (ENat.top_ne_natCast _) (ENat.top_ne_natCast _)
  | coe x =>
    norm_cast
    omega

theorem sub_natCast_eq_iff (h : (m : ℕ∞) ≤ x) : x - m = n ↔ x = (n + m : ℕ) := by
  cases x with
  | top => exact iff_of_false (ENat.top_ne_natCast _) (ENat.top_ne_natCast _)
  | coe x =>
    norm_cast at h ⊢
    omega

theorem natCast_sub_eq_iff (hx : x ≤ m) (h : n ≤ m) : (m : ℕ∞) - x = n ↔ x = (m - n : ℕ) := by
  cases x with
  | top => exact absurd (top_le_iff.mp hx) (ENat.natCast_ne_top m)
  | coe x =>
    norm_cast at hx ⊢
    omega

theorem natCast_mul_eq_iff (hm : 0 < m) (h : Word.rem n m = 0) :
    (m : ℕ∞) * x = n ↔ x = (n / m : ℕ) := by
  have hdvd : m ∣ n := Int.natCast_dvd_natCast.mp (Int.dvd_of_tmod_eq_zero h)
  cases x with
  | top =>
    rw [ENat.mul_top (Nat.cast_ne_zero.mpr hm.ne')]
    exact iff_of_false (ENat.top_ne_natCast _) (ENat.top_ne_natCast _)
  | coe x =>
    norm_cast
    rw [eq_comm, ← Nat.div_eq_iff_eq_mul_right hm hdvd, eq_comm]

theorem natCast_div_le {b : Int} (hn : (n : Int) ≤ b) : ((n / m : ℕ) : Int) ≤ b := by
  have : n / m ≤ n := Nat.div_le_self n m
  omega

end Equations

namespace Ty

variable {ρ : Valuation} {t a b : Ty}

theorem exactValue_expand : ∀ t : Ty, t.expand.exactValue ρ = t.exactValue ρ
  | free _ | bound _ | con _ _ | record _ | newtype _ _ _ _ => rfl
  | synonym _ _ body => by rw [expand, exactValue_expand body, exactValue]

theorem exactValue_of_asFree? {v : TyVar} (h : t.asFree? = some v) :
    t.exactValue ρ = some (ρ.var v.id) := by
  unfold asFree? at h
  split at h
  · rename_i hexp
    cases h
    rw [← exactValue_expand, hexp, exactValue]
  · cases h

theorem partOf_expand (t : Ty) : t.expand.PartOf t := by
  induction t using Ty.induct with
  | synonym n args body _ ih =>
    rw [expand]
    exact .body ih
  | _ => exact .refl

theorem partOf_of_asCompare? {r : Comparison} (h : t.asCompare? r = some (a, b)) :
    a.PartOf t ∧ b.PartOf t := by
  obtain ⟨rest, hargs⟩ := asProp?_of_asCompare? h
  have hexpand := t.partOf_expand
  unfold asProp? at hargs
  split at hargs
  · rename_i hexp
    cases hargs
    rw [hexp] at hexpand
    exact ⟨hexpand.trans (.arg (by simp) .refl), hexpand.trans (.arg (by simp) .refl)⟩
  · cases hargs

theorem exactValue_pair {f : SizeOp} {y : ℕ∞} (h : (con (.op f) [a, b]).exactValue ρ = some y) :
    ∃ x z, a.exactValue ρ = some x ∧ b.exactValue ρ = some z ∧ f.exact [x, z] = some y := by
  rw [exactValue, Option.bind_eq_some_iff] at h
  obtain ⟨xs, hxs, hy⟩ := h
  simp only [exactValueList, Option.bind_eq_some_iff, Option.map_eq_some_iff,
    Option.some.injEq] at hxs
  obtain ⟨x, hx, _, ⟨z, hz, _, rfl, rfl⟩, rfl⟩ := hxs
  exact ⟨x, z, hx, hz, hy⟩

/-- The finite value of a closed size is a natural word, and its mathematical value. -/
theorem Faithful.evalFinite (h : t.Faithful) {n : Int} (hn : t.evalFinite = some n) :
    ∃ m : ℕ, n = m ∧ (m : Int) ≤ Word.maxValue ∧
      ∀ ρ x, t.exactValue ρ = some x → x = (m : ℕ∞) := by
  have hs : t.eval = some (.finite n) := by
    unfold Ty.evalFinite at hn
    split at hn
    · rename_i heq
      cases hn
      exact heq
    · cases hn
  obtain ⟨x, hx⟩ := h.exists_denotes hs
  obtain ⟨m, rfl, hm, -⟩ := hx.exists_natCast
  refine ⟨m, rfl, hm, fun ρ y hy => ?_⟩
  exact ((h.denotes_eval hs hy).eq_iff (.finite m hm)).mp rfl

end Ty

namespace Improve

/-! ## The steps of inverting -/

/-- One step of inverting a type: it has the value `n` if one of its parts has the value `m`. -/
inductive Step : Ty → Int → Ty → Int → Prop
  | body {k : Name} {args : List Ty} {b : Ty} {n : Int} : Step (.synonym k args b) n b n
  | addRight {a b : Ty} {m n : Int} (ha : a.evalFinite = some m) (h : m ≤ n) :
    Step (.con (.op .add) [a, b]) n b (Word.sub n m)
  | addLeft {a b : Ty} {k n : Int} (hb : b.evalFinite = some k) (h : k ≤ n) :
    Step (.con (.op .add) [a, b]) n a (Word.sub n k)
  | subLeft {a b : Ty} {k n : Int} (hb : b.evalFinite = some k) :
    Step (.con (.op .sub) [a, b]) n a (Word.add n k)
  | subRight {a b : Ty} {m n : Int} (ha : a.evalFinite = some m) (h : n ≤ m) :
    Step (.con (.op .sub) [a, b]) n b (Word.sub m n)
  | mulRight {a b : Ty} {m n : Int} (ha : a.evalFinite = some m) (hm : 0 < m)
    (h : Word.rem n m = 0) : Step (.con (.op .mul) [a, b]) n b (Word.quot n m)
  | mulLeft {a b : Ty} {k n : Int} (hb : b.evalFinite = some k) (hk : 0 < k)
    (h : Word.rem n k = 0) : Step (.con (.op .mul) [a, b]) n a (Word.quot n k)

/-- Steps of inverting, one after the other. -/
inductive Reaches : Ty → Int → Ty → Int → Prop
  | refl {t : Ty} {n : Int} : Reaches t n t n
  | step {t u w : Ty} {n m k : Int} (h : Step t n u m) (hs : Reaches u m w k) : Reaches t n w k

/-- The target of a difference that is reached leaves the words. -/
def TargetOverflows (t : Ty) (n : Int) : Prop :=
  ∃ a b m k, Reaches t n (.con (.op .sub) [a, b]) m ∧ b.evalFinite = some k ∧
    Word.maxValue < m + k

/-- Inverting takes steps down to the variable. -/
theorem invert_reaches {t u : Ty} {n : Int} {v : TyVar} (h : invert t n = some (v, u)) :
    ∃ m, u = .num m ∧ Reaches t n (.free v) m := by
  have hstep : ∀ {t w : Ty} {n k : Int}, Step t n w k →
      (∃ m, u = .num m ∧ Reaches w k (.free v) m) → ∃ m, u = .num m ∧ Reaches t n (.free v) m :=
    fun hs ⟨m, hu, hr⟩ => ⟨m, hu, .step hs hr⟩
  fun_induction invert t n with
  | case1 w n =>
    cases h
    exact ⟨n, rfl, .refl⟩
  | case2 _ _ body n ih => exact hstep .body (ih h)
  | case3 a b n m ha hle ih => exact hstep (.addRight ha hle) (ih h)
  | case4 a b n m _ _ k hle hb ih => exact hstep (.addLeft hb hle) (ih h)
  | case7 a b n k hb _ hle ih => exact hstep (.addLeft hb hle) (ih h)
  | case10 a b n k hb ih => exact hstep (.subLeft hb) (ih h)
  | case11 a b n m _ ha hle ih => exact hstep (.subRight ha hle) (ih h)
  | case14 a b n m ha hm ih => exact hstep (.mulRight ha hm.1 hm.2) (ih h)
  | case15 a b n m _ _ k hk hb ih => exact hstep (.mulLeft hb hk.1 hk.2) (ih h)
  | case18 a b n k hb _ hk ih => exact hstep (.mulLeft hb hk.1 hk.2) (ih h)
  | _ => cases h

/-! ## Forced values -/

/-- The part `u` must have the value `m` for `t` to have the value `n`, and this is enough. -/
def Forces (t : Ty) (n : ℕ) (u : Ty) (m : ℕ) : Prop :=
  ∀ ρ x, t.exactValue ρ = some x → ∃ y, u.exactValue ρ = some y ∧ (x = n ↔ y = m)

theorem Forces.refl (t : Ty) (n : ℕ) : Forces t n t n := fun _ x hx => ⟨x, hx, Iff.rfl⟩

theorem Forces.trans {t u w : Ty} {n m k : ℕ} (h : Forces t n u m) (h' : Forces u m w k) :
    Forces t n w k := by
  intro ρ x hx
  obtain ⟨y, hy, hxy⟩ := h ρ x hx
  obtain ⟨z, hz, hyz⟩ := h' ρ y hy
  exact ⟨z, hz, hxy.trans hyz⟩

/-- Steps go down into the type. -/
theorem Step.partOf {t u : Ty} {n m : Int} (h : Step t n u m) : u.PartOf t := by
  cases h with
  | body => exact .body .refl
  | addRight | subRight | mulRight => exact .arg (by simp) .refl
  | addLeft | subLeft | mulLeft => exact .arg (by simp) .refl

/-- A step keeps the target a natural word, and forces it. -/
theorem Step.forces {t u : Ty} {n : ℕ} {m : Int} (h : Step t n u m) (ht : t.Faithful)
    (hn : (n : Int) ≤ Word.maxValue) (hsum : ¬ TargetOverflows t n) :
    ∃ k : ℕ, m = k ∧ (k : Int) ≤ Word.maxValue ∧ Forces t n u k := by
  cases h with
  | body =>
    refine ⟨n, rfl, hn, fun ρ x hx => ⟨x, ?_, Iff.rfl⟩⟩
    rwa [Ty.exactValue] at hx
  | @addRight a b m _ ha hle =>
    obtain ⟨c, rfl, hc, hval⟩ := (ht.arg a (by simp)).evalFinite ha
    refine ⟨n - c, Word.sub_natCast hn (by omega), by omega, fun ρ x hx => ?_⟩
    obtain ⟨y, z, hy, hz, hx⟩ := Ty.exactValue_pair hx
    cases hx
    rw [hval ρ y hy]
    exact ⟨z, hz, natCast_add_eq_iff (by omega)⟩
  | @addLeft a b k _ hb hle =>
    obtain ⟨c, rfl, hc, hval⟩ := (ht.arg b (by simp)).evalFinite hb
    refine ⟨n - c, Word.sub_natCast hn (by omega), by omega, fun ρ x hx => ?_⟩
    obtain ⟨y, z, hy, hz, hx⟩ := Ty.exactValue_pair hx
    cases hx
    rw [hval ρ z hz, add_comm]
    exact ⟨y, hy, natCast_add_eq_iff (by omega)⟩
  | @subLeft a b k _ hb =>
    obtain ⟨c, rfl, hc, hval⟩ := (ht.arg b (by simp)).evalFinite hb
    have hle : ((n + c : ℕ) : Int) ≤ Word.maxValue := by
      by_contra hlt
      exact hsum ⟨u, b, n, c, .refl, hb, by omega⟩
    refine ⟨n + c, Word.wrap_natCast hle, hle, fun ρ x hx => ?_⟩
    obtain ⟨y, z, hy, hz, hx⟩ := Ty.exactValue_pair hx
    obtain rfl := hval ρ z hz
    obtain ⟨⟨hle, -⟩, hx⟩ := Option.ite_none_right_eq_some.mp hx
    cases hx
    exact ⟨y, hy, sub_natCast_eq_iff hle⟩
  | @subRight a b m _ ha hle =>
    obtain ⟨c, rfl, hc, hval⟩ := (ht.arg a (by simp)).evalFinite ha
    refine ⟨c - n, Word.sub_natCast hc (by omega), by omega, fun ρ x hx => ?_⟩
    obtain ⟨y, z, hy, hz, hx⟩ := Ty.exactValue_pair hx
    obtain rfl := hval ρ y hy
    obtain ⟨⟨hz', -⟩, hx⟩ := Option.ite_none_right_eq_some.mp hx
    cases hx
    exact ⟨z, hz, natCast_sub_eq_iff hz' (by omega)⟩
  | @mulRight a b m _ ha hm hrem =>
    obtain ⟨c, rfl, hc, hval⟩ := (ht.arg a (by simp)).evalFinite ha
    refine ⟨n / c, Word.quot_natCast c hn, natCast_div_le hn, fun ρ x hx => ?_⟩
    obtain ⟨y, z, hy, hz, hx⟩ := Ty.exactValue_pair hx
    cases hx
    rw [hval ρ y hy]
    exact ⟨z, hz, natCast_mul_eq_iff (by omega) hrem⟩
  | @mulLeft a b k _ hb hk hrem =>
    obtain ⟨c, rfl, hc, hval⟩ := (ht.arg b (by simp)).evalFinite hb
    refine ⟨n / c, Word.quot_natCast c hn, natCast_div_le hn, fun ρ x hx => ?_⟩
    obtain ⟨y, z, hy, hz, hx⟩ := Ty.exactValue_pair hx
    cases hx
    rw [hval ρ z hz, mul_comm]
    exact ⟨y, hy, natCast_mul_eq_iff (by omega) hrem⟩

theorem TargetOverflows.step {t u : Ty} {n m : Int} (h : Step t n u m) (hu : TargetOverflows u m) :
    TargetOverflows t n := by
  obtain ⟨a, b, l, k, hr, hk, hlt⟩ := hu
  exact ⟨a, b, l, k, .step h hr, hk, hlt⟩

/-- A sequence of steps keeps the target a natural word, and forces it. -/
theorem Reaches.forces {t u : Ty} {n m : Int} (h : Reaches t n u m) (ht : t.Faithful) {k : ℕ}
    (hk : n = k) (hmax : n ≤ Word.maxValue) (hsum : ¬ TargetOverflows t n) :
    ∃ l : ℕ, m = l ∧ (l : Int) ≤ Word.maxValue ∧ Forces t k u l := by
  induction h generalizing k with
  | @refl t n =>
    subst hk
    exact ⟨k, rfl, hmax, .refl t k⟩
  | step hstep _ ih =>
    subst hk
    obtain ⟨c, rfl, hc, hforces⟩ := hstep.forces ht hmax hsum
    obtain ⟨l, rfl, hl, hforces'⟩ :=
      ih (ht.part hstep.partOf) rfl hc fun hu => hsum (.step hstep hu)
    exact ⟨l, rfl, hl, hforces.trans hforces'⟩

/-- The value that a closed size gives to the variable of another size is forced. -/
theorem against_forces {a b t : Ty} {v : TyVar} (ha : a.Faithful) (hb : b.Faithful)
    (hsum : ∀ n, b.evalFinite = some n → ¬ TargetOverflows a n)
    (h : against a b.eval = some (v, t)) :
    ∃ (s : Size) (x : ℕ∞), t = s.toTy ∧ s.Denotes x ∧ ∀ ρ y z, a.exactValue ρ = some y →
      b.exactValue ρ = some z → (y = z ↔ ρ.var v.id = x) := by
  cases hs : b.eval with
  | none =>
    rw [hs] at h
    cases h
  | some s =>
    rw [hs] at h
    obtain ⟨x, hx⟩ := hb.exists_denotes hs
    have hvalue : ∀ ρ z, b.exactValue ρ = some z → z = x := fun ρ z hz =>
      ((hb.denotes_eval hs hz).eq_iff hx).mp rfl
    cases hfree : a.asFree? with
    | some w =>
      simp only [against, hfree, Option.some.injEq, Prod.mk.injEq] at h
      obtain ⟨rfl, rfl⟩ := h
      refine ⟨s, x, rfl, hx, fun ρ y z hy hz => ?_⟩
      rw [Ty.exactValue_of_asFree? hfree, Option.some.injEq] at hy
      rw [hvalue ρ z hz, hy]
    | none =>
      cases s with
      | inf => simp [against, hfree] at h
      | finite n =>
        simp only [against, hfree] at h
        obtain ⟨n, rfl, hn, rfl⟩ := hx.exists_natCast
        obtain ⟨m, rfl, hr⟩ := invert_reaches h
        obtain ⟨l, rfl, hl, hforces⟩ :=
          hr.forces ha rfl hn (hsum n (by rw [Ty.evalFinite, hs]))
        refine ⟨.finite l, l, rfl, .finite l hl, fun ρ y z hy hz => ?_⟩
        obtain ⟨u, hu, hyu⟩ := hforces ρ y hy
        rw [Ty.exactValue, Option.some.injEq] at hu
        rw [hvalue ρ z hz, hyu, hu]

end Improve

/-- The target of a difference that an equality is inverted to leaves the words. -/
def Improve.Overflows (p : Ty) : Prop :=
  ∃ a b n, p.asCompare? .equal = some (a, b) ∧
    (b.evalFinite = some n ∧ TargetOverflows a n ∨ a.evalFinite = some n ∧ TargetOverflows b n)

/-- The value that improvement gives to a variable is a natural word or infinite, and forced: where
both sides of the equality have a value, they have the same one exactly if the variable has this
value. -/
theorem improve_exact {p t : Ty} {v : TyVar} (hp : p.Faithful) (hsum : ¬ Improve.Overflows p)
    (h : improve p = some (v, t)) :
    ∃ (s : Size) (x : ℕ∞), t = s.toTy ∧ s.Denotes x ∧
      ∃ a b, p.asCompare? .equal = some (a, b) ∧ ∀ ρ y z, a.exactValue ρ = some y →
        b.exactValue ρ = some z → (y = z ↔ ρ.var v.id = x) := by
  unfold improve at h
  split at h
  · rename_i a b hab
    obtain ⟨ha, hb⟩ := Ty.partOf_of_asCompare? hab
    rcases Option.or_eq_some_iff.mp h with h | ⟨-, h⟩
    · obtain ⟨s, x, rfl, hx, hforces⟩ := Improve.against_forces (hp.part ha) (hp.part hb)
        (fun n hn htarget => hsum ⟨a, b, n, hab, .inl ⟨hn, htarget⟩⟩) h
      exact ⟨s, x, rfl, hx, a, b, hab, hforces⟩
    · obtain ⟨s, x, rfl, hx, hforces⟩ := Improve.against_forces (hp.part hb) (hp.part ha)
        (fun n hn htarget => hsum ⟨a, b, n, hab, .inr ⟨hn, htarget⟩⟩) h
      refine ⟨s, x, rfl, hx, a, b, hab, fun ρ y z hy hz => ?_⟩
      rw [eq_comm]
      exact hforces ρ z y hz hy
  · cases h

/-- A variable that stands for a size. -/
def sizeVar : TyVar := { id := 1, kind := .num }

/-- `2 * (v - 3)`. -/
def twiceLessThree : Ty := .op .mul [.num 2, .op .sub [.free sizeVar, .num 3]]

/-- `v - 9223372036854775807`. -/
def lessLargestWord : Ty := .op .sub [.free sizeVar, .num Word.maxValue]

/-- `2 * (v - 3) == 10` forces `v` to be `8`. -/
theorem improve_exact_product :
    improve (.equal twiceLessThree (.num 10)) = some (sizeVar, .num 8) ∧
      ∀ ρ y z, twiceLessThree.exactValue ρ = some y → (Ty.num 10).exactValue ρ = some z →
        (y = z ↔ ρ.var 1 = 8) := by
  have himprove : improve (.equal twiceLessThree (.num 10)) = some (sizeVar, .num 8) := by cbv
  have hfaithful : (Ty.equal twiceLessThree (.num 10)).Faithful := by
    refine Ty.faithful_equal (Ty.faithful_op ?_ fun _ _ h => h) (Ty.faithful_num (by decide))
    refine List.forall_mem_cons.mpr ⟨Ty.faithful_num (by decide), List.forall_mem_singleton.mpr ?_⟩
    refine Ty.faithful_op ?_ fun _ _ h => h
    simpa using ⟨Ty.faithful_free sizeVar, Ty.faithful_num (n := 3) (by decide)⟩
  have hsum : ¬ Improve.Overflows (.equal twiceLessThree (.num 10)) := by
    rintro ⟨a, b, n, hab, h⟩
    cases hab
    rcases h with ⟨hn, _, _, m, k, hr, hk, hlt⟩ | ⟨hn, -⟩
    · cases hn
      cases hr with
      | step hmul hr =>
        cases hmul with
        | mulLeft hb => cases hb
        | mulRight ha =>
          cases ha
          cases hr with
          | refl =>
            cases hk
            exact absurd hlt (by decide)
          | step hsub hr =>
            cases hsub with
            | subRight ha => cases ha
            | subLeft hb =>
              cases hr with
              | step h => cases h
    · cases hn
  obtain ⟨s, x, hs, hx, a, b, hab, hforces⟩ := improve_exact hfaithful hsum himprove
  cases hab
  refine ⟨himprove, fun ρ y z hy hz => ?_⟩
  rw [hforces ρ y z hy hz]
  cases hx with
  | finite m hm =>
    cases hs
    rfl
  | inf => cases hs

/-- `v - 9223372036854775807 == 1` binds `v` to a negative number. -/
theorem improve_wraps :
    (Ty.equal lessLargestWord (.num 1)).Faithful ∧
      improve (.equal lessLargestWord (.num 1)) = some (sizeVar, .num (-9223372036854775808)) ∧
      ¬ ∃ (s : Size) (x : ℕ∞), Ty.num (-9223372036854775808) = s.toTy ∧ s.Denotes x := by
  refine ⟨?_, by cbv, ?_⟩
  · refine Ty.faithful_equal (Ty.faithful_op ?_ fun _ _ h => h) (Ty.faithful_num (by decide))
    simpa using ⟨Ty.faithful_free sizeVar, Ty.faithful_num (n := Word.maxValue) (by decide)⟩
  · rintro ⟨s, x, hs, hx⟩
    cases hx with
    | finite m => cases hs
    | inf => cases hs

end SizedTypes
