import SizedTypes.Proofs.Simplify.Images

/-!
# Steps on images

A verdict about a type that is not known yet is right for whatever the type turns out to be. Where
the simplifier refutes a predicate it refutes each of its images, and where it reduces a predicate
it reduces the image to the images of the parts; only what it leaves undecided may become clear.
-/

set_option autoImplicit false

namespace SizedTypes

open Ty

variable {F G : Int → Shape}

/-- `w` is what `v` says, about the image of what `v` is about. -/
inductive Verdict.Follows (F : Int → Shape) : Verdict → Verdict → Prop
  | undecided {w : Verdict} : Follows F .undecided w
  | unsolvable : Follows F .unsolvable .unsolvable
  | reduced {ts us : List Ty} (h : List.Forall₂ (Image F) ts us) :
    Follows F (.reduced ts) (.reduced us)

attribute [simp] Verdict.Follows.undecided Verdict.Follows.unsolvable

@[simp] theorem Verdict.follows_reduced {ts us : List Ty} :
    Follows F (.reduced ts) (.reduced us) ↔ List.Forall₂ (Image F) ts us :=
  ⟨fun h => by cases h; assumption, .reduced⟩

@[simp] theorem Verdict.follows_holds : Follows F .holds .holds := .reduced .nil

theorem Verdict.Follows.eq_unsolvable {w : Verdict} (h : Follows F .unsolvable w) :
    w = .unsolvable := by
  cases h
  rfl

theorem Verdict.Follows.eq_undecided {v : Verdict} (h : Follows F v .undecided) :
    v = .undecided := by
  cases h
  rfl

theorem Verdict.Follows.of_reduced {ts : List Ty} {w : Verdict} (h : Follows F (.reduced ts) w) :
    ∃ us, w = .reduced us ∧ List.Forall₂ (Image F) ts us := by
  cases h
  exact ⟨_, rfl, by assumption⟩

theorem Verdict.follows_ite {c d : Prop} [Decidable c] [Decidable d] (h : c ↔ d) :
    Follows F (if c then .holds else .unsolvable) (if d then .holds else .unsolvable) := by
  by_cases hc : c
  · rw [if_pos hc, if_pos (h.mp hc)]
    exact follows_holds
  · rw [if_neg hc, if_neg fun hd => hc (h.mpr hd)]
    exact .unsolvable

/-! ## Images of predicates -/

namespace Ty

theorem image_con_iff {c : Con} {args us : List Ty} :
    (con c args).Image F (con c us) ↔ List.Forall₂ (Image F) args us := by
  refine ⟨fun h => ?_, image_con rfl⟩
  rw [Image, shape_con, shape_con, Shape.subst_node, Shape.node.injEq] at h
  exact map_image_iff.mp h.2

@[simp] theorem image_fin {t u : Ty} : (fin t).Image F (fin u) ↔ t.Image F u := by
  simp [fin, image_con_iff]

@[simp] theorem image_prime {t u : Ty} : (prime t).Image F (prime u) ↔ t.Image F u := by
  simp [prime, image_con_iff]

@[simp] theorem image_geq {a b c d : Ty} :
    (geq a b).Image F (geq c d) ↔ a.Image F c ∧ b.Image F d := by
  simp [geq, compare, image_con_iff]

@[simp] theorem image_op {f : SizeOp} {ts us : List Ty} :
    (op f ts).Image F (op f us) ↔ List.Forall₂ (Image F) ts us := by
  rw [op, op, image_con_iff]

@[simp] theorem image_num {n : Int} : (num n).Image F (num n) := image_con rfl .nil

@[simp] theorem image_cls {c : TyClass} {t u : Ty} :
    (cls c [t]).Image F (cls c [u]) ↔ t.Image F u := by
  simp [cls, image_con_iff]

end Ty

/-! ## Instances of classes -/

namespace TyClass

variable {c : TyClass} {vals vals' : List Ty}

section instances

variable (h : List.Forall₂ (Image F) vals vals')

include h

theorem follows_forBit : (c.forBit vals).Follows F (c.forBit vals') := by
  cases h <;> cases c <;> simp_all [forBit]

theorem follows_forInteger : (c.forInteger vals).Follows F (c.forInteger vals') := by
  cases h <;> cases c <;> simp_all [forInteger]

theorem follows_forRational : (c.forRational vals).Follows F (c.forRational vals') := by
  rcases h with _ | ⟨_, _ | _⟩ <;> cases c <;> simp_all [forRational]

theorem follows_forIntMod {n m : Ty} (hn : n.Image F m) :
    (c.forIntMod vals n).Follows F (c.forIntMod vals' m) := by
  cases h <;> cases c <;> simp_all [forIntMod]

theorem follows_forSeq {n m a b : Ty} (hn : n.Image F m) (ha : a.Image F b)
    (helem : Element.of a = .unknown ∨ Element.of b = Element.of a) :
    (c.forSeq vals n a).Follows F (c.forSeq vals' m b) := by
  unfold forSeq
  rcases helem with helem | helem
  · rw [helem]
    cases c <;> simp_all
  · rw [helem]
    cases Element.of a <;> cases h <;> cases c <;> simp_all

end instances

/-- A known element type stays a bit, or stays something else. -/
theorem Element.of_image {a b : Ty} (h : a.Image F b) :
    Element.of a.expand = .unknown ∨ Element.of b.expand = Element.of a.expand := by
  induction a using Ty.induct with
  | free v => exact .inl rfl
  | bound p =>
    obtain ⟨q, hb, -⟩ := h.bound
    exact .inr (by rw [hb]; rfl)
  | con d args _ =>
    obtain ⟨e, us, hb, hkey, hargs⟩ := h.con
    have hsame : (Ty.con e us).same Ty.bit = (Ty.con d args).same Ty.bit := by
      rw [Bool.eq_iff_iff, same_iff_shape, same_iff_shape, Ty.bit, shape_con, shape_con, shape_con,
        hkey]
      simp [← List.length_eq_zero_iff, hargs.length_eq]
    rw [hb]
    exact .inr (by rw [Ty.expand, Element.of, Element.of, hsame] <;> simp)
  | record fs _ =>
    obtain ⟨gs, hb, -⟩ := h.record
    exact .inr (by rw [hb]; rfl)
  | newtype n ps fs args _ =>
    obtain ⟨m, qs, gs, us, hb, -⟩ := h.newtype
    exact .inr (by rw [hb]; rfl)
  | synonym n args body _ ih => exact ih h

theorem follows_instanceFor {t u : Ty} (h : List.Forall₂ (Image F) vals vals') (ht : t.Image F u) :
    (c.instanceFor vals t.expand).Follows F (c.instanceFor vals' u.expand) := by
  have hparts {ts us : List Ty} (hts : List.Forall₂ (Image F) ts us) :
      List.Forall₂ (Image F) (ts.map fun t => cls c [t]) (us.map fun u => cls c [u]) := by
    rw [List.forall₂_map_left_iff, List.forall₂_map_right_iff]
    exact hts.imp fun _ _ => image_cls.mpr
  induction t using Ty.induct with
  | free v => exact .undecided
  | bound p => exact .undecided
  | con d args _ =>
    cases d with
    | bit =>
      obtain ⟨us, hu, -⟩ := ht.con_eq (by simp)
      rw [hu]
      exact follows_forBit h
    | integer =>
      obtain ⟨us, hu, -⟩ := ht.con_eq (by simp)
      rw [hu]
      exact follows_forInteger h
    | rational =>
      obtain ⟨us, hu, -⟩ := ht.con_eq (by simp)
      rw [hu]
      exact follows_forRational h
    | tuple k =>
      obtain ⟨us, hu, hargs⟩ := ht.con_eq (by simp)
      simp only [hu, Ty.expand, instanceFor]
      split
      · exact .reduced (hparts hargs)
      · exact .unsolvable
    | arrow =>
      obtain ⟨us, hu, hargs⟩ := ht.con_eq (by simp)
      rw [hu]
      rcases hargs with _ | ⟨_, _ | ⟨hres, _⟩⟩
      · exact .unsolvable
      · exact .unsolvable
      · simp only [Ty.expand, instanceFor]
        split
        · exact .reduced (hparts (.cons hres .nil))
        · exact .unsolvable
    | intMod =>
      obtain ⟨us, hu, hargs⟩ := ht.con_eq (by simp)
      rw [hu]
      rcases hargs with _ | ⟨hn, _⟩
      · exact .unsolvable
      · exact follows_forIntMod h hn
    | seq =>
      obtain ⟨us, hu, hargs⟩ := ht.con_eq (by simp)
      rw [hu]
      rcases hargs with _ | ⟨hn, _ | ⟨helem, _⟩⟩
      · exact .unsolvable
      · exact .unsolvable
      · exact follows_forSeq h hn helem.expand (Element.of_image helem)
    | _ =>
      obtain ⟨e, us, hu, hkey, -⟩ := ht.con
      rw [hu]
      cases e <;> first | exact .unsolvable | cases hkey
  | record fs _ =>
    obtain ⟨gs, hu, -, hfields⟩ := ht.record
    simp only [hu, Ty.expand, instanceFor]
    split
    · have himage := hparts hfields
      rw [List.map_map, List.map_map] at himage
      exact .reduced himage
    · exact .unsolvable
  | newtype n ps fs args _ =>
    obtain ⟨m, qs, gs, us, hu, -⟩ := ht.newtype
    rw [hu]
    exact .unsolvable
  | synonym n args body _ ih => exact ih ht

theorem follows_step {args args' : List Ty} (h : List.Forall₂ (Image F) args args') :
    (c.step args).Follows F (c.step args') := by
  unfold step
  rcases List.eq_nil_or_concat args with rfl | ⟨vals, t, rfl⟩
  · exact .undecided
  · rcases List.eq_nil_or_concat args' with rfl | ⟨vals', u, rfl⟩
    · simpa using h.length_eq
    · have hlast := List.forall₂_reverse_iff.mpr h
      rw [List.concat_eq_append, List.concat_eq_append, List.reverse_concat, List.reverse_concat,
        List.forall₂_cons] at hlast
      simpa using follows_instanceFor (List.forall₂_reverse_iff.mp hlast.2) hlast.1

end TyClass

/-! ## Steps -/

namespace Simplify

variable {t u a b a' b' : Ty}

section steps

variable (hF : ∀ i, Shape.Blank (F i) (G i))

include hF

theorem follows_finStep (h : t.Image F u) : (finStep t).Follows F (finStep u) := by
  have heval := h.eval hF
  rw [finStep, finStep, heval]
  cases ht : t.eval with
  | some n => exact Verdict.follows_ite Iff.rfl
  | none =>
    clear heval ht
    induction t using Ty.induct with
    | con c args _ =>
      cases c with
      | op f =>
        obtain ⟨us, hu, hargs⟩ := h.con_eq (by simp)
        simp only [hu, Ty.expand]
        rcases hargs with _ | ⟨ha, _ | ⟨hb, _⟩⟩
        · cases f <;> exact .undecided
        · have hone := List.Forall₂.cons (image_fin.mpr ha) .nil
          cases f <;> first | exact .undecided | exact .reduced hone
        · have hone := List.Forall₂.cons (image_fin.mpr ha) .nil
          have htwo := List.Forall₂.cons (image_fin.mpr ha) (.cons (image_fin.mpr hb) .nil)
          cases f <;> first | exact .undecided | exact .reduced hone | exact .reduced htwo
      | _ => exact .undecided
    | synonym n args body _ ih => exact ih h
    | _ => exact .undecided

theorem follows_compareStep {r : Comparison} (ha : a.Image F a') (hb : b.Image F b') :
    (compareStep r a b).Follows F (compareStep r a' b') := by
  have hsame : a.same b = true → a'.same b' = true := by
    rw [same_iff_shape, same_iff_shape, ha, hb]
    exact congrArg _
  have hequal (h : a'.same b' = true) : a'.eval = b'.eval :=
    ((image_self.mpr ((same_iff_shape a' b').mp h).symm).eval Shape.blank_var).symm
  have hrefl (hr : r ≠ .neq) (n : Size) : compareSizes r n n = true := by
    cases r <;> cases n <;> simp_all [compareSizes, Size.geq]
  rw [ha.eval hF, hb.eval hF] at hequal
  unfold compareStep
  rw [ha.eval hF, hb.eval hF]
  by_cases h : r ≠ .neq ∧ a.same b = true
  · rw [if_pos h, if_pos ⟨h.1, hsame h.2⟩]
    exact Verdict.follows_holds
  · rw [if_neg h]
    by_cases h' : r ≠ .neq ∧ a'.same b' = true
    · -- the sides have become the same, so their values are
      rw [if_pos h', hequal h'.2]
      cases b.eval with
      | none =>
        dsimp only
        split <;> simp
      | some n => simp [hrefl h'.1 n]
    · rw [if_neg h']
      cases a.eval <;> cases b.eval <;> dsimp only <;> split <;> simp

theorem follows_primeStep (h : t.Image F u) : (primeStep t).Follows F (primeStep u) := by
  unfold primeStep
  rw [h.eval hF]
  cases t.eval with
  | none => exact .undecided
  | some n =>
    cases n with
    | finite n => exact Verdict.follows_ite Iff.rfl
    | inf => exact .unsolvable

/-- A step on a predicate is followed on its image. -/
theorem follows_step (h : t.Image F u) : (step t).Follows F (step u) := by
  unfold step
  cases ht : t.asProp? with
  | none => exact .undecided
  | some e =>
    obtain ⟨pc, args⟩ := e
    obtain ⟨us, hu, hargs⟩ := h.asProp? ht
    rw [hu]
    cases pc with
    | cls c => exact TyClass.follows_step hargs
    | fin =>
      rcases hargs with _ | ⟨hn, _⟩
      · exact .undecided
      · exact follows_finStep hF hn
    | compare r =>
      rcases hargs with _ | ⟨ha, _ | ⟨hb, _⟩⟩
      · exact .undecided
      · exact .undecided
      · exact follows_compareStep hF ha hb
    | prime =>
      rcases hargs with _ | ⟨hn, _⟩
      · exact .undecided
      · exact follows_primeStep hF hn
    | trivial => exact .reduced .nil
    | _ => exact .undecided

end steps

end Simplify
end SizedTypes
