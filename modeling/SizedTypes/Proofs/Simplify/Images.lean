import SizedTypes.Proofs.Simplify.Normal
import SizedTypes.Proofs.Simplify.Soundness

/-!
# Simplifying the image of a goal

The image of a type has shapes in place of its variables. Where these shapes have no size and are no
conjunctions, the simplifier follows a goal on its image: it finds the same sizes, takes apart the
same conjunctions, refutes what it refuted and reduces what it reduced to the images of the parts.
Where every variable stands for itself, the image of a goal is the goal up to synonyms.
-/

set_option autoImplicit false

namespace SizedTypes

namespace Ty

theorem shape_normalize_expand : ∀ t : Ty, t.expand.normalize.shape = t.normalize.shape
  | free _ | bound _ | con _ _ | record _ | newtype _ _ _ _ => rfl
  | synonym _ _ body => shape_normalize_expand body

end Ty

/-! ## Images -/

/-- Types of the shape `a` have no size, are no conjunctions and have the normal form `b`. -/
structure Shape.Blank (a b : Shape) : Prop where
  eval {t : Ty} : t.shape = a → t.eval = none
  whole {t : Ty} : t.shape = a → t.isJunction = false
  normalize {t : Ty} : t.shape = a → t.normalize.shape = b

theorem Ty.expand_of_shape_var {t : Ty} {i : Int} (h : t.shape = .var i) :
    ∃ v, t.expand = .free v ∧ v.id = i := by
  rw [← shape_expand] at h
  cases ht : t.expand with
  | free v => exact ⟨v, rfl, by simpa [ht] using h⟩
  | synonym n args body => exact absurd ht expand_ne_synonym
  | _ => simp [ht] at h

theorem Shape.blank_var (i : Int) : Blank (.var i) (.var i) where
  eval h := by
    obtain ⟨v, ht, -⟩ := Ty.expand_of_shape_var h
    rw [← Ty.eval_expand, ht]
    rfl
  whole h := by
    obtain ⟨v, ht, -⟩ := Ty.expand_of_shape_var h
    rw [Ty.isJunction, Ty.asProp?, ht]
  normalize h := by
    obtain ⟨v, ht, hv⟩ := Ty.expand_of_shape_var h
    rw [← Ty.shape_normalize_expand, ht, ← hv]
    rfl

theorem Con.eq_of_key {c d : Con} (hc : ∀ n k, c ≠ .abstract n k) (h : d.key = c.key) : d = c := by
  obtain heq | ⟨-, -, m, l, -, hd⟩ := Con.eq_or_abstract_of_same (Con.same_iff_key.mpr h)
  · exact heq
  · exact absurd hd (hc m l)

namespace Ty

theorem shape_record_snd (fs : List (String × Ty)) :
    (record fs).shape = .node (.record (fs.map Prod.fst)) ((fs.map Prod.snd).map shape) := by
  rw [shape_record, List.map_map]
  rfl

theorem labels_normalizeFields (fs : List (String × Ty)) :
    (normalizeFields fs).map Prod.fst = fs.map Prod.fst := by
  rw [normalizeFields_eq_map, List.map_map]
  rfl

theorem types_normalizeFields (fs : List (String × Ty)) :
    (normalizeFields fs).map Prod.snd = normalizeList (fs.map Prod.snd) := by
  rw [normalizeFields_eq_map, normalizeList_eq_map, List.map_map, List.map_map]
  rfl

/-- `u` is `t` with the shapes of `F` in place of variables. -/
def Image (F : Int → Shape) (t u : Ty) : Prop := u.shape = t.shape.subst F

section image

variable {F G : Int → Shape} {t u : Ty}

theorem image_self {t u : Ty} : t.Image Shape.var u ↔ u.shape = t.shape := by
  rw [Image, Shape.subst_self]

theorem Image.expand (h : t.Image F u) : t.expand.Image F u.expand := by
  rwa [Image, shape_expand, shape_expand]

theorem map_image_iff {ts us : List Ty} :
    us.map shape = (ts.map shape).map (Shape.subst F) ↔ List.Forall₂ (Image F) ts us := by
  rw [List.map_map, eq_comm, ← List.forall₂_eq_eq_eq, List.forall₂_map_left_iff,
    List.forall₂_map_right_iff]
  exact ⟨fun h => h.imp fun _ _ h => h.symm, fun h => h.imp fun _ _ h => h.symm⟩

theorem Image.con {c : Con} {args : List Ty} (h : (con c args).Image F u) :
    ∃ d us, u.expand = .con d us ∧ d.key = c.key ∧ List.Forall₂ (Image F) args us := by
  rw [Image, shape_con, Shape.subst_node, ← shape_expand] at h
  cases hu : u.expand with
  | con d us =>
    rw [hu, shape_con, Shape.node.injEq] at h
    exact ⟨d, us, rfl, ShapeHead.con.inj h.1, map_image_iff.mp h.2⟩
  | synonym n args body => exact absurd hu expand_ne_synonym
  | _ => simp [hu] at h

/-- A constructor other than an abstract type is kept as it is. -/
theorem Image.con_eq {c : Con} {args : List Ty} (h : (Ty.con c args).Image F u)
    (hc : ∀ n k, c ≠ .abstract n k) :
    ∃ us, u.expand = .con c us ∧ List.Forall₂ (Image F) args us := by
  obtain ⟨d, us, hu, hkey, hargs⟩ := h.con
  exact ⟨us, Con.eq_of_key hc hkey ▸ hu, hargs⟩

theorem Image.bound {p : Param} (h : (bound p).Image F u) :
    ∃ q, u.expand = .bound q ∧ q.id = p.id := by
  rw [Image, shape_bound, Shape.subst_param, ← shape_expand] at h
  cases hu : u.expand with
  | bound q => exact ⟨q, rfl, by simpa [hu] using h⟩
  | synonym n args body => exact absurd hu expand_ne_synonym
  | _ => simp [hu] at h

theorem Image.newtype {n : Name} {ps : List Param} {fs : List (String × Ty)} {args : List Ty}
    (h : (newtype n ps fs args).Image F u) :
    ∃ m qs gs us, u.expand = .newtype m qs gs us ∧ m.id = n.id ∧
      List.Forall₂ (Image F) args us := by
  rw [Image, shape_newtype, Shape.subst_node, ← shape_expand] at h
  cases hu : u.expand with
  | newtype m qs gs us =>
    rw [hu, shape_newtype, Shape.node.injEq] at h
    exact ⟨m, qs, gs, us, rfl, ShapeHead.newtype.inj h.1, map_image_iff.mp h.2⟩
  | synonym n args body => exact absurd hu expand_ne_synonym
  | _ => simp [hu] at h

theorem Image.record {fs : List (String × Ty)} (h : (record fs).Image F u) :
    ∃ gs, u.expand = .record gs ∧ gs.map Prod.fst = fs.map Prod.fst ∧
      List.Forall₂ (Image F) (fs.map Prod.snd) (gs.map Prod.snd) := by
  rw [Image, shape_record_snd, Shape.subst_node, ← shape_expand] at h
  cases hu : u.expand with
  | record gs =>
    rw [hu, shape_record_snd, Shape.node.injEq] at h
    exact ⟨gs, rfl, ShapeHead.record.inj h.1, map_image_iff.mp h.2⟩
  | synonym n args body => exact absurd hu expand_ne_synonym
  | _ => simp [hu] at h

/-- Types built alike from images are images. -/
theorem image_con {c d : Con} {args us : List Ty} (hkey : d.key = c.key)
    (h : List.Forall₂ (Image F) args us) : (con c args).Image F (con d us) := by
  rw [Image, shape_con, shape_con, Shape.subst_node, map_image_iff.mpr h, hkey]

/-! ## Sizes -/

theorem evalList_congr {ts us : List Ty} (h : List.Forall₂ (fun t u => u.eval = t.eval) ts us) :
    evalList us = evalList ts := by
  induction h with
  | nil => rfl
  | cons hhead _ ih => rw [evalList, evalList, hhead, ih]

theorem forall₂_of_mem {α β : Type} {R S : α → β → Prop} {as : List α} {bs : List β}
    (h : List.Forall₂ R as bs) (hRS : ∀ a ∈ as, ∀ b, R a b → S a b) : List.Forall₂ S as bs := by
  induction h with
  | nil => exact .nil
  | cons hhead _ ih =>
    obtain ⟨ha, has⟩ := List.forall_mem_cons.mp hRS
    exact .cons (ha _ hhead) (ih has)

variable (hF : ∀ i, Shape.Blank (F i) (G i))

include hF

/-- The image of a size has the same value. -/
theorem Image.eval (h : t.Image F u) : u.eval = t.eval := by
  induction t using Ty.induct generalizing u with
  | free v => exact (hF v.id).eval h
  | bound p =>
    obtain ⟨q, hu, -⟩ := h.bound
    rw [← eval_expand, hu]
    rfl
  | con c args ih =>
    obtain ⟨d, us, hu, hkey, hargs⟩ := h.con
    have hlist : evalList us = evalList args :=
      evalList_congr (forall₂_of_mem hargs fun a ha u h => ih a ha h)
    rw [← eval_expand, hu]
    obtain rfl | ⟨n, k, m, l, rfl, rfl⟩ :=
      Con.eq_or_abstract_of_same (Con.same_iff_key.mpr hkey)
    · cases d <;> simp only [Ty.eval, hlist]
    · simp only [Ty.eval]
  | record fs _ =>
    obtain ⟨gs, hu, -⟩ := h.record
    rw [← eval_expand, hu]
    rfl
  | newtype n ps fs args _ =>
    obtain ⟨m, qs, gs, us, hu, -⟩ := h.newtype
    rw [← eval_expand, hu]
    rfl
  | synonym n args body _ ih => exact ih h

/-- The normal form of an image is an image of the normal form. -/
theorem Image.normalize (h : t.Image F u) : t.normalize.Image G u.normalize := by
  have hlist {ts us : List Ty} (hts : List.Forall₂ (Image F) ts us)
      (ih : ∀ t ∈ ts, ∀ {u : Ty}, t.Image F u → t.normalize.Image G u.normalize) :
      List.Forall₂ (Image G) (normalizeList ts) (normalizeList us) := by
    rw [normalizeList_eq_map, normalizeList_eq_map, List.forall₂_map_left_iff,
      List.forall₂_map_right_iff]
    exact forall₂_of_mem hts fun t ht u h => ih t ht h
  induction t using Ty.induct generalizing u with
  | free v => exact (hF v.id).normalize h
  | bound p =>
    obtain ⟨q, hu, hid⟩ := h.bound
    rw [Image, ← shape_normalize_expand u, hu]
    simp [Ty.normalize, hid]
  | con c args ih =>
    have heval := h.eval hF
    obtain ⟨d, us, hu, hkey, hargs⟩ := h.con
    have himage := hlist hargs ih
    rw [← eval_expand, hu] at heval
    rw [Image, ← shape_normalize_expand u, hu, ← Image]
    cases c with
    | op f =>
      obtain rfl : d = .op f := Con.eq_of_key (by simp) hkey
      rw [normalize_op, normalize_op, heval]
      cases (Ty.con (.op f) args).eval with
      | none => exact image_con rfl himage
      | some n => cases n <;> simp [Image, Size.toTy, num, inf]
    | _ =>
      cases d <;> first | exact image_con hkey himage | cases hkey
  | record fs ih =>
    obtain ⟨gs, hu, hlabels, hfields⟩ := h.record
    have himage := hlist hfields fun t ht => by
      obtain ⟨e, he, rfl⟩ := List.mem_map.mp ht
      exact ih e he
    rw [Image, ← shape_normalize_expand u, hu, Ty.normalize, Ty.normalize, shape_record_snd,
      shape_record_snd, Shape.subst_node, labels_normalizeFields, labels_normalizeFields, hlabels,
      types_normalizeFields, types_normalizeFields, map_image_iff.mpr himage]
  | newtype n ps fs args ih =>
    obtain ⟨m, qs, gs, us, hu, hid, hargs⟩ := h.newtype
    have himage := hlist hargs ih
    rw [Image, ← shape_normalize_expand u, hu, Ty.normalize, Ty.normalize, shape_newtype,
      shape_newtype, Shape.subst_node, map_image_iff.mpr himage, hid]
  | synonym n args body _ ih => exact ih h

/-! ## Conjunctions -/

omit hF in
theorem Image.asProp? {pc : PropCon} {args : List Ty} (h : t.Image F u)
    (ht : t.asProp? = some (pc, args)) :
    ∃ us, u.asProp? = some (pc, us) ∧ List.Forall₂ (Image F) args us := by
  induction t using Ty.induct generalizing u with
  | con c ts _ =>
    cases c with
    | prop p =>
      cases ht
      obtain ⟨us, hu, hargs⟩ := h.con_eq (by simp)
      exact ⟨us, by rw [Ty.asProp?, hu], hargs⟩
    | _ => cases ht
  | synonym n ts body _ ih => exact ih h ht
  | free v | bound p | record fs _ | newtype n ps fs ts _ => cases ht

omit hF in
theorem Image.asCompare? {r : Comparison} {a b : Ty} (h : t.Image F u)
    (ht : t.asCompare? r = some (a, b)) :
    ∃ a' b', u.asCompare? r = some (a', b') ∧ a.Image F a' ∧ b.Image F b' := by
  unfold Ty.asCompare? at ht
  split at ht
  · rename_i r' x y args hprop
    obtain ⟨us, hu, hargs⟩ := h.asProp? hprop
    obtain _ | ⟨ha, _ | ⟨hb, _⟩⟩ := hargs
    split at ht
    · rename_i hr
      cases ht
      exact ⟨_, _, by simp [Ty.asCompare?, hu, hr], ha, hb⟩
    · cases ht
  · cases ht

theorem Image.isJunction (h : t.Image F u) : u.isJunction = t.isJunction := by
  induction t using Ty.induct generalizing u with
  | free v => exact (hF v.id).whole h
  | bound p =>
    obtain ⟨q, hu, -⟩ := h.bound
    rw [Ty.isJunction, Ty.asProp?, hu]
    rfl
  | con c args _ =>
    obtain ⟨d, us, hu, hkey, -⟩ := h.con
    rw [Ty.isJunction, Ty.asProp?, hu]
    cases c with
    | prop pc =>
      obtain rfl : d = .prop pc := Con.eq_of_key (by simp) hkey
      cases pc <;> rfl
    | _ => cases d <;> first | rfl | cases hkey
  | record fs _ =>
    obtain ⟨gs, hu, -⟩ := h.record
    rw [Ty.isJunction, Ty.asProp?, hu]
    rfl
  | newtype n ps fs args _ =>
    obtain ⟨m, qs, gs, us, hu, -⟩ := h.newtype
    rw [Ty.isJunction, Ty.asProp?, hu]
    rfl
  | synonym n args body _ ih => exact ih h

omit hF in
theorem conjuncts_of_isJunction :
    ∀ {t : Ty}, t.isJunction = true → t.conjuncts = t.expand.conjuncts
  | .synonym _ _ body, h => by
    have hbody : body.isJunction = true := h
    rw [Ty.conjuncts, if_pos hbody, conjuncts_of_isJunction hbody, Ty.expand]
  | .free _, _ | .bound _, _ | .con _ _, _ | .record _, _ | .newtype _ _ _ _, _ => rfl

/-- The parts of an image are the images of the parts. -/
theorem Image.conjuncts (h : t.Image F u) : List.Forall₂ (Image F) t.conjuncts u.conjuncts := by
  have hwhole {t u : Ty} (h : t.Image F u) (ht : t.isJunction = false) :
      List.Forall₂ (Image F) t.conjuncts u.conjuncts := by
    rw [conjuncts_eq_self ht, conjuncts_eq_self ((h.isJunction hF).trans ht)]
    exact .cons h .nil
  induction t using Ty.induct generalizing u with
  | con c args ih =>
    cases ht : (Ty.con c args).isJunction with
    | false => exact hwhole h ht
    | true =>
      rw [conjuncts_of_isJunction ((h.isJunction hF).trans ht)]
      cases c with
      | prop pc =>
        obtain ⟨us, hu, hargs⟩ := h.con_eq (by simp)
        rw [hu]
        cases pc with
        | trivial => exact .nil
        | conj =>
          rw [Ty.conjuncts, Ty.conjuncts, conjunctsList_eq_flatMap, conjunctsList_eq_flatMap]
          exact List.rel_flatten (List.forall₂_map_left_iff.mpr (List.forall₂_map_right_iff.mpr
            (forall₂_of_mem hargs fun a ha _ h => ih a ha h)))
        | _ => cases ht
      | _ => cases ht
  | synonym n args body _ ih =>
    cases ht : body.isJunction with
    | false => exact hwhole h ht
    | true =>
      rw [Ty.conjuncts, if_pos ht]
      exact ih h
  | free v | bound p | record fs _ | newtype n ps fs args _ => exact hwhole h rfl

end image

end Ty
end SizedTypes
