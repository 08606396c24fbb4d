import Mathlib.Logic.Relation
import SizedTypes.Proofs.Subst.Scope
import SizedTypes.Proofs.Ty.Shape
import SizedTypes.Proofs.Ty.WellKinded
import SizedTypes.Unify

/-!
# Unification step by step

Unification is a reduction of problems. A problem is the bindings found so far, the equalities put
off and the pairs that are left. Each reduction takes the first pair apart. Reduction ends from every
problem, and `solve` returns exactly the bindings and equalities of the problem without pairs that it
reaches.

What becomes of a pair without outer synonyms holds under a map exactly if the map unifies the
pair. That the pair follows is true up to any congruence, so equalities put off may be taken as
they stand. A step binds only a side of the pair that is a variable, to the other side, or takes both
sides apart.
-/

set_option autoImplicit false

namespace SizedTypes.Unify

/-! ## Reduction -/

open Relation (ReflTransGen)

structure Problem where
  subst : Subst
  props : List Ty
  pairs : List (Ty × Ty)

inductive Reduces : Problem → Problem → Prop
  | done {s : Subst} {props : List Ty} {a b : Ty} {rest : List (Ty × Ty)} :
      step s a b = .ok .done → Reduces ⟨s, props, (a, b) :: rest⟩ ⟨s, props, rest⟩
  | defer {s : Subst} {props : List Ty} {a b p : Ty} {rest : List (Ty × Ty)} :
      step s a b = .ok (.defer p) →
      Reduces ⟨s, props, (a, b) :: rest⟩ ⟨s, props ++ [p], rest⟩
  | pairs {s : Subst} {props : List Ty} {a b : Ty} {ps rest : List (Ty × Ty)} :
      step s a b = .ok (.pairs ps) →
      Reduces ⟨s, props, (a, b) :: rest⟩ ⟨s, props, ps ++ rest⟩
  | assign {s s' : Subst} {props : List Ty} {a b t : Ty} {v : TyVar}
      {fresh : t.occurs v.id = false} {rest : List (Ty × Ty)} :
      step s a b = .ok (.assign v t fresh) → commit s v t = .ok s' →
      Reduces ⟨s, props, (a, b) :: rest⟩ ⟨s', props, replacePairs v.id t rest⟩

/-! ### Termination -/

def Problem.measure (p : Problem) : Nat × Nat := (distinctCount (pairIds p.pairs), pairSize p.pairs)

theorem Reduces.measure_lt {p q : Problem} (h : Reduces p q) :
    Prod.Lex (· < ·) (· < ·) q.measure p.measure := by
  cases h with
  | done _ => exact lex_cons ..
  | defer _ => exact lex_cons ..
  | @pairs s props a b ps rest hstep =>
    obtain ⟨hids, hsize⟩ := shrinks_of_step hstep
    refine lex_of_subset (fun x hx => ?_) ?_
    · simp only [pairIds_append, pairIds_cons, List.mem_append] at hx ⊢
      exact hx.imp_left (hids x)
    · simp only [pairSize_append, pairSize_cons]
      omega
  | @assign s s' props a b t v fresh rest hstep _ =>
    obtain ⟨hv, ht⟩ := concerns_of_step hstep
    refine Prod.Lex.left _ _ (distinctCount_lt_of_subset (x := v.id) (fun x hx => ?_) ?_ ?_)
    · rcases mem_pairIds_replace hx with ⟨hx, -⟩ | hx
      · simp [pairIds_cons, hx]
      · simp only [pairIds_cons, List.mem_append]
        exact Or.inl (ht x hx)
    · simp only [pairIds_cons, List.mem_append]
      exact Or.inl hv
    · intro hx
      rcases mem_pairIds_replace hx with ⟨-, hne⟩ | hx
      · exact hne rfl
      · exact not_mem_varIds_of_occurs fresh hx

/-- No problem can be reduced forever. -/
theorem reduces_acc (p : Problem) : Acc (fun q p => Reduces p q) p := by
  have hwf : WellFounded (Prod.Lex (· < · : Nat → Nat → Prop) (· < · : Nat → Nat → Prop)) :=
    (Prod.lex Nat.lt_wfRel Nat.lt_wfRel).wf
  exact Subrelation.accessible (fun h => Reduces.measure_lt h) (InvImage.accessible _ (hwf.apply _))

/-! ### Reduction and `solve` -/

def Problem.solve (p : Problem) : Except UnifyError (Subst × List Ty) :=
  Unify.solve p.subst p.props p.pairs

theorem Reduces.solve_eq {p q : Problem} (h : Reduces p q) : p.solve = q.solve := by
  cases h with
  | done hstep =>
    rw [Problem.solve, Unify.solve]
    split <;> simp_all [Problem.solve]
  | defer hstep =>
    rw [Problem.solve, Unify.solve]
    split <;> simp_all [Problem.solve]
  | pairs hstep =>
    rw [Problem.solve, Unify.solve]
    split <;> simp_all [Problem.solve]
  | assign hstep hcommit =>
    rw [Problem.solve, Unify.solve]
    split <;> simp_all [Problem.solve]

theorem solve_eq_of_reduces {p q : Problem} (h : ReflTransGen Reduces p q) : p.solve = q.solve := by
  induction h with
  | refl => rfl
  | tail _ h ih => exact ih.trans h.solve_eq

/-- A result of `solve` is reached by reduction. -/
theorem reduces_of_solve {s θ : Subst} {props eqs : List Ty} {ps : List (Ty × Ty)}
    (h : solve s props ps = .ok (θ, eqs)) : ReflTransGen Reduces ⟨s, props, ps⟩ ⟨θ, eqs, []⟩ := by
  fun_induction solve s props ps with
  | case1 s props =>
    obtain ⟨rfl, rfl⟩ : s = θ ∧ props = eqs := by simpa using h
    exact .refl
  | case2 s props a b rest e hstep => simp at h
  | case3 s props a b rest hstep ih => exact .head (.done hstep) (ih h)
  | case4 s props a b rest p hstep ih => exact .head (.defer hstep) (ih h)
  | case5 s props a b rest ps hstep ih => exact .head (.pairs hstep) (ih h)
  | case6 s props a b rest v t fresh hstep e hcommit => simp at h
  | case7 s props a b rest v t fresh hstep s' hcommit ih =>
    exact .head (.assign hstep hcommit) (ih h)

/-! ## One step

### What a step says -/

section

variable {R : Shape → Shape → Prop} {σ : Int → Shape}

/-- The sides of every pair are related under `σ`. With equality for `R`, `σ` is a unifier. -/
def Unifies (R : Shape → Shape → Prop) (σ : Int → Shape) (ps : List (Ty × Ty)) : Prop :=
  ∀ p ∈ ps, R (p.1.shape.subst σ) (p.2.shape.subst σ)

/-- An equality whose sides are related under `σ`. -/
def Equates (R : Shape → Shape → Prop) (σ : Int → Shape) (p : Ty) : Prop :=
  ∃ l r : Ty, p = .equal l r ∧ R (l.shape.subst σ) (r.shape.subst σ)

theorem equates_equal {l r : Ty} :
    Equates R σ (.equal l r) ↔ R (l.shape.subst σ) (r.shape.subst σ) := by
  constructor
  · rintro ⟨l', r', heq, h⟩
    obtain ⟨rfl, rfl⟩ : l = l' ∧ r = r' := by simpa [Ty.equal, Ty.compare] using heq
    exact h
  · exact fun h => ⟨l, r, rfl, h⟩

def Step.Holds (R : Shape → Shape → Prop) (σ : Int → Shape) : Step → Prop
  | .done => True
  | .assign v t _ => R (σ v.id) (t.shape.subst σ)
  | .defer p => Equates R σ p
  | .pairs ps => Unifies R σ ps

theorem unifies_append {ps qs : List (Ty × Ty)} :
    Unifies R σ (ps ++ qs) ↔ Unifies R σ ps ∧ Unifies R σ qs := List.forall_mem_append

theorem unifies_cons {a b : Ty} {ps : List (Ty × Ty)} :
    Unifies R σ ((a, b) :: ps) ↔ R (a.shape.subst σ) (b.shape.subst σ) ∧ Unifies R σ ps :=
  List.forall_mem_cons

theorem unifies_zip {as bs : List Ty} (h : as.length = bs.length) :
    Unifies R σ (as.zip bs) ↔ List.Forall₂ R ((as.map Ty.shape).map (Shape.subst σ))
      ((bs.map Ty.shape).map (Shape.subst σ)) := by
  induction as generalizing bs with
  | nil =>
    obtain rfl : bs = [] := List.length_eq_zero_iff.mp h.symm
    simp [Unifies]
  | cons a as ih =>
    cases bs with
    | nil => simp at h
    | cons b bs =>
      rw [List.zip_cons_cons, unifies_cons, ih (by simpa using h)]
      simp

theorem unifies_eq_zip {as bs : List Ty} (h : as.length = bs.length) :
    Unifies Eq σ (as.zip bs) ↔
      (as.map Ty.shape).map (Shape.subst σ) = (bs.map Ty.shape).map (Shape.subst σ) := by
  rw [unifies_zip h, List.forall₂_eq_eq_eq]

theorem bindChecked_holds {s : Subst} {v : TyVar} {t : Ty} {st : Step}
    (h : bindChecked s v t = .ok st) : st.Holds R σ ↔ R (σ v.id) (t.shape.subst σ) := by
  unfold bindChecked at h
  split at h
  · simp at h
  · split at h
    · dsimp only at h
      split at h
      · cases h
        exact Iff.rfl
      · simp at h
    · split at h
      · simp at h
      · dsimp only at h
        split at h
        · cases h
          exact equates_equal
        · simp at h

theorem bindVar_holds (hR : Shape.Congruence R) {s : Subst} {v : TyVar} {t : Ty} {st : Step}
    (h : bindVar s v t = .ok st) : st.Holds R σ ↔ R (σ v.id) (t.shape.subst σ) := by
  unfold bindVar at h
  split at h
  · rename_i w
    split at h
    · rename_i hid
      cases h
      simp [Step.Holds, hid, hR.refl]
    · split at h
      · cases h
        exact ⟨hR.symm, hR.symm⟩
      · exact bindChecked_holds h
  · exact bindChecked_holds h

theorem mismatch_holds {a b : Ty} {st : Step} (h : mismatch a b = .ok st) :
    st.Holds R σ ↔ R (a.shape.subst σ) (b.shape.subst σ) := by
  unfold mismatch at h
  split at h
  · simp at h
  · split at h
    · cases h
      exact equates_equal
    · simp at h

/-- Two types of which neither is a variable are taken apart: what is left of them is that the
parts are related, one by one. -/
theorem decompose_cases {a b : Ty} {st : Step} (h : decompose a b = .ok st) :
    st = .done ∧ a.shape = b.shape ∨ mismatch a b = .ok st ∨
      ∃ (hd : ShapeHead) (as bs : List Ty), as.length = bs.length ∧ st = .pairs (as.zip bs) ∧
        a.shape = .node hd (as.map Ty.shape) ∧ b.shape = .node hd (bs.map Ty.shape) := by
  unfold decompose at h
  split at h
  · split at h
    · rename_i hid
      exact Or.inl ⟨by simpa using h.symm, by simp [hid]⟩
    · exact Or.inr (Or.inl h)
  · rename_i c as d bs
    split at h
    · split at h
      · rename_i hsame
        simp only [Bool.and_eq_true, Con.same_iff_key, Ty.sameList_iff_shape] at hsame
        exact Or.inl ⟨by simpa using h.symm, by simp [hsame.1.2, hsame.2]⟩
      · exact Or.inr (Or.inl h)
    · split at h
      · rename_i hsame
        rw [Con.same_iff_key] at hsame
        split at h
        · rename_i hlen
          refine Or.inr (Or.inr ⟨.con c.key, as, bs, hlen, by simpa using h.symm, ?_, ?_⟩)
          · rw [Ty.shape_con]
          · rw [Ty.shape_con, hsame]
        · simp at h
      · exact Or.inr (Or.inl h)
  · rename_i fs gs
    split at h
    · rename_i hkeys
      have hkeys : fs.map Prod.fst = gs.map Prod.fst := of_decide_eq_true hkeys
      have hlen : (Table.values fs).length = (Table.values gs).length := by
        simpa [Table.values] using congrArg List.length hkeys
      refine Or.inr (Or.inr ⟨.record (fs.map Prod.fst), _, _, hlen, by simpa using h.symm, ?_, ?_⟩)
      · simp [Table.values, Function.comp_def]
      · simp [Table.values, Function.comp_def, hkeys]
    · exact Or.inr (Or.inl h)
  · rename_i n _ _ as _ _ _ bs
    split at h
    · rename_i hid
      split at h
      · rename_i hlen
        refine Or.inr (Or.inr ⟨.newtype n.id, as, bs, hlen, by simpa using h.symm, ?_, ?_⟩)
        · rw [Ty.shape_newtype]
        · rw [Ty.shape_newtype, hid]
      · simp at h
    · exact Or.inr (Or.inl h)
  · exact Or.inr (Or.inl h)

theorem decompose_sound (hR : Shape.Congruence R) {a b : Ty} {st : Step}
    (h : decompose a b = .ok st) (hst : st.Holds R σ) :
    R (a.shape.subst σ) (b.shape.subst σ) := by
  rcases decompose_cases h with ⟨-, hab⟩ | h | ⟨hd, as, bs, hlen, rfl, ha, hb⟩
  · exact hR.of_eq (by rw [hab])
  · exact (mismatch_holds h).mp hst
  · rw [ha, hb, Shape.subst_node, Shape.subst_node]
    exact hR.node ((unifies_zip hlen).mp hst)

theorem decompose_complete {a b : Ty} {st : Step} (h : decompose a b = .ok st)
    (hab : a.shape.subst σ = b.shape.subst σ) : st.Holds Eq σ := by
  rcases decompose_cases h with ⟨rfl, -⟩ | h | ⟨hd, as, bs, hlen, rfl, ha, hb⟩
  · trivial
  · exact (mismatch_holds h).mpr hab
  · rw [ha, hb, Shape.subst_node, Shape.subst_node, Shape.node.injEq] at hab
    exact (unifies_eq_zip hlen).mpr hab.2

theorem stepExpanded_sound (hR : Shape.Congruence R) {s : Subst} {a b : Ty} {st : Step}
    (h : stepExpanded s a b = .ok st) (hst : st.Holds R σ) :
    R (a.shape.subst σ) (b.shape.subst σ) := by
  unfold stepExpanded at h
  split at h
  · exact (bindVar_holds hR h).mp hst
  · exact hR.symm ((bindVar_holds hR h).mp hst)
  · exact decompose_sound hR h hst

theorem stepExpanded_complete {s : Subst} {a b : Ty} {st : Step}
    (h : stepExpanded s a b = .ok st) (hab : a.shape.subst σ = b.shape.subst σ) :
    st.Holds Eq σ := by
  unfold stepExpanded at h
  split at h
  · exact (bindVar_holds Shape.congruence_eq h).mpr hab
  · exact (bindVar_holds Shape.congruence_eq h).mpr hab.symm
  · exact decompose_complete h hab

end

/-! ### What a step binds -/

theorem assign_of_bindChecked {s : Subst} {v w : TyVar} {t u : Ty} {fresh : u.occurs w.id = false}
    (h : bindChecked s v t = .ok (.assign w u fresh)) : w = v ∧ u = t ∧ u.kindOf = w.kind := by
  obtain ⟨rfl, rfl⟩ := concerns_of_bindChecked h
  refine ⟨rfl, rfl, ?_⟩
  unfold bindChecked at h
  split at h
  · simp at h
  · rename_i hkind
    exact (not_not.mp hkind).symm

theorem assign_of_bindVar {s : Subst} {v w : TyVar} {t u : Ty} {fresh : u.occurs w.id = false}
    (h : bindVar s v t = .ok (.assign w u fresh)) :
    (w = v ∧ u = t ∨ t = .free w ∧ u = .free v) ∧ u.kindOf = w.kind := by
  unfold bindVar at h
  split at h
  · split at h
    · simp at h
    · split at h
      · rename_i hkind
        cases h
        exact ⟨Or.inr ⟨rfl, rfl⟩, hkind.1⟩
      · obtain ⟨hw, hu, hkind⟩ := assign_of_bindChecked h
        exact ⟨Or.inl ⟨hw, hu⟩, hkind⟩
  · obtain ⟨hw, hu, hkind⟩ := assign_of_bindChecked h
    exact ⟨Or.inl ⟨hw, hu⟩, hkind⟩

/-- A step binds one side of the pair, a variable, to the other, of its kind. -/
theorem assign_of_step {s : Subst} {a b : Ty} {v : TyVar} {t : Ty} {fresh : t.occurs v.id = false}
    (h : step s a b = .ok (.assign v t fresh)) :
    (a.expand = .free v ∧ t = b.expand ∨ b.expand = .free v ∧ t = a.expand) ∧
      t.kindOf = v.kind := by
  unfold step at h
  split at h
  · simp at h
  · unfold stepExpanded at h
    split at h
    · rename_i ha
      obtain ⟨⟨rfl, rfl⟩ | ⟨hb, rfl⟩, hkind⟩ := assign_of_bindVar h
      · exact ⟨Or.inl ⟨ha, rfl⟩, hkind⟩
      · exact ⟨Or.inr ⟨hb, ha.symm⟩, hkind⟩
    · rename_i hb _
      obtain ⟨⟨rfl, rfl⟩ | ⟨ha, rfl⟩, hkind⟩ := assign_of_bindVar h
      · exact ⟨Or.inr ⟨hb, rfl⟩, hkind⟩
      · exact ⟨Or.inl ⟨ha, hb.symm⟩, hkind⟩
    · exact absurd h decompose_ne_assign

/-! ### The sides of the pairs -/

/-- The immediate parts of a type that is no synonym. -/
def parts : Ty → List Ty
  | .con _ args => args
  | .record fs => Table.values fs
  | .newtype _ _ _ args => args
  | _ => []

theorem vars_of_mem_parts {t u : Ty} (h : u ∈ parts t) {v : TyVar} (hv : v ∈ u.vars) :
    v ∈ t.vars := by
  cases t with
  | con c args =>
    rw [Ty.vars, Ty.varsList_eq_flatMap]
    exact List.mem_flatMap_of_mem h hv
  | record fs =>
    obtain ⟨f, hf, rfl⟩ := List.mem_map.mp h
    rw [Ty.vars, Ty.varsFields_eq_flatMap]
    exact List.mem_flatMap_of_mem hf hv
  | newtype n ps fs args =>
    rw [Ty.vars, Ty.varsList_eq_flatMap]
    exact List.mem_flatMap_of_mem h hv
  | _ => simp [parts] at h

theorem parts_of_decompose {a b : Ty} {ps : List (Ty × Ty)} (h : decompose a b = .ok (.pairs ps)) :
    ∀ p ∈ ps, p.1 ∈ parts a ∧ p.2 ∈ parts b := by
  intro p hp
  unfold decompose at h
  split at h
  · split at h
    · simp at h
    · exact absurd h mismatch_ne_pairs
  · split at h
    · split at h
      · simp at h
      · exact absurd h mismatch_ne_pairs
    · split at h
      · split at h
        · cases h
          exact List.of_mem_zip hp
        · simp at h
      · exact absurd h mismatch_ne_pairs
  · split at h
    · cases h
      exact List.of_mem_zip hp
    · exact absurd h mismatch_ne_pairs
  · split at h
    · split at h
      · cases h
        exact List.of_mem_zip hp
      · simp at h
    · exact absurd h mismatch_ne_pairs
  · exact absurd h mismatch_ne_pairs

theorem parts_of_step {s : Subst} {a b : Ty} {ps : List (Ty × Ty)}
    (h : step s a b = .ok (.pairs ps)) :
    ∀ p ∈ ps, p.1 ∈ parts a.expand ∧ p.2 ∈ parts b.expand := by
  unfold step at h
  split at h
  · simp at h
  · unfold stepExpanded at h
    split at h
    · exact absurd h bindVar_ne_pairs
    · exact absurd h bindVar_ne_pairs
    · exact parts_of_decompose h

def sides (ps : List (Ty × Ty)) : List Ty := ps.flatMap fun p => [p.1, p.2]

theorem mem_sides {ps : List (Ty × Ty)} {t : Ty} :
    t ∈ sides ps ↔ ∃ p ∈ ps, t = p.1 ∨ t = p.2 := by
  simp [sides]

/-- What reduction does to the sides: they stay, fall into their parts, or a variable among them
is replaced. -/
theorem Reduces.sides_cases {p q : Problem} (h : Reduces p q) :
    (q.subst = p.subst ∧ ∀ t ∈ sides q.pairs, ∃ u ∈ sides p.pairs, t = u ∨ t ∈ parts u.expand) ∨
    ∃ v t, commit p.subst v t = .ok q.subst ∧ t.kindOf = v.kind ∧ v.id ∉ t.varIds ∧
      (∃ u ∈ sides p.pairs, u.expand = .free v) ∧
      (∃ u ∈ sides p.pairs, t = u.expand) ∧
      (∀ σ, Unifies Eq σ p.pairs → σ v.id = t.shape.subst σ) ∧
      ∀ x ∈ sides q.pairs, ∃ u ∈ sides p.pairs, x = u.replace v.id t := by
  have hkeep : ∀ {a b : Ty} {rest : List (Ty × Ty)}, ∀ t ∈ sides rest,
      t ∈ sides ((a, b) :: rest) := by
    intro a b rest t ht
    obtain ⟨e, he, ht⟩ := mem_sides.mp ht
    exact mem_sides.mpr ⟨e, List.mem_cons_of_mem _ he, ht⟩
  cases h with
  | done _ => exact Or.inl ⟨rfl, fun t ht => ⟨t, hkeep t ht, Or.inl rfl⟩⟩
  | defer _ => exact Or.inl ⟨rfl, fun t ht => ⟨t, hkeep t ht, Or.inl rfl⟩⟩
  | @pairs s props a b ps rest hstep =>
    refine Or.inl ⟨rfl, fun t ht => ?_⟩
    obtain ⟨e, he, hte⟩ := mem_sides.mp ht
    rcases List.mem_append.mp he with he | he
    · obtain ⟨hl, hr⟩ := parts_of_step hstep e he
      rcases hte with rfl | rfl
      · exact ⟨a, by simp [sides], Or.inr hl⟩
      · exact ⟨b, by simp [sides], Or.inr hr⟩
    · exact ⟨t, hkeep t (mem_sides.mpr ⟨e, he, hte⟩), Or.inl rfl⟩
  | @assign s s' props a b t v fresh rest hstep hcommit =>
    obtain ⟨hside, hkind⟩ := assign_of_step hstep
    refine Or.inr ⟨v, t, hcommit, hkind, not_mem_varIds_of_occurs fresh, ?_, ?_, ?_, ?_⟩
    · rcases hside with ⟨ha, -⟩ | ⟨hb, -⟩
      · exact ⟨a, by simp [sides], ha⟩
      · exact ⟨b, by simp [sides], hb⟩
    · rcases hside with ⟨-, hb⟩ | ⟨-, ha⟩
      · exact ⟨b, by simp [sides], hb⟩
      · exact ⟨a, by simp [sides], ha⟩
    · intro σ hσ
      have hab := (unifies_cons.mp hσ).1
      rw [← Ty.shape_expand a, ← Ty.shape_expand b] at hab
      rcases hside with ⟨ha, rfl⟩ | ⟨hb, rfl⟩
      · rw [← hab, ha, Ty.shape_free, Shape.subst_var]
      · rw [hab, hb, Ty.shape_free, Shape.subst_var]
    · intro x hx
      obtain ⟨e, he, hxe⟩ := mem_sides.mp hx
      obtain ⟨e', he', rfl⟩ := List.mem_map.mp he
      rcases hxe with rfl | rfl
      · exact ⟨e'.1, hkeep _ (mem_sides.mpr ⟨e', he', Or.inl rfl⟩), rfl⟩
      · exact ⟨e'.2, hkeep _ (mem_sides.mpr ⟨e', he', Or.inr rfl⟩), rfl⟩

end SizedTypes.Unify
