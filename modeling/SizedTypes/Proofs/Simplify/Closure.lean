import SizedTypes.Proofs.Simplify.Normal
import SizedTypes.Proofs.Simplify.Soundness

/-!
# Closed assumptions

Assumptions are normalized, no conjunctions, and closed under what each of them implies. To assume
them all again adds nothing, so a list of assumptions can be handed on and closed a second time:
the same goals follow from it, and goals are simplified in the same way.

What is entailed stays entailed when more is assumed. An additional assumption may cut off a part of
a goal anywhere on the way, before it is taken apart or refuted; what is left of the goal then is
part of what was left before, in the same order.
-/

set_option autoImplicit false

namespace SizedTypes

open Ty

theorem TyClass.mem_ancestors_trans {c d e : TyClass} (hd : d ∈ c.ancestors)
    (he : e ∈ d.ancestors) : e ∈ c.ancestors := by
  cases c <;> cases d <;> simp [ancestors] at hd he ⊢ <;> grind

namespace Ty

/-! ## Implied predicates -/

/-- How one predicate is implied by another. -/
inductive Implies (p : Ty) : Ty → Prop
  | self : Implies p p
  | cls {c d : TyClass} {args : List Ty} (hp : p.asProp? = some (.cls c, args))
    (hd : d ∈ c.ancestors) : Implies p (cls d args)
  | fin {n : Ty} {rest : List Ty} (hp : p.asProp? = some (.prime, n :: rest)) : Implies p (fin n)
  | geq {n : Ty} {rest : List Ty} (hp : p.asProp? = some (.prime, n :: rest)) :
    Implies p (geq n (num 2))

theorem mem_implied {p q : Ty} : q ∈ p.implied ↔ Implies p q := by
  unfold implied
  constructor
  · intro h
    rcases List.mem_cons.mp h with rfl | h
    · exact .self
    · split at h
      · obtain ⟨d, hd, rfl⟩ := List.mem_map.mp h
        exact .cls ‹_› hd
      · rcases List.mem_pair.mp h with rfl | rfl
        · exact .fin ‹_›
        · exact .geq ‹_›
      · cases h
  · intro h
    cases h with
    | self => exact List.mem_cons_self ..
    | cls hp hd =>
      rw [hp]
      exact List.mem_cons_of_mem _ (List.mem_map_of_mem hd)
    | fin hp => simp [hp]
    | geq hp => simp [hp]

/-- What is implied by something implied is implied at once. -/
theorem Implies.trans {p q r : Ty} (hq : Implies p q) (hr : Implies q r) : Implies p r := by
  cases hq with
  | self => exact hr
  | cls hp hd =>
    cases hr with
    | self => exact .cls hp hd
    | cls hq he =>
      cases hq
      exact .cls hp (TyClass.mem_ancestors_trans hd he)
    | fin hq | geq hq => cases hq
  | fin hp =>
    cases hr with
    | self => exact .fin hp
    | cls hq _ | fin hq | geq hq => cases hq
  | geq hp =>
    cases hr with
    | self => exact .geq hp
    | cls hq _ | fin hq | geq hq => cases hq

theorem Implies.normalized {p q : Ty} (h : Implies p q) (hp : p.normalize = p) :
    q.normalize = q := by
  cases h with
  | self => exact hp
  | cls hprop _ =>
    have hargs := normalizeList_of_asProp? hp hprop
    simp only [Ty.cls, normalize, hargs]
  | fin hprop =>
    have hargs := normalizeList_of_asProp? hp hprop
    simp only [normalizeList, List.cons.injEq] at hargs
    simp only [Ty.fin, normalize, normalizeList, hargs.1]
  | geq hprop =>
    have hargs := normalizeList_of_asProp? hp hprop
    simp only [normalizeList, List.cons.injEq] at hargs
    simp only [Ty.geq, compare, num, normalize, normalizeList, hargs.1]

theorem Implies.whole {p q : Ty} (h : Implies p q) (hp : p.isJunction = false) :
    q.isJunction = false := by
  cases h with
  | self => exact hp
  | cls _ _ | fin _ | geq _ => rfl

end Ty

namespace Assumptions

/-! ## Closed lists -/

/-- Normalized parts of predicates, with all that they imply. -/
structure Closed (A : Assumptions) : Prop where
  normalized : ∀ p ∈ A.props, p.normalize = p
  whole : ∀ p ∈ A.props, p.isJunction = false
  implies : ∀ {p q : Ty}, p ∈ A.props → p.Implies q → q ∈ A.props

theorem mem_ofList {ps : List Ty} {q : Ty} :
    q ∈ (ofList ps).props ↔ ∃ p ∈ conjunctsList ps, p.normalize.Implies q := by
  simp [ofList, add, mem_implied]

theorem closed_ofList (ps : List Ty) : (ofList ps).Closed where
  normalized q hq := by
    obtain ⟨p, -, h⟩ := mem_ofList.mp hq
    exact h.normalized (normalize_normalize p)
  whole q hq := by
    obtain ⟨p, hp, h⟩ := mem_ofList.mp hq
    rw [conjunctsList_eq_flatMap] at hp
    obtain ⟨e, -, hp⟩ := List.mem_flatMap.mp hp
    exact h.whole ((isJunction_normalize p).trans (isJunction_of_mem_conjuncts hp))
  implies hq himp := by
    obtain ⟨p, hp, h⟩ := mem_ofList.mp hq
    exact mem_ofList.mpr ⟨p, hp, h.trans himp⟩

/-- To assume more is to assume everything together. -/
theorem add_add (A : Assumptions) (ps qs : List Ty) : (A.add ps).add qs = A.add (ps ++ qs) := by
  simp [add, conjunctsList_eq_flatMap]

variable {A B : Assumptions}

/-- Closing what is closed adds nothing. -/
theorem Closed.mem_ofList_props (h : A.Closed) {q : Ty} :
    q ∈ (ofList A.props).props ↔ q ∈ A.props := by
  have hparts : conjunctsList A.props = A.props := by
    rw [conjunctsList_eq_flatMap]
    have hsingle : A.props.flatMap conjuncts = A.props.flatMap fun p => [p] :=
      List.flatMap_congr fun p hp => conjuncts_eq_self (h.whole p hp)
    rw [hsingle, List.flatMap_singleton']
  rw [mem_ofList, hparts]
  constructor
  · rintro ⟨p, hp, himp⟩
    rw [h.normalized p hp] at himp
    exact h.implies hp himp
  · intro hq
    exact ⟨q, hq, (h.normalized q hq).symm ▸ .self⟩

theorem entails_iff {p : Ty} : A.entails p = true ↔
    ∃ q ∈ A.props, p.same q = true ∨ weakens p q = true := by
  simp [entails]

/-- More assumptions entail more. -/
theorem entails_of_subset (h : A.props ⊆ B.props) {p : Ty} (hp : A.entails p = true) :
    B.entails p = true := by
  obtain ⟨q, hq, hpq⟩ := entails_iff.mp hp
  exact entails_iff.mpr ⟨q, h hq, hpq⟩

theorem Closed.entails_ofList_props (h : A.Closed) (p : Ty) :
    (ofList A.props).entails p = A.entails p :=
  Bool.eq_iff_iff.mpr ⟨entails_of_subset fun _ hq => h.mem_ofList_props.mp hq,
    entails_of_subset fun _ hq => h.mem_ofList_props.mpr hq⟩

/-- Goals are simplified under the closed list as under the assumptions that it comes from. -/
theorem Closed.simplify_ofList_props (h : A.Closed) (goal : Ty) :
    simplify goal (ofList A.props) = simplify goal A :=
  simplify_congr h.entails_ofList_props goal

/-! ## More assumptions leave less -/

/-- Adding predicates takes none away. -/
theorem props_subset_add (A : Assumptions) (ps : List Ty) : A.props ⊆ (A.add ps).props :=
  List.subset_append_left _ _

end Assumptions

namespace Simplify

variable {A B : Assumptions}

/-- Goals that are cut off go from the stack, and what they leave from the residual. -/
theorem loop_sublist (h : ∀ p, A.entails p = true → B.entails p = true)
    {residual stack out : List Ty} (hloop : loop A residual stack = .ok out) :
    ∀ {residual' stack' : List Ty}, residual'.Sublist residual → stack'.Sublist stack →
      ∃ out', loop B residual' stack' = .ok out' ∧ out'.Sublist out := by
  revert hloop
  fun_induction loop A residual stack with
  | case1 residual =>
    intro hloop residual' stack' hresidual hstack
    cases hloop
    obtain rfl := List.sublist_nil.mp hstack
    exact ⟨residual', by rw [loop], hresidual⟩
  | case2 residual goal stack p hentails ih =>
    intro hloop residual' stack' hresidual hstack
    rcases List.sublist_cons_iff.mp hstack with hrest | ⟨rest, rfl, hrest⟩
    · exact ih hloop hresidual hrest
    · rw [loop_of_entails (h p hentails)]
      exact ih hloop hresidual hrest
  | case3 residual goal stack p hentails hstep =>
    intro hloop
    cases hloop
  | case4 residual goal stack p hentails hstep ih =>
    intro hloop residual' stack' hresidual hstack
    have hskip : residual'.Sublist (p :: residual) := hresidual.cons p
    rcases List.sublist_cons_iff.mp hstack with hrest | ⟨rest, rfl, hrest⟩
    · exact ih hloop hskip hrest
    · cases hB : B.entails p with
      | true =>
        rw [loop_of_entails hB]
        exact ih hloop hskip hrest
      | false =>
        rw [loop_of_undecided hB hstep]
        exact ih hloop (hresidual.cons_cons p) hrest
  | case5 residual goal stack p hentails subs hstep ih =>
    intro hloop residual' stack' hresidual hstack
    have hskip {rest : List Ty} (hrest : rest.Sublist stack) :
        rest.Sublist (subs.reverse ++ stack) := hrest.trans (List.sublist_append_right _ _)
    rcases List.sublist_cons_iff.mp hstack with hrest | ⟨rest, rfl, hrest⟩
    · exact ih hloop hresidual (hskip hrest)
    · cases hB : B.entails p with
      | true =>
        -- the parts of the goal are never put on the stack
        rw [loop_of_entails hB]
        exact ih hloop hresidual (hskip hrest)
      | false =>
        rw [loop_of_reduced hB hstep]
        exact ih hloop hresidual (hrest.append_left _)

end Simplify

open Ty

/-- A goal that is not refuted is not refuted under more assumptions either, and what is left of it
is a sublist of what was left; and what is entailed stays entailed. -/
theorem simplify_add_sublist (A : Assumptions) (ps : List Ty) (goal : Ty) :
    (∀ residual, simplify goal A = .ok residual →
      ∃ left, simplify goal (A.add ps) = .ok left ∧ left.Sublist residual) ∧
    (A.entails goal = true → (A.add ps).entails goal = true) := by
  have hentails : ∀ p, A.entails p = true → (A.add ps).entails p = true := fun _ hp =>
    Assumptions.entails_of_subset (A.props_subset_add ps) hp
  refine ⟨fun residual h => ?_, hentails goal⟩
  exact Simplify.loop_sublist hentails h (List.Sublist.refl _) (List.Sublist.refl _)

/-- Of `fin (m + n)` and `n >= 2` three parts are left; once `n` is assumed to be prime, only some
of them are. -/
theorem simplify_add_finiteSum : ∃ left,
    simplify finiteSum (Assumptions.ofList [fin (lengthVar 3)]) =
      .ok [fin (lengthVar 1), fin (lengthVar 2), geq (lengthVar 2) (num 2)] ∧
    simplify finiteSum ((Assumptions.ofList [fin (lengthVar 3)]).add [prime (lengthVar 2)]) =
      .ok left ∧
    left.Sublist [fin (lengthVar 1), fin (lengthVar 2), geq (lengthVar 2) (num 2)] := by
  have hbefore : simplify finiteSum (Assumptions.ofList [fin (lengthVar 3)]) =
      .ok [fin (lengthVar 1), fin (lengthVar 2), geq (lengthVar 2) (num 2)] := by cbv
  obtain ⟨left, hleft, hsub⟩ := (simplify_add_sublist (Assumptions.ofList [fin (lengthVar 3)])
    [prime (lengthVar 2)] finiteSum).1 _ hbefore
  exact ⟨left, hbefore, hleft, hsub⟩

end SizedTypes
