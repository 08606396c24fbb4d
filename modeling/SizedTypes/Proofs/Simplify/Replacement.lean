import SizedTypes.Proofs.Simplify.Closure
import SizedTypes.Proofs.Simplify.Instantiation
import SizedTypes.Proofs.Subst.Image

/-!
# Simplifying before a type is known

The parts of a goal are simplified one after another, so what is left of several goals is what is
left of each of them, in order. A step that was taken before the value of a type variable was known
is taken after it as well: simplifying a goal whose variables were replaced gives what simplifying
the replaced residual gives.
-/

set_option autoImplicit false

namespace SizedTypes
namespace Simplify

open Ty

variable {A : Assumptions}

/-! ## One goal after another -/

/-- A stack is worked off from the top. -/
theorem loop_append (residual stack rest : List Ty) :
    loop A residual (stack ++ rest) = (loop A residual stack).bind fun r => loop A r rest := by
  fun_induction loop A residual stack with
  | case1 residual => rfl
  | case2 residual goal stack p hentails ih => rw [List.cons_append, loop_of_entails hentails, ih]
  | case3 residual goal stack p hentails hstep =>
    rw [List.cons_append, loop_of_unsolvable (Bool.eq_false_iff.mpr hentails) hstep]
    rfl
  | case4 residual goal stack p hentails hstep ih =>
    rw [List.cons_append, loop_of_undecided (Bool.eq_false_iff.mpr hentails) hstep, ih]
  | case5 residual goal stack p hentails subs hstep ih =>
    rw [List.cons_append, loop_of_reduced (Bool.eq_false_iff.mpr hentails) hstep,
      ← List.append_assoc, ih]

/-- What was left before stays behind what is left of the stack. -/
theorem loop_residual (residual stack : List Ty) :
    loop A residual stack = (loop A [] stack).map (· ++ residual) := by
  have hgeneral (left : List Ty) :
      loop A (left ++ residual) stack = (loop A left stack).map (· ++ residual) := by
    fun_induction loop A left stack with
    | case1 left => rw [loop]; rfl
    | case2 left goal stack p hentails ih => rw [loop_of_entails hentails, ih]
    | case3 left goal stack p hentails hstep =>
      rw [loop_of_unsolvable (Bool.eq_false_iff.mpr hentails) hstep]
      rfl
    | case4 left goal stack p hentails hstep ih =>
      rw [loop_of_undecided (Bool.eq_false_iff.mpr hentails) hstep, ← List.cons_append, ih]
    | case5 left goal stack p hentails subs hstep ih =>
      rw [loop_of_reduced (Bool.eq_false_iff.mpr hentails) hstep, ih]
  exact hgeneral []

/-! ## What is left, up to synonyms -/

/-- The shapes of what is left, if no goal is refuted. -/
def shapes (result : Except Ty (List Ty)) : Option (List Shape) :=
  result.toOption.map (List.map shape)

/-- The shapes of what is left of several goals. -/
def outcome (A : Assumptions) (goals : List Ty) : Option (List Shape) :=
  shapes (loop A [] goals.reverse)

theorem shapes_eq_none_iff {result : Except Ty (List Ty)} :
    shapes result = none ↔ ∃ q, result = .error q := by
  cases result <;> simp [shapes, Except.toOption]

theorem shapes_eq_some_iff {result : Except Ty (List Ty)} {left : List Shape} :
    shapes result = some left ↔ ∃ out, result = .ok out ∧ out.map shape = left := by
  cases result <;> simp [shapes, Except.toOption]

theorem outcome_nil : outcome A [] = some [] := by
  rw [outcome, List.reverse_nil, loop]
  rfl

theorem outcome_append (goals rest : List Ty) :
    outcome A (goals ++ rest) =
      (outcome A goals).bind fun left => (outcome A rest).map (left ++ ·) := by
  rw [outcome, outcome, outcome, List.reverse_append, loop_append]
  cases hrest : loop A [] rest.reverse with
  | error q => cases loop A [] goals.reverse <;> rfl
  | ok right =>
    rw [Except.bind, loop_residual]
    cases loop A [] goals.reverse with
    | error q => rfl
    | ok left => simp [shapes, Except.map, Except.toOption]

/-- Goals among others can be exchanged for goals that leave the same. -/
theorem outcome_exchange {mid mid' : List Ty} (h : outcome A mid = outcome A mid')
    (goals rest : List Ty) :
    outcome A (goals ++ (mid ++ rest)) = outcome A (goals ++ (mid' ++ rest)) := by
  rw [outcome_append, outcome_append, outcome_append, outcome_append, h]

theorem shapes_simplify (goal : Ty) : shapes (simplify goal A) = outcome A goal.conjuncts := rfl

theorem outcome_eq_none_iff {goals : List Ty} :
    outcome A goals = none ↔ ∃ g ∈ goals, ∃ q, loop A [] [g] = .error q := by
  induction goals with
  | nil => simp [outcome_nil]
  | cons g goals ih =>
    have hsingle : outcome A [g] = none ↔ ∃ q, loop A [] [g] = .error q := shapes_eq_none_iff
    rw [← List.singleton_append, outcome_append, Option.bind_eq_none_iff]
    simp only [Option.map_eq_none_iff, List.exists_mem_cons_iff, List.singleton_append, ← ih,
      ← hsingle]
    cases outcome A [g] <;> simp

/-- What is left of several goals is what is left of each, in order. -/
theorem outcome_eq_some {goals : List Ty} {left : List Shape} (h : outcome A goals = some left) :
    ∃ parts, List.Forall₂ (fun g part => loop A [] [g] = .ok part) goals parts ∧
      parts.flatten.map shape = left := by
  induction goals generalizing left with
  | nil =>
    rw [outcome_nil] at h
    cases h
    exact ⟨[], .nil, rfl⟩
  | cons g goals ih =>
    rw [← List.singleton_append, outcome_append] at h
    obtain ⟨first, hfirst, h⟩ := Option.bind_eq_some_iff.mp h
    obtain ⟨rest, hrest, rfl⟩ := Option.map_eq_some_iff.mp h
    obtain ⟨out, hout, rfl⟩ := shapes_eq_some_iff.mp hfirst
    obtain ⟨parts, hparts, rfl⟩ := ih hrest
    exact ⟨out :: parts, .cons hout hparts, by simp⟩

/-! ## Goals of one shape -/

theorem entails_of_shape {p q : Ty} (h : q.shape = p.shape) (hp : A.entails p = true) :
    A.entails q = true := by
  obtain ⟨r, hr, hpr⟩ := Assumptions.entails_iff.mp hp
  refine Assumptions.entails_iff.mpr ⟨r, hr, hpr.imp (fun hsame => ?_) fun hweak => ?_⟩
  · rw [same_iff_shape] at hsame ⊢
    exact h.trans hsame
  · unfold Assumptions.weakens at hweak ⊢
    split at hweak
    · rename_i x m y n hx hy
      obtain ⟨x', m', hq, himage, hm⟩ := (image_self.mpr h).asCompare? hx
      have hsame : x'.same y = x.same y := by
        rw [Bool.eq_iff_iff, same_iff_shape, same_iff_shape, image_self.mp himage]
      rw [hq, hy]
      rwa [← hsame, ← hm.eval Shape.blank_var] at hweak
    · cases hweak

theorem entails_congr {p q : Ty} (h : p.shape = q.shape) : A.entails p = A.entails q :=
  Bool.eq_iff_iff.mpr ⟨entails_of_shape h.symm, entails_of_shape h⟩

/-- The shapes of what is left depend on the shapes of the normal forms of the goals. -/
theorem shapes_loop_congr {residual stack : List Ty} : ∀ (residual' stack' : List Ty),
    residual.map shape = residual'.map shape →
    List.Forall₂ (fun g h => g.normalize.shape = h.normalize.shape) stack stack' →
    shapes (loop A residual stack) = shapes (loop A residual' stack') := by
  have hunknown {p q : Ty} (h : p.shape = q.shape) (hp : ¬ A.entails p = true) :
      A.entails q = false := (entails_congr h).symm.trans (Bool.eq_false_iff.mpr hp)
  have hfollows {p q : Ty} (h : p.shape = q.shape) : (step p).Follows Shape.var (step q) :=
    follows_step Shape.blank_var (image_self.mpr h.symm)
  fun_induction loop A residual stack with
  | case1 residual =>
    intro residual' stack' hresidual hstack
    cases hstack
    rw [loop]
    simp [shapes, Except.toOption, hresidual]
  | case2 residual goal stack p hentails ih =>
    intro residual' stack' hresidual hstack
    obtain _ | ⟨hgoal, hrest⟩ := hstack
    rw [loop_of_entails ((entails_congr hgoal).symm.trans hentails)]
    exact ih _ _ hresidual hrest
  | case3 residual goal stack p hentails hstep =>
    intro residual' stack' hresidual hstack
    obtain _ | ⟨hgoal, hrest⟩ := hstack
    have hp : (step p).Follows Shape.var _ := hfollows hgoal
    rw [hstep] at hp
    rw [loop_of_unsolvable (hunknown hgoal hentails) hp.eq_unsolvable]
    rfl
  | case4 residual goal stack p hentails hstep ih =>
    intro residual' stack' hresidual hstack
    obtain _ | ⟨hgoal, hrest⟩ := hstack
    have hp : Verdict.Follows Shape.var _ (step p) := hfollows hgoal.symm
    rw [hstep] at hp
    rw [loop_of_undecided (hunknown hgoal hentails) hp.eq_undecided]
    refine ih _ _ ?_ hrest
    rw [List.map_cons, List.map_cons, hresidual, ← hgoal]
  | case5 residual goal stack p hentails subs hstep ih =>
    intro residual' stack' hresidual hstack
    obtain _ | ⟨hgoal, hrest⟩ := hstack
    have hp : (step p).Follows Shape.var _ := hfollows hgoal
    rw [hstep] at hp
    obtain ⟨us, hus, hsubs⟩ := hp.of_reduced
    rw [loop_of_reduced (hunknown hgoal hentails) hus]
    refine ih _ _ hresidual (List.rel_append (List.forall₂_reverse_iff.mpr ?_) hrest)
    exact hsubs.imp fun _ _ h => (image_self.mp (h.normalize Shape.blank_var)).symm

/-- Goals of the same shape leave the same, up to synonyms. -/
theorem outcome_congr {goals goals' : List Ty}
    (h : List.Forall₂ (fun g h => g.normalize.shape = h.normalize.shape) goals goals') :
    outcome A goals = outcome A goals' :=
  shapes_loop_congr _ _ rfl (List.forall₂_reverse_iff.mpr h)

theorem normalize_congr {t u : Ty} (h : t.shape = u.shape) :
    t.normalize.shape = u.normalize.shape :=
  (image_self.mp (Image.normalize Shape.blank_var (image_self.mpr h.symm))).symm

/-- Simplifying looks through synonyms. -/
theorem shapes_simplify_congr {p q : Ty} (h : p.shape = q.shape) :
    shapes (simplify p A) = shapes (simplify q A) := by
  have hparts := Image.conjuncts Shape.blank_var (image_self.mpr h.symm)
  exact outcome_congr (hparts.imp fun _ _ h => (normalize_congr (image_self.mp h)).symm)

/-! ## Goals whose variables are replaced -/

section replaced

variable {F G : Int → Shape} {σ : Ty → Ty} (hF : ∀ i, Shape.Blank (F i) (G i))
  (hG : ∀ i, Shape.Blank (G i) (G i)) (hσ : ∀ t : Ty, t.Image F (σ t))

include hF hG hσ

/-- Steps that are taken before variables are replaced are taken again afterwards. -/
theorem outcome_loop {residual stack out : List Ty} (h : loop {} residual stack = .ok out) :
    outcome {} (stack.reverse.map σ ++ residual.map σ) = outcome {} (out.map σ) := by
  revert h
  fun_induction loop {} residual stack with
  | case1 residual =>
    intro h
    cases h
    rfl
  | case2 residual goal stack p hentails ih => cases hentails
  | case3 residual goal stack p hentails hstep =>
    intro h
    cases h
  | case4 residual goal stack p hentails hstep ih =>
    intro h
    rw [← ih h, List.reverse_cons, List.map_append, List.append_assoc]
    have hsame : outcome {} [σ goal] = outcome {} [σ p] := by
      refine outcome_congr (.cons ?_ .nil)
      -- `p` is the normal form of the goal, and it is left as it is
      have hgoal := (hσ goal).normalize hF
      have hp : (Ty.normalize p).Image G (σ p).normalize := (hσ p).normalize hF
      rw [normalize_normalize] at hp
      exact hgoal.trans hp.symm
    exact outcome_exchange hsame _ _
  | case5 residual goal stack p hentails subs hstep ih =>
    intro h
    rw [← ih h, List.reverse_cons, List.map_append, List.append_assoc, List.reverse_append,
      List.reverse_reverse, List.map_append, List.append_assoc]
    refine outcome_exchange ?_ _ _
    have hfollows : (step p).Follows G _ := follows_step hG ((hσ goal).normalize hF)
    rw [hstep] at hfollows
    obtain ⟨us, hus, hsubs⟩ := hfollows.of_reduced
    have hstart : outcome {} [σ goal] = outcome {} us := by
      rw [outcome, outcome, List.reverse_singleton, loop_of_reduced rfl hus, List.append_nil]
    rw [List.map_singleton, hstart]
    refine outcome_congr (List.forall₂_map_right_iff.mpr ?_)
    refine List.Forall₂.flip (hsubs.imp fun t u h => ?_)
    exact (h.normalize hG).trans ((hσ t).normalize hF).symm

/-- What is left of a goal whose variables are replaced is what is left of the residual whose
variables are replaced. -/
theorem shapes_simplify_replaced {p : Ty} {residual : List Ty} (h : simplify p {} = .ok residual) :
    shapes (simplify (σ p) {}) = outcome {} (residual.map σ) := by
  have hrun := outcome_loop hF hG hσ h
  rw [List.reverse_reverse, List.map_nil, List.append_nil] at hrun
  rw [← hrun, shapes_simplify]
  refine outcome_congr (List.forall₂_map_right_iff.mpr ?_)
  refine List.Forall₂.flip (((hσ p).conjuncts hF).imp fun t u h => ?_)
  exact (h.normalize hF).trans ((hσ t).normalize hF).symm

end replaced

end Simplify

/-! ## Types of values -/

namespace Kind

/-- No number of arguments makes a constructor of sizes or of predicates one of values. -/
theorem afterArgs_arrows_ne_type {res : Kind} (hres : res = .num ∨ res = .prop) (ks : List Kind)
    (n : Nat) : (arrows ks res).afterArgs n ≠ .type := by
  induction ks generalizing n with
  | nil => rcases hres with rfl | rfl <;> cases n <;> simp [arrows, afterArgs]
  | cons k ks ih =>
    cases n with
    | zero => simp [arrows, afterArgs]
    | succ n => exact ih n

end Kind

namespace Ty

/-- Types of values have no size. -/
theorem eval_of_kindOf {t : Ty} (h : t.kindOf = .type) : t.eval = none := by
  induction t using Ty.induct with
  | con c args _ =>
    cases c with
    | num n => exact absurd h (Kind.afterArgs_arrows_ne_type (.inl rfl) [] args.length)
    | inf => exact absurd h (Kind.afterArgs_arrows_ne_type (.inl rfl) [] args.length)
    | op f =>
      refine absurd h ?_
      cases f with
      | width => exact Kind.afterArgs_arrows_ne_type (.inl rfl) [.num] args.length
      | lengthFromThenTo =>
        exact Kind.afterArgs_arrows_ne_type (.inl rfl) [.num, .num, .num] args.length
      | _ => exact Kind.afterArgs_arrows_ne_type (.inl rfl) [.num, .num] args.length
    | _ => rfl
  | synonym n args body _ ih => exact ih h
  | free v | bound p | record fs _ | newtype n ps fs args _ => rfl

theorem isJunction_of_kindOf {t : Ty} (h : t.kindOf = .type) : t.isJunction = false := by
  induction t using Ty.induct with
  | con c args _ =>
    cases c with
    | prop pc =>
      cases pc with
      | conj =>
        exact absurd h (Kind.afterArgs_arrows_ne_type (.inr rfl) [.prop, .prop] args.length)
      | trivial => exact absurd h (Kind.afterArgs_arrows_ne_type (.inr rfl) [] args.length)
      | _ => rfl
    | _ => rfl
  | synonym n args body _ ih => exact ih h
  | free v | bound p | record fs _ | newtype n ps fs args _ => rfl

theorem kindOf_replace_of_type {t u : Ty} (v : Int) (ht : t.kindOf = .type)
    (hu : u.kindOf = .type) : (t.replace v u).kindOf = .type := by
  induction t using Ty.induct with
  | free w =>
    by_cases hw : w.id = v
    · rwa [replace, bind, if_pos hw]
    · rwa [replace, bind, if_neg hw]
  | con c args _ => rwa [replace, bind, kindOf, bindList_eq_map, List.length_map]
  | synonym n args body _ ih => exact ih ht
  | bound p | record fs _ | newtype n ps fs args _ => exact ht

/-- The shape of a type of values is a blank. -/
theorem blank_of_kindOf {t : Ty} (h : t.kindOf = .type) :
    Shape.Blank t.shape t.normalize.shape where
  eval hu := ((image_self.mpr hu).eval Shape.blank_var).trans (eval_of_kindOf h)
  whole hu := ((image_self.mpr hu).isJunction Shape.blank_var).trans (isJunction_of_kindOf h)
  normalize hu := Simplify.normalize_congr hu

/-- The shape of its normal form is a blank that normalizing keeps. -/
theorem blank_normalize_of_kindOf {t : Ty} (h : t.kindOf = .type) :
    Shape.Blank t.normalize.shape t.normalize.shape where
  eval hu := by
    rw [(image_self.mpr hu).eval Shape.blank_var, eval_normalize, eval_of_kindOf h]
  whole hu := by
    rw [(image_self.mpr hu).isJunction Shape.blank_var, isJunction_normalize,
      isJunction_of_kindOf h]
  normalize hu := by rw [Simplify.normalize_congr hu, normalize_normalize]

end Ty

namespace Subst

variable {σ : Subst}

theorem kindOf_apply_of_type (hσ : ∀ b ∈ σ.bindings, b.2.kindOf = .type) {t : Ty}
    (ht : t.kindOf = .type) : (σ.apply t).kindOf = .type := by
  unfold apply
  revert hσ
  generalize σ.bindings = bs
  intro hbs
  induction bs with
  | nil => exact ht
  | cons b bs ih =>
    obtain ⟨hb, hrest⟩ := List.forall_mem_cons.mp hbs
    exact Ty.kindOf_replace_of_type b.1.id (ih hrest) hb

/-- Bindings to types of values give each variable a blank. -/
theorem blank_image (hσ : ∀ b ∈ σ.bindings, b.2.kindOf = .type) (i : Int) :
    ∃ b, Shape.Blank (σ.image i) b ∧ Shape.Blank b b := by
  have hkind : (σ.apply (.free { id := i, kind := .type })).kindOf = .type :=
    kindOf_apply_of_type hσ rfl
  have hshape : (σ.apply (.free { id := i, kind := .type })).shape = σ.image i := σ.shape_apply _
  exact ⟨_, hshape ▸ Ty.blank_of_kindOf hkind, Ty.blank_normalize_of_kindOf hkind⟩

end Subst

open Ty

/-- It does not matter whether a goal is simplified before or after values become known: with types
for the variables that stand for types of values, the goal is refuted exactly if one of the
predicates that were left of it is, and otherwise what is left of it is what is left of them, one
after the other, up to synonyms. -/
theorem simplify_apply_residual {σ : Subst} (hσ : ∀ b ∈ σ.bindings, b.2.kindOf = .type) {p : Ty}
    {residual : List Ty} (h : simplify p {} = .ok residual) :
    ((∃ q, simplify (σ.apply p) {} = .error q) ↔
      ∃ r ∈ residual, ∃ q, simplify (σ.apply r) {} = .error q) ∧
    ∀ out, simplify (σ.apply p) {} = .ok out →
      ∃ parts, List.Forall₂ (fun r part => simplify (σ.apply r) {} = .ok part) residual parts ∧
        sameList out parts.flatten = true := by
  choose G hF hG using Subst.blank_image hσ
  have himage (t : Ty) : t.Image σ.image (σ.apply t) := σ.shape_apply t
  have hleft := Simplify.shapes_simplify_replaced hF hG himage h
  -- a predicate that is left is no conjunction, and stays none
  have hsingle : ∀ r ∈ residual, simplify (σ.apply r) {} = Simplify.loop {} [] [σ.apply r] := by
    intro r hr
    have hwhole := ((himage r).isJunction hF).trans (inert_of_simplify h r hr).whole
    rw [simplify, conjuncts_eq_self hwhole, List.reverse_singleton]
  constructor
  · rw [← Simplify.shapes_eq_none_iff, hleft, Simplify.outcome_eq_none_iff]
    simp only [List.mem_map, exists_exists_and_eq_and]
    exact exists_congr fun r => and_congr_right fun hr => by rw [hsingle r hr]
  · intro out hout
    have hshapes : Simplify.outcome {} (residual.map σ.apply) = some (out.map shape) :=
      hleft.symm.trans (Simplify.shapes_eq_some_iff.mpr ⟨out, hout, rfl⟩)
    obtain ⟨parts, hparts, hflat⟩ := Simplify.outcome_eq_some hshapes
    rw [List.forall₂_map_left_iff] at hparts
    refine ⟨parts, ?_, (sameList_iff_shape _ _).mpr hflat.symm⟩
    exact forall₂_of_mem hparts fun r hr part hpart => (hsingle r hr).trans hpart

/-- Equality and arithmetic on sequences whose elements are not known yet. -/
def arithmeticSeq : Ty :=
  let vectors : Ty := seq (lengthVar 1) (.free { id := 2, kind := .type })
  conj (cls .eq [vectors]) (cls .ring [vectors])

/-- The elements turn out to be bits: equality on them is decided, and the length has to be finite
for both reasons. -/
theorem simplify_apply_arithmeticSeq :
    let elem : TyVar := { id := 2, kind := .type }
    let bits : Subst := { bindings := [(elem, bit)] }
    let finite := fin (lengthVar 1)
    let residual := [finite, cls .eq [free elem], cls .ring [seq (lengthVar 1) (free elem)]]
    simplify arithmeticSeq {} = .ok residual ∧
      simplify (bits.apply arithmeticSeq) {} = .ok [finite, finite] ∧
      ∃ parts, List.Forall₂ (fun r part => simplify (bits.apply r) {} = .ok part) residual parts ∧
        sameList [finite, finite] parts.flatten = true := by
  intro elem bits finite residual
  have hbits : ∀ b ∈ bits.bindings, b.2.kindOf = .type := by decide
  have hresidual : simplify arithmeticSeq {} = .ok residual := by cbv
  have happly : bits.apply arithmeticSeq =
      conj (cls .eq [seq (lengthVar 1) bit]) (cls .ring [seq (lengthVar 1) bit]) := rfl
  have hout : simplify (bits.apply arithmeticSeq) {} = .ok [finite, finite] := by
    rw [happly]
    cbv
  exact ⟨hresidual, hout, (simplify_apply_residual hbits hresidual).2 _ hout⟩

end SizedTypes
