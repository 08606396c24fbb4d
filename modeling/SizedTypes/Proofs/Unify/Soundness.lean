import SizedTypes.Proofs.Ty.WellFormed
import SizedTypes.Proofs.Unify.Step

/-!
# Soundness of unification

A map that solves the bindings found, and equates the equalities put off, unifies the pairs that
the run started from. Equal uses of one synonym are not taken apart, so this needs that synonyms
are functions of their arguments.
-/

set_option autoImplicit false

namespace SizedTypes

/-! ## Uses of synonyms -/

/-- A type uses the synonym with the id `n`, at these arguments and with this expansion. The
arguments of uses are not searched. -/
inductive Ty.Uses : Ty → Int → List Ty → Ty → Prop
  | here {n : Name} {args : List Ty} {body : Ty} : Uses (.synonym n args body) n.id args body
  | body {n : Int} {args : List Ty} {body : Ty} {m : Name} {as : List Ty} {b : Ty} :
      b.Uses n args body → Uses (.synonym m as b) n args body
  | con {n : Int} {args : List Ty} {body : Ty} {c : Con} {as : List Ty} {a : Ty} :
      a ∈ as → a.Uses n args body → Uses (.con c as) n args body
  | record {n : Int} {args : List Ty} {body : Ty} {fs : List (String × Ty)} {f : String × Ty} :
      f ∈ fs → f.2.Uses n args body → Uses (.record fs) n args body
  | newtype {n : Int} {args : List Ty} {body : Ty} {m : Name} {ps : List Param}
      {fs : List (String × Ty)} {as : List Ty} {a : Ty} :
      a ∈ as → a.Uses n args body → Uses (.newtype m ps fs as) n args body

namespace Unify

open Relation (ReflTransGen)

variable {n : Int} {args : List Ty} {body : Ty}

theorem uses_of_expand : ∀ {t : Ty}, t.expand.Uses n args body → t.Uses n args body
  | .free _, h | .bound _, h | .con _ _, h | .record _, h | .newtype _ _ _ _, h => h
  | .synonym _ _ _, h => .body (uses_of_expand h)

theorem uses_of_mem_parts {t u : Ty} (h : u ∈ parts t) (hu : u.Uses n args body) :
    t.Uses n args body := by
  cases t with
  | con c as => exact .con h hu
  | record fs =>
    obtain ⟨f, hf, rfl⟩ := List.mem_map.mp h
    exact .record hf hu
  | newtype m ps fs as => exact .newtype h hu
  | _ => simp [parts] at h

/-- A use after a replacement was there before, or comes with the type put in. -/
theorem uses_replace {v : Int} {u t : Ty} (h : (t.replace v u).Uses n args body) :
    (∃ as b, t.Uses n as b ∧ args = as.map (fun a => a.replace v u) ∧ body = b.replace v u) ∨
      u.Uses n args body := by
  induction t using Ty.induct with
  | free w =>
    rw [Ty.replace, Ty.bind] at h
    split at h
    · exact Or.inr h
    · nomatch h
  | bound p => nomatch h
  | con c as ih =>
    rw [Ty.replace, Ty.bind, Ty.bindList_eq_map] at h
    cases h with
    | con ha hu =>
      obtain ⟨a, hmem, rfl⟩ := List.mem_map.mp ha
      obtain ⟨as', b, hab, heq⟩ | hu := ih a hmem hu
      · exact Or.inl ⟨as', b, .con hmem hab, heq⟩
      · exact Or.inr hu
  | record fs ih =>
    rw [Ty.replace, Ty.bind, Ty.bindFields_eq_map] at h
    cases h with
    | record hf hu =>
      obtain ⟨f, hmem, rfl⟩ := List.mem_map.mp hf
      obtain ⟨as', b, hab, heq⟩ | hu := ih f hmem hu
      · exact Or.inl ⟨as', b, .record hmem hab, heq⟩
      · exact Or.inr hu
  | synonym m as b _ ih =>
    rw [Ty.replace, Ty.bind, Ty.bindList_eq_map] at h
    cases h with
    | here => exact Or.inl ⟨as, b, .here, rfl, rfl⟩
    | body hu =>
      obtain ⟨as', b', hab, heq⟩ | hu := ih hu
      · exact Or.inl ⟨as', b', .body hab, heq⟩
      · exact Or.inr hu
  | newtype m ps fs as ih =>
    rw [Ty.replace, Ty.bind, Ty.bindList_eq_map] at h
    cases h with
    | newtype ha hu =>
      obtain ⟨a, hmem, rfl⟩ := List.mem_map.mp ha
      obtain ⟨as', b, hab, heq⟩ | hu := ih a hmem hu
      · exact Or.inl ⟨as', b, .newtype hmem hab, heq⟩
      · exact Or.inr hu

/-- Under `σ`, the synonym `n` is used in `t` at the arguments `xs` and has the expansion `y`. -/
def UsesUnder (σ : Int → Shape) (t : Ty) (n : Int) (xs : List Shape) (y : Shape) : Prop :=
  ∃ args body, t.Uses n args body ∧ xs = args.map (fun a => a.shape.subst σ) ∧
    y = body.shape.subst σ

/-- Under `σ`, the synonyms used in `ts` are functions of their arguments. -/
def FunctionalUnder (σ : Int → Shape) (ts : List Ty) : Prop :=
  ∀ t ∈ ts, ∀ t' ∈ ts, ∀ n xs y y', UsesUnder σ t n xs y → UsesUnder σ t' n xs y' → y = y'

theorem FunctionalUnder.mono {σ : Int → Shape} {ts us : List Ty} (h : FunctionalUnder σ ts)
    (hsub : ∀ u ∈ us, ∀ n xs y, UsesUnder σ u n xs y → ∃ t ∈ ts, UsesUnder σ t n xs y) :
    FunctionalUnder σ us := by
  intro u hu u' hu' n xs y y' hy hy'
  obtain ⟨t, ht, hy⟩ := hsub u hu n xs y hy
  obtain ⟨t', ht', hy'⟩ := hsub u' hu' n xs y' hy'
  exact h t ht t' ht' n xs y y' hy hy'

/-- Whatever makes the arguments of two uses of a synonym the same makes their expansions the
same. -/
def SynonymsFunctional (ts : List Ty) : Prop :=
  ∀ t ∈ ts, ∀ u ∈ ts, ∀ n as abody bs bbody, t.Uses n as abody → u.Uses n bs bbody →
    ∀ σ : Int → Ty, Ty.sameList (as.map (Ty.substitute · σ)) (bs.map (Ty.substitute · σ)) = true →
      (abody.substitute σ).same (bbody.substitute σ) = true

theorem map_shape_substitute (ts : List Ty) (σ : Int → Ty) :
    (ts.map (Ty.substitute · σ)).map Ty.shape =
      ts.map fun t => t.shape.subst fun i => (σ i).shape := by
  rw [List.map_map]
  exact List.map_congr_left fun t _ => Ty.shape_substitute t σ

theorem SynonymsFunctional.under {ts : List Ty} (h : SynonymsFunctional ts) (σ : Int → Ty) :
    FunctionalUnder (fun i => (σ i).shape) ts := by
  rintro t ht u hu n xs y y' ⟨as, abody, ha, rfl, rfl⟩ ⟨bs, bbody, hb, hxs, rfl⟩
  have hsame := h t ht u hu n as abody bs bbody ha hb σ
  rw [Ty.sameList_iff_shape, map_shape_substitute, map_shape_substitute, Ty.same_iff_shape,
    Ty.shape_substitute, Ty.shape_substitute] at hsame
  exact hsame hxs

/-- Uses expand to the body of a declaration, with the arguments in place of its parameters. -/
def SynonymsDeclared (decl : Int → TypeSynonym) (t : Ty) : Prop :=
  ∀ n as abody, t.Uses n as abody → (decl n).body.varIds = [] ∧
    abody.same ((decl n).body.instantiate (Schema.assignment (decl n).params as)) = true

/-- Synonyms with declarations are functions of their arguments. -/
theorem functionalUnder_of_declared {decl : Int → TypeSynonym} {ts : List Ty}
    (h : ∀ t ∈ ts, SynonymsDeclared decl t) (σ : Int → Shape) : FunctionalUnder σ ts := by
  rintro t ht u hu n xs y y' ⟨as, abody, ha, rfl, rfl⟩ ⟨bs, bbody, hb, hxs, rfl⟩
  obtain ⟨hclosed, ha⟩ := h t ht n as abody ha
  obtain ⟨-, hb⟩ := h u hu n bs bbody hb
  rw [Ty.same_iff_shape] at ha hb
  rw [ha, hb, Ty.shape_instantiate, Ty.shape_instantiate, Shape.subst, Shape.subst,
    Shape.bind_bind, Shape.bind_bind]
  have hgetD : ∀ (x : Option Ty) (i : Int), ((x.map Ty.shape).getD (.param i)).bind σ .param =
      (x.map fun a => a.shape.subst σ).getD (.param i) := by
    intro x i
    cases x with
    | none => rfl
    | some a => rfl
  refine Shape.bind_congr (fun i hi => ?_) fun i _ => ?_
  · rw [← Ty.varIds_eq_shape, hclosed] at hi
  · rw [hgetD, hgetD, Ty.find?_assignment, Ty.find?_assignment, hxs]

theorem synonymsFunctional_of_declared {decl : Int → TypeSynonym} {ts : List Ty}
    (h : ∀ t ∈ ts, SynonymsDeclared decl t) : SynonymsFunctional ts := by
  intro t ht u hu n as abody bs bbody ha hb σ hsame
  rw [Ty.sameList_iff_shape, map_shape_substitute, map_shape_substitute] at hsame
  rw [Ty.same_iff_shape, Ty.shape_substitute, Ty.shape_substitute]
  exact functionalUnder_of_declared h _ t ht u hu n _ _ _ ⟨as, abody, ha, rfl, rfl⟩
    ⟨bs, bbody, hb, hsame, rfl⟩

theorem declared_of_wellFormed {W : Setting} {t : Ty} (h : t.WellFormed W) :
    SynonymsDeclared W.synonym t := by
  intro n as abody huse
  induction h with
  | free _ => cases huse
  | bound => cases huse
  | con _ _ ih =>
    cases huse with
    | con ha hu => exact ih _ ha hu
  | record _ _ ih =>
    cases huse with
    | record hf hu => exact ih _ hf hu
  | synonym _ _ _ hshape ih _ =>
    cases huse with
    | here => exact ⟨W.closed _, Ty.same_iff_shape _ _ |>.mpr hshape⟩
    | body hu => exact ih hu
  | newtype _ ih =>
    cases huse with
    | newtype ha hu => exact ih _ ha hu

theorem usesUnder_replace {σ : Int → Shape} {v : Int} {u t : Ty} (hv : σ v = u.shape.subst σ)
    {n : Int} {xs : List Shape} {y : Shape} (h : UsesUnder σ (t.replace v u) n xs y) :
    UsesUnder σ t n xs y ∨ UsesUnder σ u n xs y := by
  obtain ⟨args, body, huse, rfl, rfl⟩ := h
  rcases uses_replace huse with ⟨as, b, hb, rfl, rfl⟩ | huse
  · refine Or.inl ⟨as, b, hb, ?_, Subst.shape_replace_of_eq hv b⟩
    rw [List.map_map]
    exact List.map_congr_left fun a _ => Subst.shape_replace_of_eq hv a
  · exact Or.inr ⟨args, body, huse, rfl, rfl⟩

/-! ## Invariance along a run -/

theorem extend_of_commit {s s' : Subst} {v : TyVar} {t : Ty} (h : commit s v t = .ok s') :
    s.extend v t = .ok s' := by
  unfold commit at h
  split at h
  · rename_i heq
    rw [heq, Except.ok.inj h]
  · simp at h
  · simp at h

variable {p q : Problem} {σ : Int → Shape}

theorem Reduces.solves (h : Reduces p q) (hσ : Subst.Solves σ q.subst) :
    Subst.Solves σ p.subst := by
  rcases h.sides_cases with ⟨heq, -⟩ | ⟨v, t, hcommit, -⟩
  · rw [← heq]
    exact hσ
  · exact Subst.solves_of_extend (extend_of_commit hcommit) hσ

theorem Reduces.triangular (h : Reduces p q) (hp : p.subst.Triangular) : q.subst.Triangular := by
  rcases h.sides_cases with ⟨heq, -⟩ | ⟨v, t, hcommit, -⟩
  · rw [heq]
    exact hp
  · exact Subst.triangular_extend (extend_of_commit hcommit) hp

theorem Reduces.props_subset (h : Reduces p q) : p.props ⊆ q.props := by
  cases h with
  | defer _ => exact List.subset_append_left ..
  | _ => exact List.Subset.refl _

theorem Reduces.functional (h : Reduces p q) (hσ : Subst.Solves σ q.subst)
    (hf : FunctionalUnder σ (sides p.pairs)) : FunctionalUnder σ (sides q.pairs) := by
  refine hf.mono fun x hx n xs y hy => ?_
  rcases h.sides_cases with ⟨-, hsides⟩ | ⟨v, t, hcommit, -, -, -, ⟨u', hu', rfl⟩, -, hsides⟩
  · obtain ⟨u, hu, rfl | hpart⟩ := hsides x hx
    · exact ⟨x, hu, hy⟩
    · obtain ⟨args, body, huse, hxs, hy⟩ := hy
      exact ⟨u, hu, args, body, uses_of_expand (uses_of_mem_parts hpart huse), hxs, hy⟩
  · obtain ⟨u, hu, rfl⟩ := hsides x hx
    have hv := Subst.eq_of_extend (extend_of_commit hcommit) hσ
    rcases usesUnder_replace hv hy with hy | ⟨args, body, huse, hxs, hy⟩
    · exact ⟨u, hu, hy⟩
    · exact ⟨u', hu', args, body, uses_of_expand huse, hxs, hy⟩

/-- Equal uses of a synonym are equal types. -/
theorem eq_of_sameSynonym {a b : Ty} (hf : FunctionalUnder σ [a, b])
    (h : sameSynonym a b = true) : a.shape.subst σ = b.shape.subst σ := by
  unfold sameSynonym at h
  split at h
  · rename_i n as abody m bs bbody
    rw [Bool.and_eq_true, beq_iff_eq, Ty.sameList_iff_shape] at h
    obtain ⟨hid, hargs⟩ := h
    have hmap : as.map (fun a => a.shape.subst σ) = bs.map fun a => a.shape.subst σ := by
      have := congrArg (List.map (Shape.subst σ)) hargs
      rw [List.map_map, List.map_map] at this
      exact this
    have hb : (Ty.synonym m bs bbody).Uses n.id bs bbody := by
      rw [hid]
      exact .here
    exact hf (.synonym n as abody) (by simp) (.synonym m bs bbody) (by simp) n.id _ _ _
      ⟨as, abody, .here, rfl, rfl⟩ ⟨bs, bbody, hb, hmap, rfl⟩
  · simp at h

variable {R : Shape → Shape → Prop}

/-- What holds of the result of a step holds of the pair. -/
theorem step_sound (hR : Shape.Congruence R) {s : Subst} {a b : Ty} {st : Step}
    (hf : FunctionalUnder σ [a, b]) (h : step s a b = .ok st) (hst : st.Holds R σ) :
    R (a.shape.subst σ) (b.shape.subst σ) := by
  unfold step at h
  split at h
  · rename_i hsyn
    exact hR.of_eq (eq_of_sameSynonym hf hsyn)
  · rw [← Ty.shape_expand a, ← Ty.shape_expand b]
    exact stepExpanded_sound hR h hst

theorem unifies_replacePairs {v : Int} {t : Ty} {ps : List (Ty × Ty)} (h : σ v = t.shape.subst σ) :
    Unifies R σ (replacePairs v t ps) ↔ Unifies R σ ps := by
  unfold Unifies replacePairs
  rw [List.forall_mem_map]
  refine forall₂_congr fun e _ => ?_
  rw [Subst.shape_replace_of_eq h, Subst.shape_replace_of_eq h]

/-- What unifies the pairs after a reduction unifies those before. -/
theorem Reduces.unifies (hR : Shape.Congruence R) (h : Reduces p q) (hσ : Subst.Solves σ q.subst)
    (hprops : ∀ e ∈ q.props, Equates R σ e) (hf : FunctionalUnder σ (sides p.pairs))
    (hq : Unifies R σ q.pairs) : Unifies R σ p.pairs := by
  have hhead : ∀ {a b : Ty} {rest : List (Ty × Ty)}, FunctionalUnder σ (sides ((a, b) :: rest)) →
      FunctionalUnder σ [a, b] := by
    intro a b rest hf
    refine hf.mono fun u hu n xs y hy => ⟨u, ?_, hy⟩
    simp only [List.mem_cons, List.not_mem_nil, or_false] at hu
    exact mem_sides.mpr ⟨(a, b), List.mem_cons_self .., hu⟩
  cases h with
  | done hstep => exact unifies_cons.mpr ⟨step_sound hR (hhead hf) hstep trivial, hq⟩
  | defer hstep =>
    exact unifies_cons.mpr ⟨step_sound hR (hhead hf) hstep (hprops _ (by simp)), hq⟩
  | pairs hstep =>
    obtain ⟨hps, hrest⟩ := unifies_append.mp hq
    exact unifies_cons.mpr ⟨step_sound hR (hhead hf) hstep hps, hrest⟩
  | assign hstep hcommit =>
    have hv := Subst.eq_of_extend (extend_of_commit hcommit) hσ
    exact unifies_cons.mpr
      ⟨step_sound hR (hhead hf) hstep (hR.of_eq hv), (unifies_replacePairs hv).mp hq⟩

theorem triangular_of_reduces (h : ReflTransGen Reduces p q) (hp : p.subst.Triangular) :
    q.subst.Triangular := by
  induction h with
  | refl => exact hp
  | tail _ h ih => exact h.triangular ih

/-- A map that solves the bindings of a run, and equates what it puts off, unifies its pairs. -/
theorem unifies_of_reduces (hR : Shape.Congruence R) (h : ReflTransGen Reduces p q)
    (hσ : Subst.Solves σ q.subst) (hprops : ∀ e ∈ q.props, Equates R σ e)
    (hq : Unifies R σ q.pairs) (hf : FunctionalUnder σ (sides p.pairs)) :
    Unifies R σ p.pairs := by
  have key : Subst.Solves σ p.subst ∧ (∀ e ∈ p.props, Equates R σ e) ∧
      (FunctionalUnder σ (sides p.pairs) → Unifies R σ p.pairs) := by
    clear hf
    induction h using ReflTransGen.head_induction_on with
    | refl => exact ⟨hσ, hprops, fun _ => hq⟩
    | head h _ ih =>
      obtain ⟨hsolves, heqs, hunif⟩ := ih
      refine ⟨h.solves hsolves, fun e he => heqs e (h.props_subset he), fun hf => ?_⟩
      exact h.unifies hR hsolves heqs hf (hunif (h.functional hsolves hf))
  exact key.2.2 hf

/-! ## Equalities put off -/

/-- Only equalities are put off: every step holds up to the congruence that relates all shapes. -/
theorem defer_of_step {s : Subst} {a b e : Ty} (h : step s a b = .ok (.defer e)) :
    ∃ l r : Ty, e = .equal l r := by
  have htop : Shape.Congruence fun _ _ => True := ⟨fun _ => ⟨⟩, fun _ => ⟨⟩, fun _ _ => ⟨⟩, fun _ => ⟨⟩⟩
  have hholds : (Step.defer e).Holds (fun _ _ => True) .var := by
    unfold step at h
    split at h
    · simp at h
    · unfold stepExpanded at h
      split at h
      · exact (bindVar_holds htop h).mpr trivial
      · exact (bindVar_holds htop h).mpr trivial
      · rcases decompose_cases h with ⟨heq, -⟩ | h | ⟨_, _, _, -, heq, -⟩
        · cases heq
        · exact (mismatch_holds h).mpr trivial
        · cases heq
  obtain ⟨l, r, heq, -⟩ := hholds
  exact ⟨l, r, heq⟩

theorem equalities_of_reduces (h : ReflTransGen Reduces p q)
    (hp : ∀ e ∈ p.props, ∃ l r : Ty, e = .equal l r) :
    ∀ e ∈ q.props, ∃ l r : Ty, e = .equal l r := by
  induction h with
  | refl => exact hp
  | tail _ h ih =>
    cases h with
    | defer hstep =>
      intro e he
      rcases List.mem_append.mp he with he | he
      · exact ih e he
      · rw [List.mem_singleton.mp he]
        exact defer_of_step hstep
    | _ => exact ih

theorem reduces_of_unify {s θ : Subst} {a b : Ty} {eqs : List Ty}
    (h : unify s a b = .ok ⟨θ, eqs⟩) :
    ReflTransGen Reduces ⟨s.onlyScopes, [], [(a, b)]⟩ ⟨θ, eqs, []⟩ := by
  refine reduces_of_solve ?_
  unfold unify at h
  split at h
  · rename_i heq
    rw [heq]
    cases h
    rfl
  · simp at h

end Unify
end SizedTypes
