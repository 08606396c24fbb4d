import Mathlib.Data.List.Perm.Subperm
import SizedTypes.Infer.Expect
import SizedTypes.Proofs.Infer.Reading

/-!
# Expected types of accepted runs

If unification records no error, then every reading that accepts the run takes the expected and
the actual type to be the same. So a type that is taken apart into its expected parts is the type
of those parts.
-/

set_option autoImplicit false

namespace SizedTypes.Infer

variable {W : Setting} {E : External} {c : Context} {s s' : State}

/-! ## Goals -/

theorem returns_addGoal {src : GoalSource} {p : Ty} {a : Unit}
    (h : Returns (addGoal src p) c s a s') : Extends W E 0 s s' ∧
      (p.asHas? = none → ∃ g ∈ newGoals s s', g.prop = p) := by
  unfold addGoal newSelectorGoal freshGoal currentRange at h
  split at h
  · rename_i hhas
    simp only [returns_discard, bind_assoc, returns_get_bind, returns_set_bind, returns_read_bind,
      pure_bind, returns_modify_bind, returns_pure] at h
    obtain ⟨_, -, rfl⟩ := h
    refine ⟨.of_fields rfl rfl rfl rfl rfl rfl rfl List.prefix_rfl List.prefix_rfl, fun hnone => ?_⟩
    rw [hhas] at hnone
    cases hnone
  · simp only [bind_assoc, returns_read_bind, pure_bind, returns_modify] at h
    rw [h]
    exact ⟨.of_fields rfl rfl rfl rfl rfl rfl rfl List.prefix_rfl (List.prefix_append ..),
      fun _ => ⟨⟨src, c.range, p⟩, by simp [newGoals], rfl⟩⟩

theorem returns_addGoals {src : GoalSource} {ps : List Ty} {a : Unit}
    (h : Returns (addGoals src ps) c s a s') : Extends W E 0 s s' ∧
      ∀ p ∈ Ty.conjunctsList ps, p.asHas? = none →
        ∃ g ∈ newGoals s s', g.prop = p := by
  unfold addGoals at h
  generalize Ty.conjunctsList ps = qs at h ⊢
  induction qs generalizing s with
  | nil =>
    simp only [List.forM_eq_forM, List.forM_nil, returns_pure] at h
    rw [h.2]
    exact ⟨.refl s, List.forall_mem_nil _⟩
  | cons q qs ih =>
    simp only [List.forM_eq_forM, List.forM_cons, returns_bind] at h
    obtain ⟨⟨⟩, s₁, hq, hqs⟩ := h
    obtain ⟨hext, hmem⟩ := returns_addGoal (W := W) (E := E) hq
    obtain ⟨hexts, hmems⟩ := ih hqs
    refine ⟨hext.trans hexts, List.forall_mem_cons.mpr ⟨fun hnone => ?_, fun p hp hnone => ?_⟩⟩
    · obtain ⟨g, hg, hgp⟩ := hmem hnone
      exact ⟨g, mem_newGoals_left hext hexts hg, hgp⟩
    · obtain ⟨g, hg, hgp⟩ := hmems p hp hnone
      exact ⟨g, mem_newGoals_right hext hg, hgp⟩

/-! ## Unification -/

theorem mem_conjunctsList {l r : Ty} {ps : List Ty} (h : .equal l r ∈ ps) :
    .equal l r ∈ Ty.conjunctsList ps := by
  induction ps with
  | nil => cases h
  | cons p ps ih =>
    rw [Ty.conjunctsList]
    rcases List.mem_cons.mp h with rfl | h
    · exact List.mem_append_left _ (by simp [Ty.equal, Ty.compare, Ty.conjuncts])
    · exact List.mem_append_right _ (ih h)

theorem returns_mergeSubst {δ : Subst} {a : Unit} (h : Returns (mergeSubst δ) c s a s') :
    ∃ θ, s.subst.merge δ = .ok θ ∧ s' = { s with subst := θ } := by
  unfold mergeSubst at h
  rw [returns_get_bind] at h
  split at h
  · rename_i θ hθ
    exact ⟨θ, hθ, (returns_modify.mp h)⟩
  · exact absurd h not_returns_throw

/-- A run that merges bindings of well-formed types. -/
theorem extends_of_merge {δ θ : Subst} (hδ : δ.WellFormed W) (h : s.subst.merge δ = .ok θ) :
    Extends W E 0 s { s with subst := θ } where
  wellFormed hs := { hs with subst := hs.subst.merge hδ h }
  errors := List.prefix_rfl
  goals := List.prefix_rfl
  params := rfl
  scopes := rfl
  vars := rfl
  stash := rfl
  solves _ hσ := (Subst.solves_of_merge hδ.triangular h hσ).1
  supply _ _ := by simp

/-- Accepted unification makes the expected and the actual type the same. -/
theorem returns_unifyFrom {src : GoalSource} {exp : Expected} {actual : Ty} {a : Unit}
    (h : Returns (unifyFrom src exp actual) c s a s') (hs : s.WellFormed W E)
    (hexp : exp.type.WellFormed W) (hactual : actual.WellFormed W) :
    Extends W E 0 s s' ∧ ∀ V : Reading W, V.Accepts s s' → V.Same exp.type actual := by
  unfold unifyFrom at h
  rw [returns_get_bind] at h
  dsimp only at h
  split at h
  · obtain ⟨hext, hne⟩ := returns_recordError (W := W) (E := E) h
    exact ⟨hext, fun V hV => absurd hV.errors hne⟩
  · rename_i u hu
    obtain ⟨θ, eqs⟩ := u
    rw [returns_bind] at h
    obtain ⟨⟨⟩, s₁, hmerge, hgoals⟩ := h
    obtain ⟨θ', hθ', rfl⟩ := returns_mergeSubst hmerge
    have hrun := Unify.reduces_of_unify hu
    -- both sides are well-formed, so the bindings found are
    have hsides : ∀ t ∈ Unify.sides [(s.subst.apply exp.type, s.subst.apply actual)],
        t.WellFormed W := by
      intro t ht
      simp only [Unify.sides, List.flatMap_cons, List.flatMap_nil, List.append_nil, List.mem_cons,
        List.not_mem_nil, or_false] at ht
      rcases ht with rfl | rfl
      · exact hs.subst.apply hexp
      · exact hs.subst.apply hactual
    have hwf := Unify.wellFormed_of_reduces hrun ⟨hs.subst.onlyScopes, hsides⟩
    have hext := extends_of_merge (E := E) hwf.subst hθ'
    obtain ⟨hextGoals, hmem⟩ := returns_addGoals (W := W) (E := E) hgoals
    refine ⟨hext.trans hextGoals, fun V hV => ?_⟩
    have hsolves := (hV.left hext hextGoals).solves
    obtain ⟨hold, hnew⟩ := Subst.solves_of_merge hwf.subst.triangular hθ' hsolves
    have heqs : ∀ e ∈ eqs, Unify.Equates V.rel V.image e := by
      intro e he
      obtain ⟨l, r, rfl⟩ := Unify.equalities_of_reduces hrun (List.forall_mem_nil _) e he
      obtain ⟨g, hg, hgp⟩ := hmem _ (mem_conjunctsList he) rfl
      exact ⟨l, r, rfl, hV.equates g (mem_newGoals_right hext hg) l r hgp⟩
    have hfun := Unify.functionalUnder_of_declared
      (fun t ht => Unify.declared_of_wellFormed (hsides t ht)) V.image
    have hunif := Unify.unifies_of_reduces V.congruence hrun hnew heqs (List.forall_mem_nil _) hfun
    have hab := hunif _ (List.mem_singleton_self _)
    dsimp only at hab
    rw [hold.shape_apply, hold.shape_apply] at hab
    exact hab

/-! ## Types taken apart -/

theorem asArrow?_eq_some {t a b : Ty} (ht : t.WellFormed W) (h : t.asArrow? = some (a, b)) :
    t.shape = (Ty.arrow a b).shape ∧ a.WellFormed W ∧ b.WellFormed W := by
  unfold Ty.asArrow? at h
  rw [← Ty.shape_expand]
  replace ht := ht.expand
  split at h
  · rename_i hexp
    rw [hexp] at ht ⊢
    cases ht with
    | con hlen hargs =>
      obtain ⟨rfl, rfl⟩ := Prod.mk.inj (Option.some.inj h)
      obtain rfl := List.length_eq_zero_iff.mp (Nat.add_right_cancel (m := 2) hlen)
      exact ⟨rfl, hargs _ (by simp), hargs _ (by simp)⟩
  · cases h

theorem asSeq?_eq_some {t n a : Ty} (ht : t.WellFormed W) (h : t.asSeq? = some (n, a)) :
    t.shape = (Ty.seq n a).shape ∧ n.WellFormed W ∧ a.WellFormed W := by
  unfold Ty.asSeq? at h
  rw [← Ty.shape_expand]
  replace ht := ht.expand
  split at h
  · rename_i hexp
    rw [hexp] at ht ⊢
    cases ht with
    | con hlen hargs =>
      obtain ⟨rfl, rfl⟩ := Prod.mk.inj (Option.some.inj h)
      obtain rfl := List.length_eq_zero_iff.mp (Nat.add_right_cancel (m := 2) hlen)
      exact ⟨rfl, hargs _ (by simp), hargs _ (by simp)⟩
  · cases h

theorem arity_arrows (ks : List Kind) (res : Kind) :
    (Kind.arrows ks res).arity = ks.length + res.arity := by
  induction ks with
  | nil => simp [Kind.arrows]
  | cons k ks ih =>
    rw [List.length_cons, Nat.add_right_comm, ← ih]
    rfl

theorem arity_tuple (n : Nat) : (Con.tuple n).kind.arity = n := by
  rw [Con.kind, arity_arrows, List.length_replicate]
  rfl

theorem asTuple?_eq_some {t : Ty} {ts : List Ty} (ht : t.WellFormed W) (h : t.asTuple? = some ts) :
    t.shape = (Ty.tuple ts).shape ∧ ∀ u ∈ ts, u.WellFormed W := by
  unfold Ty.asTuple? at h
  rw [← Ty.shape_expand]
  replace ht := ht.expand
  split at h
  · rename_i hexp
    rw [hexp] at ht ⊢
    cases ht with
    | con hlen hargs =>
      obtain rfl := Option.some.inj h
      rw [arity_tuple] at hlen
      exact ⟨by rw [Ty.tuple, hlen], hargs⟩
  · cases h

theorem asRecord?_eq_some {t : Ty} {fs : Table String Ty} (ht : t.WellFormed W)
    (h : t.asRecord? = some fs) :
    t.shape = (Ty.record fs).shape ∧ (Ty.record fs).WellFormed W := by
  unfold Ty.asRecord? at h
  rw [← Ty.shape_expand]
  replace ht := ht.expand
  split at h
  · rename_i hexp
    rw [hexp] at ht ⊢
    obtain rfl := Option.some.inj h
    exact ⟨rfl, ht⟩
  · cases h

theorem Reading.Accepts.same_apply {V : Reading W} {t : Ty} (h : V.Accepts s s') :
    V.Same (s'.subst.apply t) t := by
  rw [Reading.Same, h.solves.shape_apply]
  exact V.congruence.refl _

@[simp] theorem returns_applied {t u : Ty} :
    Returns (applied t) c s u s' ↔ u = s.subst.apply t ∧ s' = s := by
  simp only [applied, returns_get_bind, returns_pure]

/-- `n` fresh types. -/
theorem returns_freshTypes {α : Type} {xs : List α} {src : α → TypeSource} {ts : List Ty}
    (h : Returns (xs.mapM fun x => freshType .type (src x)) c s ts s') :
    Extends W E 0 s s' ∧ ts.length = xs.length ∧
      (s.WellFormed W E → ∀ t ∈ ts, t.WellFormed W) := by
  induction xs generalizing s ts with
  | nil =>
    rw [returns_mapM_nil] at h
    obtain ⟨rfl, rfl⟩ := h
    exact ⟨.refl _, rfl, fun _ => List.forall_mem_nil _⟩
  | cons x xs ih =>
    rw [returns_mapM_cons] at h
    obtain ⟨t, s₁, ts', ht, hts, rfl⟩ := h
    obtain ⟨hext, hwf⟩ := returns_freshType (W := W) (E := E) ht
    obtain ⟨hexts, hlen, hwfs⟩ := ih hts
    exact ⟨hext.trans hexts, by simp [hlen], fun hs => List.forall_mem_cons.mpr
      ⟨hwf hs, hwfs (hext.wellFormed hs)⟩⟩

theorem Reading.Same.of_apply {V : Reading W} {t u : Ty} (hV : V.Accepts s s')
    (h : (s'.subst.apply t).shape = u.shape) : V.Same t u :=
  hV.same_apply.symm.trans (V.same_of_shape h)

theorem returns_expectArrow {src : TypeSource} {n i : Nat} {t : Ty} {r : List Ty × Ty}
    (h : Returns (expectArrow src n i t) c s r s') (hs : s.WellFormed W E) (ht : t.WellFormed W) :
    Extends W E 0 s s' ∧ r.1.length = n ∧ (∀ u ∈ r.1, u.WellFormed W) ∧ r.2.WellFormed W ∧
      ∀ V : Reading W, V.Accepts s s' → V.Same t (.arrows r.1 r.2) := by
  induction n generalizing i t r s with
  | zero =>
    rw [expectArrow, returns_pure] at h
    obtain ⟨rfl, rfl⟩ := h
    exact ⟨.refl _, rfl, List.forall_mem_nil _, ht, fun V _ => V.same_refl t⟩
  | succ n ih =>
    rw [expectArrow] at h
    simp only [returns_bind, returns_applied] at h
    obtain ⟨_, _, ⟨rfl, rfl⟩, h⟩ := h
    split at h
    · rename_i a b hab
      obtain ⟨hshape, ha, hb⟩ := asArrow?_eq_some (hs.subst.apply ht) hab
      simp only [returns_bind, returns_pure] at h
      obtain ⟨⟨args, res⟩, _, hrest, rfl, rfl⟩ := h
      obtain ⟨hext, hlen, hargs, hres, hsame⟩ := ih hrest hs hb
      refine ⟨hext, by simp [hlen], List.forall_mem_cons.mpr ⟨ha, hargs⟩, hres, fun V hV => ?_⟩
      have hV₀ := hV.left (Extends.refl (W := W) (E := E) _) hext
      exact (Reading.Same.of_apply hV₀ hshape).trans ((V.same_refl a).arrow (hsame V hV))
    · simp only [returns_bind, returns_pure] at h
      obtain ⟨a, s₁, hfa, b, s₂, hfb, ⟨⟩, s₃, hu, ⟨args, res⟩, _, hrest, rfl, rfl⟩ := h
      obtain ⟨hext₁, ha⟩ := returns_freshType (W := W) (E := E) hfa
      obtain ⟨hext₂, hb⟩ := returns_freshType (W := W) (E := E) hfb
      have hs₁ := hext₁.wellFormed hs
      have hs₂ := hext₂.wellFormed hs₁
      replace ha := ha hs
      replace hb := hb hs₁
      have hab : (Ty.arrow a b).WellFormed W := .con rfl (by simp [ha, hb])
      obtain ⟨hext₃, hunif⟩ := returns_unifyFrom hu hs₂ ht hab
      obtain ⟨hext₄, hlen, hargs, hres, hsame⟩ := ih hrest (hext₃.wellFormed hs₂) hb
      refine ⟨((hext₁.trans hext₂).trans hext₃).trans hext₄, by simp [hlen],
        List.forall_mem_cons.mpr ⟨ha, hargs⟩, hres, fun V hV => ?_⟩
      have hV₃ := (hV.right (hext₁.trans hext₂) (hext₃.trans hext₄))
      exact (hunif V (hV₃.left hext₃ hext₄)).trans
        ((V.same_refl a).arrow (hsame V (hV₃.right hext₃ hext₄)))

theorem returns_expectTuple {n : Nat} {exp : Expected} {ts : List Ty}
    (h : Returns (expectTuple n exp) c s ts s') (hs : s.WellFormed W E)
    (hexp : exp.type.WellFormed W) :
    Extends W E 0 s s' ∧ ts.length = n ∧ (∀ t ∈ ts, t.WellFormed W) ∧
      ∀ V : Reading W, V.Accepts s s' → V.Same exp.type (.tuple ts) := by
  unfold expectTuple at h
  simp only [returns_bind, returns_applied] at h
  obtain ⟨_, _, ⟨rfl, rfl⟩, h⟩ := h
  split at h
  · rename_i ts' hts
    obtain ⟨htuple, hlen⟩ := Option.filter_eq_some_iff.mp hts
    obtain ⟨hshape, hwf⟩ := asTuple?_eq_some (hs.subst.apply hexp) htuple
    rw [returns_pure] at h
    obtain ⟨rfl, rfl⟩ := h
    exact ⟨.refl _, by simpa using hlen, hwf, fun V hV => .of_apply hV hshape⟩
  · simp only [returns_bind, returns_pure] at h
    obtain ⟨ts', s₁, hfresh, ⟨⟩, _, hu, rfl, rfl⟩ := h
    obtain ⟨hext₁, hlen, hwf⟩ := returns_freshTypes (W := W) (E := E) hfresh
    replace hwf := hwf hs
    have hts : (Ty.tuple ts).WellFormed W := .con (arity_tuple _).symm hwf
    obtain ⟨hext₂, hunif⟩ := returns_unifyFrom hu (hext₁.wellFormed hs) hexp hts
    exact ⟨hext₁.trans hext₂, by simpa using hlen, hwf, fun V hV => hunif V (hV.right hext₁ hext₂)⟩

/-- The labels that are asked for are fields; if none is repeated, there are no others. -/
def Labelled (labels : List String) (fs : Table String Ty) : Prop :=
  (∀ l ∈ labels, l ∈ fs.map Prod.fst) ∧
    (labels.Nodup → ∀ l ∈ fs.map Prod.fst, l ∈ labels)

theorem labelled_of_length {labels : List String} {fs : Table String Ty}
    (hlen : fs.length = labels.length) (hmem : ∀ l ∈ labels, Table.has l fs = true) :
    Labelled labels fs := by
  have hsub : ∀ l ∈ labels, l ∈ fs.map Prod.fst := by
    intro l hl
    obtain ⟨t, ht⟩ := Option.isSome_iff_exists.mp (hmem l hl)
    exact List.mem_map_of_mem (f := Prod.fst) (Table.mem_of_find? ht)
  refine ⟨hsub, fun hnodup l hl => ?_⟩
  have hperm := (List.Nodup.subperm hnodup hsub).perm_of_length_le (by simp [hlen])
  exact hperm.mem_iff.mpr hl

theorem returns_freshFields {labels : List String} {fields : List (String × Ty)}
    (h : Returns (labels.mapM fun l => return (l, ← freshType .type (.recordField l))) c s fields s') :
    Extends W E 0 s s' ∧ fields.map Prod.fst = labels ∧
      (s.WellFormed W E → ∀ f ∈ fields, f.2.WellFormed W) := by
  induction labels generalizing s fields with
  | nil =>
    rw [returns_mapM_nil] at h
    obtain ⟨rfl, rfl⟩ := h
    exact ⟨.refl _, rfl, fun _ => List.forall_mem_nil _⟩
  | cons l labels ih =>
    simp only [returns_mapM_cons, returns_bind, returns_pure] at h
    obtain ⟨f, _, fields', ⟨t, s₁, ht, rfl, rfl⟩, hts, rfl⟩ := h
    obtain ⟨hext, hwf⟩ := returns_freshType (W := W) (E := E) ht
    obtain ⟨hexts, hkeys, hwfs⟩ := ih hts
    exact ⟨hext.trans hexts, by simp [hkeys], fun hs => List.forall_mem_cons.mpr
      ⟨hwf hs, hwfs (hext.wellFormed hs)⟩⟩

theorem returns_expectRecord {labels : List String} {exp : Expected} {fs : Table String Ty}
    (h : Returns (expectRecord labels exp) c s fs s') (hs : s.WellFormed W E)
    (hexp : exp.type.WellFormed W) :
    Extends W E 0 s s' ∧ Labelled labels fs ∧ (Ty.record fs).WellFormed W ∧
      ∀ V : Reading W, V.Accepts s s' → V.Same exp.type (.record fs) := by
  unfold expectRecord at h
  simp only [returns_bind, returns_applied] at h
  obtain ⟨_, _, ⟨rfl, rfl⟩, h⟩ := h
  split at h
  · rename_i fs' hfs
    obtain ⟨hrecord, hlabels⟩ := Option.filter_eq_some_iff.mp hfs
    obtain ⟨hshape, hwf⟩ := asRecord?_eq_some (hs.subst.apply hexp) hrecord
    rw [returns_pure] at h
    obtain ⟨rfl, rfl⟩ := h
    rw [Bool.and_eq_true, beq_iff_eq, List.all_eq_true] at hlabels
    cases hwf with
    | record hsorted hfields =>
      exact ⟨.refl _, labelled_of_length hlabels.1 hlabels.2, .record hsorted hfields,
        fun V hV => .of_apply hV hshape⟩
  · simp only [returns_bind] at h
    obtain ⟨fields, s₁, hfresh, h⟩ := h
    simp only [returns_pure] at h
    obtain ⟨⟨⟩, _, hu, rfl, rfl⟩ := h
    obtain ⟨hext₁, hkeys, hwf⟩ := returns_freshFields (W := W) (E := E) (by simpa using hfresh)
    have hrecord : (Ty.record (Table.ofList fields)).WellFormed W :=
      .record (Table.sorted_ofList fields) fun f hf => hwf hs f (Table.mem_ofList hf)
    obtain ⟨hext₂, hunif⟩ := returns_unifyFrom hu (hext₁.wellFormed hs) hexp hrecord
    refine ⟨hext₁.trans hext₂, ⟨fun l hl => ?_, fun _ l hl => ?_⟩, hrecord,
      fun V hV => hunif V (hV.right hext₁ hext₂)⟩
    · exact Table.mem_keys_ofList.mpr (hkeys ▸ hl)
    · exact hkeys ▸ Table.mem_keys_ofList.mp hl

theorem returns_expectSeq {exp : Expected} {r : Ty × Ty} (h : Returns (expectSeq exp) c s r s')
    (hs : s.WellFormed W E) (hexp : exp.type.WellFormed W) :
    Extends W E 0 s s' ∧ r.1.WellFormed W ∧ r.2.WellFormed W ∧
      ∀ V : Reading W, V.Accepts s s' → V.Same exp.type (.seq r.1 r.2) := by
  unfold expectSeq at h
  simp only [returns_bind, returns_applied] at h
  obtain ⟨_, _, ⟨rfl, rfl⟩, h⟩ := h
  split at h
  · rename_i r' hr
    obtain ⟨hshape, hn, ha⟩ := asSeq?_eq_some (hs.subst.apply hexp) hr
    rw [returns_pure] at h
    obtain ⟨rfl, rfl⟩ := h
    exact ⟨.refl _, hn, ha, fun V hV => .of_apply hV hshape⟩
  · simp only [returns_bind, returns_pure] at h
    obtain ⟨n, s₁, hfn, a, s₂, hfa, ⟨⟩, _, hu, rfl, rfl⟩ := h
    obtain ⟨hext₁, hn⟩ := returns_freshType (W := W) (E := E) hfn
    obtain ⟨hext₂, ha⟩ := returns_freshType (W := W) (E := E) hfa
    have hs₁ := hext₁.wellFormed hs
    replace hn := hn hs
    replace ha := ha hs₁
    have hseq : (Ty.seq n a).WellFormed W := .con rfl (by simp [hn, ha])
    obtain ⟨hext₃, hunif⟩ := returns_unifyFrom hu (hext₂.wellFormed hs₁) hexp hseq
    exact ⟨(hext₁.trans hext₂).trans hext₃, hn, ha,
      fun V hV => hunif V (hV.right (hext₁.trans hext₂) hext₃)⟩

end SizedTypes.Infer
