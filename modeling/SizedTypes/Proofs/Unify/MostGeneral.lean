import SizedTypes.Proofs.Unify.Soundness

/-!
# Unification finds most general unifiers

A pair with a unifier that respects kinds and scopes is never refused, and every reduction keeps
the unifier: it solves the bindings made so far and equates what was put off. So a run that starts
from unifiable types ends with bindings through which each of their unifiers factors.
-/

set_option autoImplicit false

namespace SizedTypes.Unify

open Relation (ReflTransGen)

/-! ## Pairs that have a unifier -/

/-- `σ` gives the variable a type of its kind, within its scope under `s`. -/
structure Respects (Γ : KindEnv) (s : Subst) (σ : Int → Ty) (v : TyVar) : Prop where
  wellKinded : (σ v.id).WellKinded Γ
  kind : (σ v.id).kindOf = v.kind
  scope : ∀ p ∈ (σ v.id).params, p.id ∈ s.scopeOf v

section Unifiable

variable {Γ : KindEnv} {s : Subst} {σ : Int → Ty}

/-- Types with a unifier that respects kinds have the same kind. -/
theorem kindOf_eq_of_unifies {a b : Ty} (ha : a.WellKinded Γ) (hb : b.WellKinded Γ)
    (hra : ∀ v ∈ a.vars, Respects Γ s σ v) (hrb : ∀ v ∈ b.vars, Respects Γ s σ v)
    (h : a.shape.subst (fun i => (σ i).shape) = b.shape.subst fun i => (σ i).shape) :
    a.kindOf = b.kindOf := by
  have hka : (a.substitute σ).kindOf = a.kindOf :=
    Ty.kindOf_bind (fun _ => rfl) fun v hv => (hra v hv).kind
  have hkb : (b.substitute σ).kindOf = b.kindOf :=
    Ty.kindOf_bind (fun _ => rfl) fun v hv => (hrb v hv).kind
  have hwa : (a.substitute σ).WellKinded Γ :=
    ha.bind fun v hv => ⟨(hra v hv).wellKinded, (hra v hv).kind⟩
  have hwb : (b.substitute σ).WellKinded Γ :=
    hb.bind fun v hv => ⟨(hrb v hv).wellKinded, (hrb v hv).kind⟩
  rw [← hka, ← hkb]
  refine hwa.kindOf_eq hwb ?_
  rw [Ty.shape_substitute, Ty.shape_substitute, h]

/-- The parameters of a type are among those of what it becomes. -/
theorem mem_params_of_unifies {v : Int} {t : Ty}
    (h : (σ v).shape = t.shape.subst fun i => (σ i).shape) {p : Param} (hp : p ∈ t.params) :
    p.id ∈ (σ v).params.map Param.id := by
  rw [Ty.paramIds_eq_shape, h, Shape.mem_params_subst, ← Ty.paramIds_eq_shape]
  exact Or.inr (List.mem_map_of_mem hp)

theorem scope_of_unifies {v : TyVar} {t : Ty} (hv : Respects Γ s σ v)
    (h : (σ v.id).shape = t.shape.subst fun i => (σ i).shape) :
    ∀ p ∈ t.params, p.id ∈ s.scopeOf v := by
  intro p hp
  obtain ⟨q, hq, hid⟩ := List.mem_map.mp (mem_params_of_unifies h hp)
  rw [← hid]
  exact hv.scope q hq

/-- A variable does not occur below a type that it unifies with. -/
theorem occurs_of_unifies {v : TyVar} {t : Ty} (hsyn : ∀ n args body, t ≠ .synonym n args body)
    (hne : ∀ w : TyVar, t = .free w → w.id ≠ v.id)
    (h : (σ v.id).shape = t.shape.subst fun i => (σ i).shape) : t.occurs v.id = false := by
  refine Bool.eq_false_iff.mpr fun hocc => ?_
  rw [Ty.occurs_iff_shape] at hocc
  cases t with
  | free w =>
    rw [Ty.shape_free, Shape.vars_var, List.mem_singleton] at hocc
    exact hne w rfl hocc.symm
  | bound p => simp at hocc
  | synonym n args body => exact hsyn n args body rfl
  | con c args =>
    rw [Ty.shape_con] at hocc h
    exact Shape.subst_ne_of_mem_vars (f := fun i => (σ i).shape) hocc h
  | record fs =>
    rw [Ty.shape_record] at hocc h
    exact Shape.subst_ne_of_mem_vars (f := fun i => (σ i).shape) hocc h
  | newtype n ps fs args =>
    rw [Ty.shape_newtype] at hocc h
    exact Shape.subst_ne_of_mem_vars (f := fun i => (σ i).shape) hocc h

theorem bindChecked_isOk {v : TyVar} {t : Ty} (hkind : v.kind = t.kindOf)
    (hocc : t.occurs v.id = false) (hscope : ∀ p ∈ t.params, p.id ∈ s.scopeOf v) :
    ∃ st, bindChecked s v t = .ok st := by
  have hesc : s.escapedParams v t = [] := Subst.escapedParams_eq_nil.mpr hscope
  exact ⟨.assign v t hocc, by simp [bindChecked, hkind, hocc, hesc]⟩

theorem bindVar_isOk {v : TyVar} {t : Ty} (hsyn : ∀ n args body, t ≠ .synonym n args body)
    (hv : Respects Γ s σ v) (hkind : v.kind = t.kindOf)
    (h : (σ v.id).shape = t.shape.subst fun i => (σ i).shape) :
    ∃ st, bindVar s v t = .ok st := by
  unfold bindVar
  split
  · rename_i w
    split
    · exact ⟨_, rfl⟩
    · rename_i hid
      split
      · exact ⟨_, rfl⟩
      · refine bindChecked_isOk hkind (occurs_of_unifies hsyn ?_ h) (scope_of_unifies hv h)
        intro w' hw'
        cases hw'
        exact hid
  · rename_i hnv
    refine bindChecked_isOk hkind (occurs_of_unifies hsyn ?_ h) (scope_of_unifies hv h)
    intro w hw
    exact absurd hw (hnv w)

theorem mismatch_isOk {c : Con} {as : List Ty} {b : Ty} (hc : c.isOp = true)
    (ha : (Ty.con c as).WellKinded Γ) (hkind : (Ty.con c as).kindOf = b.kindOf) :
    ∃ st, mismatch (.con c as) b = .ok st := by
  cases c with
  | op f =>
    have hnum := ha.kindOf_op
    refine ⟨.defer (.equal (.con (.op f) as) b), ?_⟩
    rw [mismatch, if_neg (not_not.mpr hkind), if_pos ⟨hnum, by simp [Ty.isOpApp, Ty.expand, hc]⟩]
  | _ => simp [Con.isOp] at hc

/-- Two types that are not variables, and have a unifier, are taken apart or put off. -/
theorem decompose_isOk {a b : Ty} (hsa : ∀ n args body, a ≠ .synonym n args body)
    (hsb : ∀ n args body, b ≠ .synonym n args body) (hva : ∀ v, a ≠ .free v)
    (hvb : ∀ v, b ≠ .free v) (ha : a.WellKinded Γ) (hkind : a.kindOf = b.kindOf)
    (h : a.shape.subst (fun i => (σ i).shape) = b.shape.subst fun i => (σ i).shape) :
    ∃ st, decompose a b = .ok st := by
  cases a with
  | free v => exact absurd rfl (hva v)
  | synonym n args body => exact absurd rfl (hsa n args body)
  | bound p =>
    cases b with
    | free v => exact absurd rfl (hvb v)
    | synonym n args body => exact absurd rfl (hsb n args body)
    | bound q =>
      have hid : p.id = q.id := by simpa using h
      exact ⟨.done, by simp [decompose, hid]⟩
    | _ => simp at h
  | con c as =>
    cases b with
    | free v => exact absurd rfl (hvb v)
    | synonym n args body => exact absurd rfl (hsb n args body)
    | con d bs =>
      simp only [Ty.shape_con, Shape.subst_node, Shape.node.injEq, ShapeHead.con.injEq] at h
      have hlen : as.length = bs.length := by simpa using congrArg List.length h.2
      have hsame : c.same d = true := Con.same_iff_key.mpr h.1
      rw [decompose]
      split
      · rename_i hc
        split
        · exact ⟨_, rfl⟩
        · exact mismatch_isOk hc ha hkind
      · exact ⟨_, rfl⟩
    | _ => simp at h
  | record fs =>
    cases b with
    | free v => exact absurd rfl (hvb v)
    | synonym n args body => exact absurd rfl (hsb n args body)
    | record gs =>
      simp only [Ty.shape_record, Shape.subst_node, Shape.node.injEq, ShapeHead.record.injEq] at h
      have hkeys : Table.sameKeys fs gs = true := decide_eq_true h.1
      rw [decompose, if_pos hkeys]
      exact ⟨_, rfl⟩
    | _ => simp at h
  | newtype n ps fs as =>
    cases b with
    | free v => exact absurd rfl (hvb v)
    | synonym n args body => exact absurd rfl (hsb n args body)
    | newtype m qs gs bs =>
      simp only [Ty.shape_newtype, Shape.subst_node, Shape.node.injEq, ShapeHead.newtype.injEq] at h
      have hlen : as.length = bs.length := by simpa using congrArg List.length h.2
      rw [decompose, if_pos h.1, if_pos hlen]
      exact ⟨_, rfl⟩
    | _ => simp at h

/-- A step does not fail on a pair with a unifier that respects kinds and scopes. -/
theorem step_isOk {a b : Ty} (ha : a.WellKinded Γ) (hb : b.WellKinded Γ)
    (hra : ∀ v ∈ a.vars, Respects Γ s σ v) (hrb : ∀ v ∈ b.vars, Respects Γ s σ v)
    (h : a.shape.subst (fun i => (σ i).shape) = b.shape.subst fun i => (σ i).shape) :
    ∃ st, step s a b = .ok st := by
  have hkind := kindOf_eq_of_unifies ha hb hra hrb h
  have hsa : ∀ n args body, a.expand ≠ .synonym n args body := fun _ _ _ => Ty.expand_ne_synonym
  have hsb : ∀ n args body, b.expand ≠ .synonym n args body := fun _ _ _ => Ty.expand_ne_synonym
  rw [← Ty.kindOf_expand a, ← Ty.kindOf_expand b] at hkind
  rw [← Ty.vars_expand] at hra hrb
  rw [← Ty.shape_expand a, ← Ty.shape_expand b] at h
  have hwa := ha.expand
  unfold step
  split
  · exact ⟨_, rfl⟩
  · generalize a.expand = a at *
    generalize b.expand = b at *
    unfold stepExpanded
    split
    · rename_i v
      exact bindVar_isOk hsb (hra v (List.mem_singleton_self v)) hkind h
    · rename_i v _
      exact bindVar_isOk hsa (hrb v (List.mem_singleton_self v)) hkind.symm h.symm
    · rename_i hva hvb
      exact decompose_isOk hsa hsb hva hvb hwa hkind h

end Unifiable

/-! ## Kinds of the bindings -/

theorem kindOf_replace_of_not_mem {t u : Ty} {v : Int} (h : v ∉ t.varIds) :
    (t.replace v u).kindOf = t.kindOf := by
  refine Ty.kindOf_bind (fun _ => rfl) fun w hw => ?_
  have hid : w.id ≠ v := fun hid => h (hid ▸ List.mem_map_of_mem hw)
  rw [if_neg hid]
  rfl

theorem kindOf_apply_of_unbound {s : Subst} {t : Ty} (h : ∀ i ∈ t.varIds, s.lookup i = none) :
    (s.apply t).kindOf = t.kindOf := by
  have key : ∀ bs : List (TyVar × Ty), (∀ b ∈ bs, b.1.id ∉ t.varIds) →
      (bs.foldr (fun b u => u.replace b.1.id b.2) t).kindOf = t.kindOf ∧
        (bs.foldr (fun b u => u.replace b.1.id b.2) t).vars = t.vars := by
    intro bs hbs
    induction bs with
    | nil => exact ⟨rfl, rfl⟩
    | cons b bs ih =>
      obtain ⟨hkind, hvars⟩ := ih fun b' hb' => hbs b' (List.mem_cons_of_mem _ hb')
      have hb := hbs b (List.mem_cons_self ..)
      rw [Ty.varIds, ← hvars] at hb
      rw [List.foldr_cons, kindOf_replace_of_not_mem hb, Ty.vars_replace_of_not_mem hb]
      exact ⟨hkind, hvars⟩
  exact (key s.bindings fun b hb hmem =>
    Subst.lookup_eq_none_iff.mp (h b.1.id hmem) b hb rfl).1

/-- The variables of the pairs are not bound. -/
def Unbound (p : Problem) : Prop := ∀ t ∈ sides p.pairs, ∀ i ∈ t.varIds, p.subst.lookup i = none

theorem extended_of_commit {s s' : Subst} {v : TyVar} {t : Ty} (h : commit s v t = .ok s')
    (hfresh : v.id ∉ t.varIds) (ht : ∀ i ∈ t.varIds, s.lookup i = none) :
    Subst.Extended s v t s' := by
  rcases Subst.extend_eq_ok (extend_of_commit h) with ⟨-, -, hshape⟩ | hext
  · rw [Subst.shape_apply_eq_self ht] at hshape
    refine absurd ?_ hfresh
    rw [Ty.varIds_eq_shape, hshape]
    exact List.mem_singleton_self _
  · exact hext

theorem extended_lookup_of_ne {s s' : Subst} {v : TyVar} {t : Ty}
    (h : Subst.Extended s v t s') {i : Int} (hi : i ≠ v.id) (hs : s.lookup i = none) :
    s'.lookup i = none := by
  rw [h.eq, Subst.lookup_eq_none_iff]
  intro b hb
  rcases List.mem_cons.mp hb with rfl | hb
  · exact Ne.symm hi
  · exact Subst.lookup_eq_none_iff.mp hs b hb

section Run

variable {p q : Problem}

theorem Reduces.unbound (h : Reduces p q) (hp : Unbound p) : Unbound q := by
  intro x hx i hi
  rcases h.sides_cases with ⟨heq, hsides⟩ | ⟨v, t, hcommit, -, hfresh, -, ⟨w, hw, rfl⟩, -, hsides⟩
  · rw [heq]
    obtain ⟨u, hu, rfl | hpart⟩ := hsides x hx
    · exact hp x hu i hi
    · obtain ⟨z, hz, rfl⟩ := List.mem_map.mp hi
      refine hp u hu z.id ?_
      rw [← Ty.varIds_expand]
      exact List.mem_map_of_mem (vars_of_mem_parts hpart hz)
  · obtain ⟨u, hu, rfl⟩ := hsides x hx
    have hunbound : ∀ j ∈ w.expand.varIds, p.subst.lookup j = none := by
      rw [Ty.varIds_expand]
      exact hp w hw
    have hext := extended_of_commit hcommit hfresh hunbound
    rcases Ty.mem_vars_replace _ hi with ⟨hi, hne⟩ | hi
    · exact extended_lookup_of_ne hext hne (hp u hu i hi)
    · refine extended_lookup_of_ne hext (fun hid => hfresh (hid ▸ hi)) (hunbound i hi)

theorem Reduces.bindings_kinded (h : Reduces p q) (hp : Unbound p)
    (hk : ∀ b ∈ p.subst.bindings, b.2.kindOf = b.1.kind) :
    ∀ b ∈ q.subst.bindings, b.2.kindOf = b.1.kind := by
  rcases h.sides_cases with ⟨heq, -⟩ | ⟨v, t, hcommit, hkind, hfresh, -, ⟨w, hw, rfl⟩, -⟩
  · rw [heq]
    exact hk
  · have hunbound : ∀ j ∈ w.expand.varIds, p.subst.lookup j = none := by
      rw [Ty.varIds_expand]
      exact hp w hw
    rw [(extended_of_commit hcommit hfresh hunbound).eq]
    intro b hb
    rcases List.mem_cons.mp hb with rfl | hb
    · exact (kindOf_apply_of_unbound hunbound).trans hkind
    · exact hk b hb

/-- Every binding of a run gives a variable a type of its kind. -/
theorem bindings_kinded_of_reduces (h : ReflTransGen Reduces p q) (hp : Unbound p)
    (hk : ∀ b ∈ p.subst.bindings, b.2.kindOf = b.1.kind) :
    ∀ b ∈ q.subst.bindings, b.2.kindOf = b.1.kind := by
  have key : Unbound q ∧ ∀ b ∈ q.subst.bindings, b.2.kindOf = b.1.kind := by
    induction h with
    | refl => exact ⟨hp, hk⟩
    | tail _ h ih => exact ⟨h.unbound ih.1, h.bindings_kinded ih.1 ih.2⟩
  exact key.2

end Run

/-! ## Unifiers along a run -/

/-- `σ` unifies what is left, agrees with what is done, and respects kinds and scopes. -/
structure Unifiable (Γ : KindEnv) (σ : Int → Ty) (p : Problem) : Prop where
  unifies : Unifies Eq (fun i => (σ i).shape) p.pairs
  solves : Subst.Solves (fun i => (σ i).shape) p.subst
  equates : ∀ e ∈ p.props, Equates Eq (fun i => (σ i).shape) e
  unbound : Unbound p
  wellKinded : ∀ t ∈ sides p.pairs, t.WellKinded Γ
  respects : ∀ t ∈ sides p.pairs, ∀ v ∈ t.vars, Respects Γ p.subst σ v

section Unifiable

variable {Γ : KindEnv} {σ : Int → Ty} {p q : Problem}

theorem wellKinded_of_mem_parts {t u : Ty} (ht : t.WellKinded Γ) (h : u ∈ parts t) :
    u.WellKinded Γ := by
  cases ht with
  | con _ _ hargs _ _ => exact hargs u h
  | record hfs _ =>
    obtain ⟨f, hf, rfl⟩ := List.mem_map.mp h
    exact hfs f hf
  | newtype hargs _ => exact hargs u h
  | _ => simp [parts] at h

theorem holds_of_step {s : Subst} {a b : Ty} {st : Step} (h : step s a b = .ok st)
    (hab : a.shape.subst (fun i => (σ i).shape) = b.shape.subst fun i => (σ i).shape) :
    st.Holds Eq fun i => (σ i).shape := by
  unfold step at h
  split at h
  · cases h
    exact trivial
  · rw [← Ty.shape_expand a, ← Ty.shape_expand b] at hab
    exact stepExpanded_complete h hab

theorem Reduces.unifies_next (h : Reduces p q)
    (hp : Unifies Eq (fun i => (σ i).shape) p.pairs) : Unifies Eq (fun i => (σ i).shape) q.pairs := by
  cases h with
  | done _ => exact (unifies_cons.mp hp).2
  | defer _ => exact (unifies_cons.mp hp).2
  | pairs hstep =>
    obtain ⟨hab, hrest⟩ := unifies_cons.mp hp
    exact unifies_append.mpr ⟨holds_of_step hstep hab, hrest⟩
  | assign hstep _ =>
    obtain ⟨hab, hrest⟩ := unifies_cons.mp hp
    exact (unifies_replacePairs (σ := fun i => (σ i).shape) (holds_of_step hstep hab)).mpr hrest

theorem Reduces.equates_next (h : Reduces p q) (hp : Unifies Eq (fun i => (σ i).shape) p.pairs)
    (heq : ∀ e ∈ p.props, Equates Eq (fun i => (σ i).shape) e) :
    ∀ e ∈ q.props, Equates Eq (fun i => (σ i).shape) e := by
  cases h with
  | defer hstep =>
    intro e he
    rcases List.mem_append.mp he with he | he
    · exact heq e he
    · rw [List.mem_singleton.mp he]
      exact holds_of_step hstep (unifies_cons.mp hp).1
  | _ => exact heq

theorem Respects.extended {s s' : Subst} {v w : TyVar} {t : Ty} (hext : Subst.Extended s v t s')
    (ht : ∀ i ∈ t.varIds, s.lookup i = none) (hv : Respects Γ s σ v)
    (hts : ∀ z ∈ t.vars, Respects Γ s σ z)
    (hagree : (σ v.id).shape = t.shape.subst fun i => (σ i).shape) (hw : Respects Γ s σ w) :
    Respects Γ s' σ w := by
  refine ⟨hw.wellKinded, hw.kind, fun r hr => ?_⟩
  rcases hext.scopeOf w with hscope | ⟨w', hw', hid, hscope⟩
  · rw [hscope]
    exact hw.scope r hr
  · rw [Subst.vars_apply_eq_self ht] at hw'
    rw [hscope, List.mem_filter, List.contains_iff_mem]
    rw [← hid] at hr
    refine ⟨(hts w' hw').scope r hr, ?_⟩
    -- a parameter of the image of `w'` is one of the image of `v`
    have hmem : r.id ∈ (σ v.id).params.map Param.id := by
      rw [Ty.paramIds_eq_shape, hagree, Shape.mem_params_subst]
      refine Or.inl ⟨w'.id, ?_, ?_⟩
      · rw [← Ty.varIds_eq_shape]
        exact List.mem_map_of_mem hw'
      · rw [← Ty.paramIds_eq_shape]
        exact List.mem_map_of_mem hr
    obtain ⟨r', hr', hrid⟩ := List.mem_map.mp hmem
    rw [← hrid]
    exact hv.scope r' hr'

theorem Unifiable.reduces (hp : Unifiable Γ σ p) (h : Reduces p q) : Unifiable Γ σ q := by
  refine ⟨h.unifies_next hp.unifies, ?_, h.equates_next hp.unifies hp.equates,
    h.unbound hp.unbound, ?_, ?_⟩
  all_goals
    rcases h.sides_cases with ⟨heq, hsides⟩ |
      ⟨v, t, hcommit, hkind, hfresh, ⟨u₀, hu₀, hv₀⟩, ⟨w, hw, rfl⟩, hagree, hsides⟩
  · rw [heq]
    exact hp.solves
  · have hunbound : ∀ i ∈ w.expand.varIds, p.subst.lookup i = none := by
      rw [Ty.varIds_expand]
      exact hp.unbound w hw
    rw [(extended_of_commit hcommit hfresh hunbound).eq]
    intro b hb
    rcases List.mem_cons.mp hb with rfl | hb
    · rw [hp.solves.shape_apply]
      exact hagree _ hp.unifies
    · exact hp.solves b hb
  · intro x hx
    obtain ⟨u, hu, rfl | hpart⟩ := hsides x hx
    · exact hp.wellKinded x hu
    · exact wellKinded_of_mem_parts (hp.wellKinded u hu).expand hpart
  · intro x hx
    obtain ⟨u, hu, rfl⟩ := hsides x hx
    have hv : v.kind = Γ.var v.id := by
      have hwk := (hp.wellKinded u₀ hu₀).expand
      rw [hv₀] at hwk
      cases hwk with
      | free hv => exact hv
    refine (hp.wellKinded u hu).bind_var fun z hz hzk => ?_
    split
    · rename_i hid
      rw [hzk, hid, ← hv]
      exact ⟨(hp.wellKinded w hw).expand, hkind⟩
    · exact ⟨.free hzk, rfl⟩
  · intro x hx z hz
    rw [heq]
    obtain ⟨u, hu, rfl | hpart⟩ := hsides x hx
    · exact hp.respects x hu z hz
    · refine hp.respects u hu z ?_
      rw [← Ty.vars_expand]
      exact vars_of_mem_parts hpart hz
  · intro x hx z hz
    obtain ⟨u, hu, rfl⟩ := hsides x hx
    have hunbound : ∀ i ∈ w.expand.varIds, p.subst.lookup i = none := by
      rw [Ty.varIds_expand]
      exact hp.unbound w hw
    have hresp : ∀ y ∈ w.expand.vars, Respects Γ p.subst σ y := by
      rw [Ty.vars_expand]
      exact hp.respects w hw
    have hv : Respects Γ p.subst σ v := by
      refine hp.respects u₀ hu₀ v ?_
      rw [← Ty.vars_expand, hv₀]
      exact List.mem_singleton_self v
    have hext := extended_of_commit hcommit hfresh hunbound
    refine Respects.extended hext hunbound hv hresp (hagree _ hp.unifies) ?_
    rw [Ty.replace, Ty.vars_bind, List.mem_flatMap] at hz
    obtain ⟨y, hy, hz⟩ := hz
    split at hz
    · exact hresp z hz
    · rw [Ty.vars, List.mem_singleton] at hz
      exact hz ▸ hp.respects u hu y hy

theorem Unifiable.commit_isOk (hp : Unifiable Γ σ p) {a b : Ty} {rest : List (Ty × Ty)}
    (hpairs : p.pairs = (a, b) :: rest) {v : TyVar} {t : Ty} {fresh : t.occurs v.id = false}
    (hstep : step p.subst a b = .ok (.assign v t fresh)) :
    ∃ s', commit p.subst v t = .ok s' := by
  have ha : a ∈ sides p.pairs := by simp [hpairs, sides]
  have hb : b ∈ sides p.pairs := by simp [hpairs, sides]
  have hunif := hp.unifies
  rw [hpairs] at hunif
  have hagree : (σ v.id).shape = t.shape.subst fun i => (σ i).shape :=
    holds_of_step hstep (unifies_cons.mp hunif).1
  obtain ⟨u, hu, w, hw, hv, rfl⟩ : ∃ u ∈ sides p.pairs, ∃ w ∈ sides p.pairs,
      u.expand = .free v ∧ t = w.expand := by
    rcases (assign_of_step hstep).1 with ⟨hva, rfl⟩ | ⟨hvb, rfl⟩
    · exact ⟨a, ha, b, hb, hva, rfl⟩
    · exact ⟨b, hb, a, ha, hvb, rfl⟩
  have hvmem : v ∈ u.vars := by
    rw [← Ty.vars_expand, hv]
    exact List.mem_singleton_self v
  have hunbound : ∀ i ∈ w.expand.varIds, p.subst.lookup i = none := by
    rw [Ty.varIds_expand]
    exact hp.unbound w hw
  have hshape := Subst.shape_apply_eq_self hunbound
  have hfresh : v.id ∉ (p.subst.apply w.expand).varIds := by
    rw [Ty.varIds_eq_shape, hshape, ← Ty.varIds_eq_shape]
    exact not_mem_varIds_of_occurs fresh
  have hscope : ∀ r ∈ (p.subst.apply w.expand).params, r.id ∈ p.subst.scopeOf v := by
    rw [← hshape] at hagree
    exact scope_of_unifies (hp.respects u hu v hvmem) hagree
  obtain ⟨s', hs'⟩ := Subst.extend_isOk
    (hp.unbound u hu v.id (Ty.mem_varIds_of_mem_vars hvmem)) hfresh hscope
  exact ⟨s', by simp [commit, hs']⟩

/-- A problem with a unifier and with pairs left can be reduced. -/
theorem Unifiable.progress (hp : Unifiable Γ σ p) (hne : p.pairs ≠ []) : ∃ q, Reduces p q := by
  obtain ⟨s, props, pairs⟩ := p
  cases pairs with
  | nil => exact absurd rfl hne
  | cons e rest =>
    obtain ⟨a, b⟩ := e
    have ha : a ∈ sides ((a, b) :: rest) := by simp [sides]
    have hb : b ∈ sides ((a, b) :: rest) := by simp [sides]
    obtain ⟨st, hst⟩ := step_isOk (hp.wellKinded a ha) (hp.wellKinded b hb)
      (hp.respects a ha) (hp.respects b hb) (unifies_cons.mp hp.unifies).1
    cases st with
    | done => exact ⟨_, .done hst⟩
    | defer e => exact ⟨_, .defer hst⟩
    | pairs ps => exact ⟨_, .pairs hst⟩
    | assign v t fresh =>
      obtain ⟨s', hs'⟩ := hp.commit_isOk rfl hst
      exact ⟨_, .assign hst hs'⟩

/-- A problem with a unifier is solved, by bindings and equalities that the unifier satisfies. -/
theorem Unifiable.solved (hp : Unifiable Γ σ p) : ∃ θ eqs, p.solve = .ok (θ, eqs) ∧
    Subst.Solves (fun i => (σ i).shape) θ ∧ ∀ e ∈ eqs, Equates Eq (fun i => (σ i).shape) e := by
  induction reduces_acc p with
  | intro p _ ih =>
    by_cases hne : p.pairs = []
    · refine ⟨p.subst, p.props, ?_, hp.solves, hp.equates⟩
      rw [Problem.solve, hne, solve]
    · obtain ⟨q, hq⟩ := hp.progress hne
      rw [hq.solve_eq]
      exact ih q hq (hp.reduces hq)

end Unifiable

/-! ## Most general unifiers -/

/-- `σ` after `θ`. -/
def after (σ : Int → Ty) (θ : Subst) (i : Int) : Ty :=
  (θ.apply (.free ⟨i, .unknown, [], none⟩)).substitute σ

theorem shape_after (σ : Int → Ty) (θ : Subst) (i : Int) :
    (after σ θ i).shape = (θ.image i).subst fun j => (σ j).shape := by
  rw [after, Ty.shape_substitute, Subst.shape_apply, Ty.shape_free, Shape.subst_var]

theorem shape_substitute_after (σ : Int → Ty) (θ : Subst) (t : Ty) :
    t.shape.subst (fun i => (after σ θ i).shape) = ((θ.apply t).substitute σ).shape := by
  rw [Ty.shape_substitute, Subst.shape_apply, Shape.subst_subst]
  exact Shape.subst_congr fun i _ => shape_after σ θ i

/-- As a triangular substitution solves itself, so does any map after it. -/
theorem solves_after (σ : Int → Ty) {θ : Subst} (h : θ.Triangular) :
    Subst.Solves (fun i => (after σ θ i).shape) θ := by
  intro b hb
  have heq := congrArg (Shape.subst fun j => (σ j).shape) (h.solves b hb)
  dsimp only
  rw [shape_substitute_after, shape_after, heq, Ty.shape_substitute, Subst.shape_apply]

theorem unify_sound {s θ : Subst} {a b : Ty} {eqs : List Ty} (hsyn : SynonymsFunctional [a, b])
    (h : unify s a b = .ok ⟨θ, eqs⟩) (σ : Int → Ty)
    (hσ : ∀ l r, .equal l r ∈ eqs →
      ((θ.apply l).substitute σ).same ((θ.apply r).substitute σ) = true) :
    ((θ.apply a).substitute σ).same ((θ.apply b).substitute σ) = true := by
  have hrun := reduces_of_unify h
  have htri : θ.Triangular := triangular_of_reduces hrun Subst.triangular_empty
  have hprops : ∀ e ∈ eqs, Equates Eq (fun i => (after σ θ i).shape) e := by
    intro e he
    obtain ⟨l, r, rfl⟩ := equalities_of_reduces hrun (List.forall_mem_nil _) e he
    have hlr := (Ty.same_iff_shape _ _).mp (hσ l r he)
    rw [← shape_substitute_after, ← shape_substitute_after] at hlr
    exact equates_equal.mpr hlr
  have hunif := unifies_of_reduces Shape.congruence_eq hrun (solves_after σ htri) hprops
    (List.forall_mem_nil _) (hsyn.under (after σ θ))
  have hab := hunif (a, b) (List.mem_singleton_self _)
  rw [shape_substitute_after, shape_substitute_after] at hab
  exact (Ty.same_iff_shape _ _).mpr hab

theorem unify_general {Γ : KindEnv} {s : Subst} {a b : Ty} (ha : a.WellKinded Γ)
    (hb : b.WellKinded Γ) {σ : Int → Ty} (hσ : ∀ v ∈ a.vars ++ b.vars, Respects Γ s σ v)
    (hab : (a.substitute σ).same (b.substitute σ) = true) :
    ∃ θ eqs, unify s a b = .ok ⟨θ, eqs⟩ ∧
      (∀ v : TyVar, (σ v.id).same ((θ.apply (.free v)).substitute σ) = true) ∧
      ∀ l r, .equal l r ∈ eqs → (l.substitute σ).same (r.substitute σ) = true := by
  rw [Ty.same_iff_shape, Ty.shape_substitute, Ty.shape_substitute] at hab
  have hsides : ∀ t ∈ sides [(a, b)], t = a ∨ t = b := by simp [sides]
  have hp : Unifiable Γ σ ⟨s.onlyScopes, [], [(a, b)]⟩ := by
    refine ⟨?_, List.forall_mem_nil _, List.forall_mem_nil _, fun _ _ _ _ => rfl, ?_, ?_⟩
    · exact unifies_cons.mpr ⟨hab, List.forall_mem_nil _⟩
    · intro t ht
      rcases hsides t ht with rfl | rfl
      · exact ha
      · exact hb
    · intro t ht v hv
      have hv : v ∈ a.vars ++ b.vars := by
        rcases hsides t ht with rfl | rfl
        · exact List.mem_append_left _ hv
        · exact List.mem_append_right _ hv
      exact ⟨(hσ v hv).wellKinded, (hσ v hv).kind, (hσ v hv).scope⟩
  obtain ⟨θ, eqs, hsolve, hsolves, hequates⟩ := hp.solved
  refine ⟨θ, eqs, ?_, fun v => ?_, fun l r hlr => ?_⟩
  · rw [Problem.solve] at hsolve
    rw [unify, hsolve]
  · rw [Ty.same_iff_shape, Ty.shape_substitute, hsolves.shape_apply]
    rfl
  · have := equates_equal.mp (hequates _ hlr)
    rw [Ty.same_iff_shape, Ty.shape_substitute, Ty.shape_substitute, this]

/-- Unification ends; what it returns are bindings of the right kinds that unify, as far as the
equalities put off hold; and it returns bindings through which every unifier factors that respects
kinds and scopes, together with equalities that each of these unifiers satisfies. -/
theorem unify_mostGeneral {Γ : KindEnv} {s : Subst} {a b : Ty} (ha : a.WellKinded Γ)
    (hb : b.WellKinded Γ) (hsyn : SynonymsFunctional [a, b]) :
    Acc (fun q p => Reduces p q) ⟨s.onlyScopes, [], [(a, b)]⟩ ∧
    (∀ θ eqs, unify s a b = .ok ⟨θ, eqs⟩ →
      (∀ e ∈ θ.bindings, e.2.kindOf = e.1.kind) ∧ (∀ e ∈ eqs, ∃ l r : Ty, e = .equal l r) ∧
      ∀ σ : Int → Ty, (∀ l r, .equal l r ∈ eqs →
          ((θ.apply l).substitute σ).same ((θ.apply r).substitute σ) = true) →
        ((θ.apply a).substitute σ).same ((θ.apply b).substitute σ) = true) ∧
    ∀ σ : Int → Ty, (∀ v ∈ a.vars ++ b.vars, Respects Γ s σ v) →
      (a.substitute σ).same (b.substitute σ) = true →
      ∃ θ eqs, unify s a b = .ok ⟨θ, eqs⟩ ∧
        (∀ v : TyVar, (σ v.id).same ((θ.apply (.free v)).substitute σ) = true) ∧
        ∀ l r, .equal l r ∈ eqs → (l.substitute σ).same (r.substitute σ) = true := by
  refine ⟨reduces_acc _, fun θ eqs h => ⟨?_, ?_, unify_sound hsyn h⟩,
    fun σ hσ hab => unify_general ha hb hσ hab⟩
  · exact bindings_kinded_of_reduces (reduces_of_unify h) (fun _ _ _ _ => rfl) (List.forall_mem_nil _)
  · exact equalities_of_reduces (reduces_of_unify h) (List.forall_mem_nil _)

/-- The synonym `Pair t = (t, t)`, used at `t`. -/
def pairOf (t : Ty) : Ty := .synonym { id := 7, ident := "Pair" } [t] (.tuple [t, t])

/-- `Pair t -> [n + 1]`. -/
def pairToWord (t n : Ty) : Ty := .arrow (pairOf t) (.word (.op .add [n, .num 1]))

theorem pairToWord_wellKinded {Γ : KindEnv} {t n : Ty} (ht : t.WellKinded Γ) (hn : n.WellKinded Γ)
    (hkt : t.kindOf = .type) (hkn : n.kindOf = .num) : (pairToWord t n).WellKinded Γ := by
  have hpair : (pairOf t).WellKinded Γ := by
    refine .synonym (.con .type trivial ?_ ?_ rfl)
    · simpa using ht
    · simp [hkt, Con.kind, Kind.arrows]
  have hsize : (Ty.op .add [n, .num 1]).WellKinded Γ := by
    refine .con .num trivial ?_ ?_ rfl
    · have hone : (Ty.num 1).WellKinded Γ := .con .num trivial (by simp) rfl rfl
      simpa [hn] using hone
    · simp [hkn, Con.kind, SizeOp.kind, Ty.num, Ty.kindOf, Kind.afterArgs]
  have hbit : Ty.bit.WellKinded Γ := .con .type trivial (by simp) rfl rfl
  have hword : (Ty.word (.op .add [n, .num 1])).WellKinded Γ := by
    refine .con .type trivial ?_ rfl rfl
    simpa [hsize] using hbit
  refine .con .type trivial ?_ rfl rfl
  simpa [hpair] using hword

theorem uses_con {c : Con} {as : List Ty} {n : Int} {args : List Ty} {body : Ty} :
    (Ty.con c as).Uses n args body ↔ ∃ a ∈ as, a.Uses n args body := by
  constructor
  · rintro (- | - | ⟨ha, hu⟩)
    exact ⟨_, ha, hu⟩
  · rintro ⟨a, ha, hu⟩
    exact .con ha hu

theorem pairToWord_functional {v w : TyVar} :
    SynonymsFunctional [pairToWord (.free v) (.free w), pairToWord .bit (.num 7)] := by
  let decl : TypeSynonym :=
    { name := { id := 7, ident := "Pair" }, params := [⟨3, .type, none⟩],
      body := .tuple [.bound ⟨3, .type, none⟩, .bound ⟨3, .type, none⟩] }
  have huses : ∀ t n : Ty, (∀ m as b, ¬t.Uses m as b) → (∀ m as b, ¬n.Uses m as b) →
      SynonymsDeclared (fun _ => decl) (pairToWord t n) := by
    intro t n ht hn m as b h
    have hcon : ∀ c, ¬(Ty.con c []).Uses m as b := by simp [uses_con]
    simp only [pairToWord, Ty.arrow, Ty.word, Ty.seq, Ty.op, Ty.bit, Ty.num, uses_con,
      List.mem_cons, List.not_mem_nil, or_false, exists_eq_or_imp, exists_eq_left, hn, hcon] at h
    cases h with
    | here =>
      refine ⟨rfl, (Ty.same_iff_shape _ _).mpr ?_⟩
      simp [decl, Ty.tuple, Ty.instantiate, Ty.bind, Ty.bindList, Schema.assignment, Table.ofList,
        Table.insert, Table.find?]
    | body h => simp [Ty.tuple, uses_con, ht] at h
  refine @synonymsFunctional_of_declared (fun _ => decl) _ fun t ht => ?_
  have hnone : ∀ m as b, ¬Ty.bit.Uses m as b ∧ ¬(Ty.num 7).Uses m as b := by
    simp [Ty.bit, Ty.num, uses_con]
  simp only [List.mem_cons, List.not_mem_nil, or_false] at ht
  rcases ht with rfl | rfl
  · exact huses _ _ (fun _ _ _ h => by cases h) fun _ _ _ h => by cases h
  · exact huses _ _ (fun m as b => (hnone m as b).1) fun m as b => (hnone m as b).2

/-- `Bit` for `?a`, `7` for `?n`. -/
def pairUnifier (i : Int) : Ty := if i = 1 then .bit else .num 7

/-- Unifying `Pair ?a -> [?n + 1]` with `Pair Bit -> [7 + 1]`. -/
theorem unify_mostGeneral_pair :
    ∃ θ eqs, unify {} (pairToWord (.free ⟨1, .type, [], none⟩) (.free ⟨2, .num, [], none⟩))
        (pairToWord .bit (.num 7)) = .ok ⟨θ, eqs⟩ ∧
      (∀ v : TyVar,
        (pairUnifier v.id).same ((θ.apply (.free v)).substitute pairUnifier) = true) ∧
      ∀ l r, .equal l r ∈ eqs → (l.substitute pairUnifier).same (r.substitute pairUnifier) := by
  let Γ : KindEnv := ⟨fun i => if i = 1 then .type else .num, fun _ => .type, fun _ => .type⟩
  have hbit : Ty.bit.WellKinded Γ := .con .type trivial (by simp) rfl rfl
  have hnum : (Ty.num 7).WellKinded Γ := .con .num trivial (by simp) rfl rfl
  have hleft := pairToWord_wellKinded (Γ := Γ) (t := .free ⟨1, .type, [], none⟩)
    (n := .free ⟨2, .num, [], none⟩) (.free rfl) (.free rfl) rfl rfl
  have hright := pairToWord_wellKinded hbit hnum rfl rfl
  refine (unify_mostGeneral hleft hright pairToWord_functional).2.2 pairUnifier (fun v hv => ?_) ?_
  · have hv : v = ⟨1, .type, [], none⟩ ∨ v = ⟨2, .num, [], none⟩ := by
      simpa [pairToWord, pairOf, Ty.arrow, Ty.word, Ty.seq, Ty.op, Ty.bit, Ty.num, Ty.tuple,
        Ty.vars, Ty.varsList] using hv
    rcases hv with rfl | rfl
    · exact ⟨hbit, rfl, List.forall_mem_nil _⟩
    · exact ⟨hnum, rfl, List.forall_mem_nil _⟩
  · decide

end SizedTypes.Unify
