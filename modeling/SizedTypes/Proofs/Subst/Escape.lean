import SizedTypes.Proofs.Subst.Acyclic

/-!
# Escape

A variable is declared with the parameters on which it may depend. An extension checks only the
type at hand, and cuts the scopes of its variables down. Chains of bindings, in any order, keep a
variable within its bound nevertheless: what it stands for mentions parameters of the bound only,
and may come to mention no others.
-/

set_option autoImplicit false

namespace SizedTypes.Subst

variable {scopes bound : Int → List Int} {Q : TyVar → Prop} {s s' : Subst} {v : TyVar} {t : Ty}

/-! ## Declared variables -/

/-- A binding of a variable in `Q` to a type over such variables. -/
structure Among (Q : TyVar → Prop) (v : TyVar) (t : Ty) : Prop where
  var : Q v
  type : t.Over Q

theorem over_apply (hs : ∀ b ∈ s.bindings, Among Q b.1 b.2) (ht : t.Over Q) :
    (s.apply t).Over Q := by
  have key : ∀ bs : List (TyVar × Ty), (∀ b ∈ bs, Among Q b.1 b.2) →
      (bs.foldr (fun b u => u.replace b.1.id b.2) t).Over Q := by
    intro bs hbs
    induction bs with
    | nil => exact ht
    | cons b bs ih =>
      obtain ⟨hb, hbs⟩ := List.forall_mem_cons.mp hbs
      exact (ih hbs).replace hb.type b.1.id
  exact key s.bindings hs

theorem Extended.among (h : Extended s v t s') (hs : ∀ b ∈ s.bindings, Among Q b.1 b.2)
    (hb : Among Q v t) : ∀ b ∈ s'.bindings, Among Q b.1 b.2 := by
  rw [h.eq]
  exact List.forall_mem_cons.mpr ⟨⟨hb.var, over_apply hs hb.type⟩, hs⟩

/-- Bindings without phantom arguments never close a chain. -/
theorem Reaches.acyclic_among (h : Reaches (Among Q) s s')
    (hs : ∀ b ∈ s.bindings, Among Q b.1 b.2) (hacyclic : s.Acyclic) :
    (∀ b ∈ s'.bindings, Among Q b.1 b.2) ∧ s'.Acyclic := by
  refine h.induct (P := fun s => (∀ b ∈ s.bindings, Among Q b.1 b.2) ∧ s.Acyclic) ⟨hs, hacyclic⟩
    fun ⟨hs, hacyclic⟩ hb hext => ⟨hext.among hs hb, hext.acyclic hacyclic fun hmem => ?_⟩
  exact hext.fresh ((over_apply hs hb.type).phantomFree.mem_varIds hmem)

/-- The variable has the scope that was declared for its id. -/
def DeclaredIn (scopes : Int → List Int) (v : TyVar) : Prop := v.scope = scopes v.id

theorem scopeOf_eq_of_declared (s : Subst) {v w : TyVar} (hv : DeclaredIn scopes v)
    (hw : DeclaredIn scopes w) (hid : v.id = w.id) : s.scopeOf v = s.scopeOf w :=
  s.scopeOf_congr hid (by rw [hv, hw, hid])

theorem Extended.mem_scopeOf_declared (h : Extended s v t s')
    (ht : (s.apply t).Over (DeclaredIn scopes)) {w : TyVar} (hw : DeclaredIn scopes w) {i : Int} :
    i ∈ s'.scopeOf w ↔ i ∈ s.scopeOf w ∧ (w.id ∈ (s.apply t).varIds → i ∈ s.scopeOf v) := by
  refine h.mem_scopeOf fun u hu hid => ?_
  rw [ht.vars u ((Ty.mem_leaves_of_mem _).1 u hu), hw, hid]

/-! ## Keeping within bounds -/

/-- Every variable stands for a type within its bound: parameters of the bound, and variables that
may depend on these only. -/
structure Within (scopes bound : Int → List Int) (s : Subst) : Prop where
  among : ∀ b ∈ s.bindings, Among (DeclaredIn scopes) b.1 b.2
  params : ∀ u, DeclaredIn scopes u →
    ∀ p, .inr p ∈ (s.apply (.free u)).leaves → p.id ∈ bound u.id
  vars : ∀ u, DeclaredIn scopes u →
    ∀ w, .inl w ∈ (s.apply (.free u)).leaves → s.scopeOf w ⊆ bound u.id

/-- Without bindings, the scopes themselves are bounds. -/
theorem within_onlyScopes (h : ∀ u, DeclaredIn scopes u → s.scopeOf u = bound u.id) :
    Within scopes bound s.onlyScopes where
  among _ hb := nomatch hb
  params _ _ p hp := by
    rw [apply_eq_self fun _ _ => rfl, Ty.leaves] at hp
    simp at hp
  vars u hu w hw := by
    rw [apply_eq_self fun _ _ => rfl, Ty.leaves, List.mem_singleton, Sum.inl.injEq] at hw
    rw [hw]
    exact fun i hi => h u hu ▸ hi

theorem Extended.within (h : Extended s v t s') (hs : Within scopes bound s)
    (hb : Among (DeclaredIn scopes) v t) : Within scopes bound s' := by
  have ht := over_apply hs.among hb.type
  have hdeclared : ∀ u, DeclaredIn scopes u → ∀ w, .inl w ∈ (s.apply (.free u)).leaves →
      DeclaredIn scopes w := fun u hu => (over_apply hs.among (Ty.over_free.mpr hu)).vars
  -- Where `v` stood, its type stands now: what that may mention is what `v` might.
  have hbound : ∀ u, DeclaredIn scopes u → v.id ∈ (s.apply (.free u)).leafIds →
      s.scopeOf v ⊆ bound u.id := by
    intro u hu hmem
    obtain ⟨v', hv', hid⟩ := Ty.mem_leafIds.mp hmem
    rw [← s.scopeOf_eq_of_declared (hdeclared u hu v' hv') hb.var hid]
    exact hs.vars u hu v' hv'
  refine ⟨h.among hs.among hb, fun u hu p hp => ?_, fun u hu w hw i hi => ?_⟩
  · rw [h.apply] at hp
    rcases Ty.mem_leaves_replace.mp hp with ⟨hp, -⟩ | ⟨hv, hp⟩
    · exact hs.params u hu p hp
    · obtain ⟨q, hq, hid⟩ := List.mem_map.mp (ht.phantomFree.shows _ hp)
      exact hid ▸ hbound u hu hv (h.inScope q hq)
  · rw [h.apply] at hw
    rcases Ty.mem_leaves_replace.mp hw with ⟨hw, -⟩ | ⟨hv, hw⟩
    · exact hs.vars u hu w hw ((h.mem_scopeOf_declared ht (hdeclared u hu w hw)).mp hi).1
    · have hnarrow := (h.mem_scopeOf_declared ht (ht.vars w hw)).mp hi
      exact hbound u hu hv (hnarrow.2 (ht.phantomFree.shows _ hw))

theorem Reaches.within (h : Reaches (Among (DeclaredIn scopes)) s s')
    (hs : Within scopes bound s) : Within scopes bound s' :=
  h.induct hs fun hs hb hext => hext.within hs hb

/-- In every history, what a variable stands for mentions only parameters of the scope it was
declared with, its variables may depend on these only, and so it stays whatever follows. -/
theorem params_within_declaredScope (hs : s.Reachable (Among (DeclaredIn scopes)))
    (hv : DeclaredIn scopes v) :
    (∀ p, .inr p ∈ (s.apply (.free v)).leaves → p.id ∈ v.scope) ∧
    (∀ w, .inl w ∈ (s.apply (.free v)).leaves → s.scopeOf w ⊆ v.scope) ∧
    ∀ s', Reaches (Among (DeclaredIn scopes)) s s' →
      ∀ p, .inr p ∈ (s'.apply (.free v)).leaves → p.id ∈ v.scope := by
  have hempty : Within scopes scopes empty := within_onlyScopes (s := empty) fun _ hu => hu
  have hwithin := Reaches.within hs hempty
  have hscope : v.scope = scopes v.id := hv
  rw [hscope]
  exact ⟨hwithin.params v hv, hwithin.vars v hv,
    fun s' h p hp => (h.within hwithin).params v hv p hp⟩

/-! A chain of two variables, the second one bound by a merge. The second variable may depend on
two parameters until the first one is bound to a type that mentions it. -/

def outerVar : TyVar := { id := 1, kind := .type, scope := [10] }

def innerVar : TyVar := { id := 2, kind := .type, scope := [10, 11] }

def outerParam : Param := { id := 10, kind := .type }

/-- `?1 := Pair ?2`, where `Pair t` is `(t, Bit)`. -/
def pairBinding : Ty :=
  .synonym { id := 9, ident := "Pair" } [.free innerVar] (.tuple [.free innerVar, .bit])

/-- `?2 := a10`, which may not be another parameter any more. -/
def innerBinding : Subst := { bindings := [(innerVar, .bound outerParam)] }

def narrowedChain : Subst where
  bindings := [(innerVar, .bound outerParam), (outerVar, pairBinding)]
  scopes := [(2, [10])]

def chainScopes (i : Int) : List Int := if i = 1 then [10] else [10, 11]

theorem pairBinding_declared : pairBinding.Over (DeclaredIn chainScopes) := by
  refine ⟨.synonym (by simpa using .free) (.con (by simpa using ⟨.free, .con (by simp)⟩)) ?_, ?_⟩
  · simp [Ty.leaves, Ty.Shows, Ty.tuple, Ty.varIds, Ty.vars, Ty.varsList]
  · simp [pairBinding, Ty.leaves, Ty.leavesList, Ty.tuple, Ty.bit, innerVar, DeclaredIn,
      chainScopes]

theorem params_within_narrowedChain :
    (∀ p, .inr p ∈ (narrowedChain.apply (.free outerVar)).leaves → p.id ∈ [10]) ∧
    ∀ s', Reaches (Among (DeclaredIn chainScopes)) narrowedChain s' →
      ∀ p, .inr p ∈ (s'.apply (.free outerVar)).leaves → p.id ∈ [10] := by
  have hreach : narrowedChain.Reachable (Among (DeclaredIn chainScopes)) := by
    refine .tail (.tail .refl (.extend (v := outerVar) (t := pairBinding)
      ⟨rfl, pairBinding_declared⟩ rfl)) (.merge (δ := innerBinding) ?_ rfl)
    exact List.forall_mem_singleton.mpr ⟨rfl, Ty.over_bound⟩
  obtain ⟨hparams, -, hlater⟩ := params_within_declaredScope hreach (v := outerVar) rfl
  exact ⟨hparams, hlater⟩

end SizedTypes.Subst
