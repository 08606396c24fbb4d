import Mathlib.Data.Finset.Lattice.Fold
import SizedTypes.Proofs.Subst.WellFormed
import SizedTypes.Proofs.Ty.Leaves

/-!
# Histories of substitutions and chains of bindings

A substitution comes from the empty one by extensions and merges. Its bindings can also be read as
chains: to apply it is to put, for every bound variable, its type with the substitution applied to
that in turn. Extensions look for the variable only where a type shows it, so a variable can be
bound to a type that mentions it in the argument of a synonym. Without such a binding chains end,
and following them gives exactly what `apply` gives.
-/

set_option autoImplicit false

namespace SizedTypes.Subst

open Relation (ReflTransGen)

/-! ## Histories -/

/-- An extension or a merge, by bindings that satisfy `B`. -/
inductive Step (B : TyVar → Ty → Prop) : Subst → Subst → Prop
  | extend {s s' : Subst} {v : TyVar} {t : Ty} : B v t → s.extend v t = .ok s' → Step B s s'
  | merge {s s' δ : Subst} : (∀ b ∈ δ.bindings, B b.1 b.2) → s.merge δ = .ok s' → Step B s s'

/-- `s'` comes from `s` by extensions and merges. -/
def Reaches (B : TyVar → Ty → Prop) : Subst → Subst → Prop := ReflTransGen (Step B)

def Reachable (B : TyVar → Ty → Prop) (s : Subst) : Prop := Reaches B .empty s

variable {B : TyVar → Ty → Prop} {s s' : Subst}

/-- What single new bindings keep, every history keeps. -/
theorem Reaches.induct {P : Subst → Prop} (h : Reaches B s s') (hs : P s)
    (hextended : ∀ {s s' : Subst} {v : TyVar} {t : Ty}, P s → B v t → Extended s v t s' → P s') :
    P s' := by
  have hextend : ∀ {s s' : Subst} {v : TyVar} {t : Ty}, P s → B v t → s.extend v t = .ok s' →
      P s' := by
    intro s s' v t hs hB h
    rcases extend_eq_ok h with ⟨rfl, -, -⟩ | h
    · exact hs
    · exact hextended hs hB h
  have hall : ∀ (bs : List (TyVar × Ty)) {s s' : Subst}, P s → (∀ b ∈ bs, B b.1 b.2) →
      bs.foldlM (fun s b => s.extend b.1 b.2) s = Except.ok s' → P s' := by
    intro bs
    induction bs with
    | nil =>
      intro s s' hs _ h
      obtain rfl : s = s' := by simpa [pure, Except.pure] using h
      exact hs
    | cons b bs ih =>
      intro s s' hs hB h
      obtain ⟨s₁, hext, h⟩ := extendAll_cons h
      obtain ⟨hb, hbs⟩ := List.forall_mem_cons.mp hB
      exact ih (hextend hs hb hext) hbs h
  induction h with
  | refl => exact hs
  | tail _ hstep ih =>
    cases hstep with
    | extend hB h => exact hextend ih hB h
    | merge hB h => exact hall _ ih (fun b hb => hB b (mem_bindings_of_mem_entries hb)) h

theorem Reaches.imp {B' : TyVar → Ty → Prop} (h : Reaches B s s') (hB : ∀ v t, B v t → B' v t) :
    Reaches B' s s' := by
  refine Relation.ReflTransGen.mono (fun _ _ hstep => ?_) _ _ h
  cases hstep with
  | extend hb h => exact .extend (hB _ _ hb) h
  | merge hb h => exact .merge (fun b hmem => hB _ _ (hb b hmem)) h

theorem Reaches.triangular (h : Reaches B s s') (hs : s.Triangular) : s'.Triangular :=
  h.induct hs fun hs _ hext => hext.triangular hs

/-! ## Application to leaves -/

theorem apply_eq_bind (s : Subst) (t : Ty) :
    s.apply t = t.bind (fun w => s.apply (.free w)) .bound := by
  have key : ∀ bs : List (TyVar × Ty), bs.foldr (fun b u => u.replace b.1.id b.2) t =
      t.bind (fun w => bs.foldr (fun b u => u.replace b.1.id b.2) (.free w)) .bound := by
    intro bs
    induction bs with
    | nil => exact (Ty.bind_self t).symm
    | cons b bs ih =>
      rw [List.foldr_cons, ih, Ty.replace, Ty.bind_bind]
      rfl
  exact key s.bindings

theorem apply_eq_self {t : Ty} (h : ∀ i ∈ t.leafIds, s.lookup i = none) : s.apply t = t := by
  have key : ∀ bs : List (TyVar × Ty), (∀ b ∈ bs, b.1.id ∉ t.leafIds) →
      bs.foldr (fun b u => u.replace b.1.id b.2) t = t := by
    intro bs hbs
    induction bs with
    | nil => rfl
    | cons b bs ih =>
      obtain ⟨hb, hbs⟩ := List.forall_mem_cons.mp hbs
      rw [List.foldr_cons, ih hbs, Ty.replace_eq_self hb]
  exact key s.bindings fun b hb hmem => lookup_eq_none_iff.mp (h b.1.id hmem) b hb rfl

theorem apply_free_of_unbound {w : TyVar} (h : s.lookup w.id = none) :
    s.apply (.free w) = .free w := by
  refine apply_eq_self fun i hi => ?_
  obtain ⟨v, hv, rfl⟩ := Ty.mem_leafIds.mp hi
  rw [Ty.leaves, List.mem_singleton, Sum.inl.injEq] at hv
  rw [hv, h]

theorem Extended.apply {v : TyVar} {t : Ty} (h : Extended s v t s') (u : Ty) :
    s'.apply u = (s.apply u).replace v.id (s.apply t) := by
  rw [h.eq]
  rfl

theorem exists_of_lookup {i : Int} {u : Ty} (h : s.lookup i = some u) :
    ∃ b ∈ s.bindings, b.1.id = i ∧ b.2 = u := by
  obtain ⟨b, hb, rfl⟩ := Option.map_eq_some_iff.mp h
  exact ⟨b, List.mem_of_find?_eq_some hb, by simpa using List.find?_some hb, rfl⟩

theorem Triangular.lookup_of_mem (h : s.Triangular) {b : TyVar × Ty} (hb : b ∈ s.bindings) :
    s.lookup b.1.id = some b.2 := by
  have key : ∀ bs : List (TyVar × Ty), TriangularList bs → b ∈ bs →
      bs.find? (fun b' => b'.1.id == b.1.id) = some b := by
    intro bs hbs hb
    induction bs with
    | nil => cases hb
    | cons c rest ih =>
      obtain ⟨-, hrest, htri⟩ := hbs
      rcases List.mem_cons.mp hb with rfl | hb
      · simp
      · have hne : c.1.id ≠ b.1.id := Ne.symm (hrest b hb).1
        rw [List.find?_cons_of_neg (by simpa using hne)]
        exact ih htri hb
  rw [lookup, key s.bindings h hb]
  rfl

/-! ## Chains without cycles -/

/-- No type of a binding mentions its own variable or one bound before, anywhere. -/
structure Acyclic (s : Subst) : Prop where
  own : ∀ b ∈ s.bindings, b.1.id ∉ b.2.leafIds
  older : s.bindings.Pairwise fun b b' => b'.1.id ≠ b.1.id ∧ b'.1.id ∉ b.2.leafIds

namespace Acyclic

/-- What `apply` returns mentions no bound variable. -/
theorem lookup_of_mem_leafIds (h : s.Acyclic) {t : Ty} {i : Int} (hi : i ∈ (s.apply t).leafIds) :
    s.lookup i = none := by
  have key : ∀ bs : List (TyVar × Ty), (∀ b ∈ bs, b.1.id ∉ b.2.leafIds) →
      bs.Pairwise (fun b b' => b'.1.id ≠ b.1.id ∧ b'.1.id ∉ b.2.leafIds) →
      i ∈ (bs.foldr (fun b u => u.replace b.1.id b.2) t).leafIds → ∀ b ∈ bs, b.1.id ≠ i := by
    intro bs hown holder hi
    induction bs with
    | nil => exact fun b hb => nomatch hb
    | cons c rest ih =>
      obtain ⟨hc, hown⟩ := List.forall_mem_cons.mp hown
      obtain ⟨hrest, holder⟩ := List.pairwise_cons.mp holder
      rw [List.foldr_cons, Ty.mem_leafIds_replace] at hi
      rcases hi with ⟨hi, hne⟩ | ⟨-, hi⟩
      · exact List.forall_mem_cons.mpr ⟨Ne.symm hne, ih hown holder hi⟩
      · refine List.forall_mem_cons.mpr ⟨fun hid => hc (hid ▸ hi), fun b hb hid => ?_⟩
        exact (hrest b hb).2 (hid ▸ hi)
  exact lookup_eq_none_iff.mpr (key s.bindings h.own h.older hi)

theorem triangular (h : s.Acyclic) : s.Triangular := by
  have key : ∀ bs : List (TyVar × Ty), (∀ b ∈ bs, b.1.id ∉ b.2.leafIds) →
      bs.Pairwise (fun b b' => b'.1.id ≠ b.1.id ∧ b'.1.id ∉ b.2.leafIds) → TriangularList bs := by
    intro bs hown holder
    induction bs with
    | nil => trivial
    | cons c rest ih =>
      obtain ⟨hc, hown⟩ := List.forall_mem_cons.mp hown
      obtain ⟨hrest, holder⟩ := List.pairwise_cons.mp holder
      exact ⟨fun hmem => hc (Ty.mem_leafIds_of_mem_varIds hmem),
        fun b hb => ⟨(hrest b hb).1, fun hmem => (hrest b hb).2 (Ty.mem_leafIds_of_mem_varIds hmem)⟩,
        ih hown holder⟩
  exact key s.bindings h.own h.older

theorem apply_apply (h : s.Acyclic) (t : Ty) : s.apply (s.apply t) = s.apply t :=
  apply_eq_self fun _ hi => h.lookup_of_mem_leafIds hi

/-- A bound variable stands for its type, with the substitution applied to that. -/
theorem apply_free (h : s.Acyclic) {b : TyVar × Ty} (hb : b ∈ s.bindings) {w : TyVar}
    (hw : w.id = b.1.id) : s.apply (.free w) = s.apply b.2 := by
  have key : ∀ newer older : List (TyVar × Ty), s.bindings = newer ++ b :: older →
      s.apply (.free w) = s.apply b.2 := by
    intro newer older heq
    have hown := h.own
    have holder := h.older
    rw [heq] at hown holder
    obtain ⟨-, holder, -⟩ := List.pairwise_append.mp holder
    have hrest := (List.pairwise_cons.mp holder).1
    have hbelow : Subst.apply ⟨older, []⟩ (.free w) = .free w :=
      apply_free_of_unbound (lookup_eq_none_iff.mpr fun b' hb' => hw ▸ (hrest b' hb').1)
    have hfixed : Subst.apply ⟨b :: older, []⟩ b.2 = b.2 := by
      refine apply_eq_self fun i hi => lookup_eq_none_iff.mpr ?_
      refine List.forall_mem_cons.mpr ⟨fun hid => hown b (by simp) (hid ▸ hi), fun b' hb' hid => ?_⟩
      exact (hrest b' hb').2 (hid ▸ hi)
    have hhead : Subst.apply ⟨b :: older, []⟩ (.free w) = b.2 := by
      show (Subst.apply ⟨older, []⟩ (.free w)).replace b.1.id b.2 = b.2
      rw [hbelow, Ty.replace, Ty.bind, if_pos hw]
    unfold Subst.apply at hfixed hhead ⊢
    rw [heq, List.foldr_append, List.foldr_append, hhead, hfixed]
  obtain ⟨newer, older, heq⟩ := List.append_of_mem hb
  exact key newer older heq

/-- Bound variables in an order in which each type mentions smaller ones only. -/
theorem exists_rank (h : s.Acyclic) :
    ∃ rank : Int → Nat, ∀ b ∈ s.bindings, ∀ i ∈ b.2.leafIds, rank i < rank b.1.id := by
  obtain ⟨bs, scopes⟩ := s
  obtain ⟨hown, holder⟩ := h
  dsimp only at hown holder ⊢
  induction bs with
  | nil => exact ⟨fun _ => 0, fun _ hb => nomatch hb⟩
  | cons c rest ih =>
    obtain ⟨hc, hown⟩ := List.forall_mem_cons.mp hown
    obtain ⟨hrest, holder⟩ := List.pairwise_cons.mp holder
    obtain ⟨rank, hrank⟩ := ih hown holder
    -- The newest variable goes below those bound before it: their types may mention it.
    refine ⟨fun i => if i ∈ rest.map (·.1.id) then rank i + 2 else if i = c.1.id then 1 else 0, ?_⟩
    have hbound : ∀ b ∈ rest, b.1.id ∈ rest.map (·.1.id) := fun b hb => List.mem_map_of_mem hb
    have hunbound : ∀ i, (∀ b ∈ rest, b.1.id ≠ i) → i ∉ rest.map (·.1.id) := by
      intro i hi hmem
      obtain ⟨b, hb, hid⟩ := List.mem_map.mp hmem
      exact hi b hb hid
    refine List.forall_mem_cons.mpr ⟨fun i hi => ?_, fun b hb i hi => ?_⟩
    · have hirest := hunbound i fun b hb hid => (hrest b hb).2 (hid ▸ hi)
      have hcrest := hunbound c.1.id fun b hb => (hrest b hb).1
      have hic : i ≠ c.1.id := fun hic => hc (hic ▸ hi)
      simp [hirest, hcrest, hic]
    · have hlt := hrank b hb i hi
      simp only [hbound b hb, if_true]
      split
      · omega
      · split <;> omega

end Acyclic

/-! ## Following chains -/

/-- One round of following chains: bound variables stand for what `f` makes of their types. -/
def follow (s : Subst) (f : Ty → Ty) (t : Ty) : Ty :=
  t.bind (fun w => ((s.lookup w.id).map f).getD (.free w)) .bound

/-- To follow the chains from `t` is to follow those from `u`, among others. -/
def Calls (s : Subst) (u t : Ty) : Prop := ∃ i ∈ t.leafIds, s.lookup i = some u

theorem Acyclic.wellFounded_calls (h : s.Acyclic) : WellFounded s.Calls := by
  obtain ⟨rank, hrank⟩ := h.exists_rank
  let height (t : Ty) : Nat := t.leafIds.toFinset.sup fun i => rank i + 1
  refine Subrelation.wf (r := InvImage (· < ·) height) ?_ (InvImage.wf height Nat.lt_wfRel.wf)
  rintro u t ⟨i, hi, hu⟩
  obtain ⟨b, hb, rfl, rfl⟩ := exists_of_lookup hu
  have hle : rank b.1.id + 1 ≤ height t :=
    Finset.le_sup (f := fun i => rank i + 1) (List.mem_toFinset.mpr hi)
  refine (Finset.sup_lt_iff (Nat.lt_of_lt_of_le (Nat.succ_pos _) hle)).mpr fun j hj => ?_
  have hlt := hrank b hb j (List.mem_toFinset.mp hj)
  omega

theorem Acyclic.apply_eq_follow (h : s.Acyclic) (t : Ty) : s.apply t = s.follow s.apply t := by
  rw [apply_eq_bind, follow]
  refine Ty.bind_congr (fun w _ => ?_) fun _ _ => rfl
  cases hl : s.lookup w.id with
  | none => exact apply_free_of_unbound hl
  | some u =>
    obtain ⟨b, hb, hid, rfl⟩ := exists_of_lookup hl
    exact h.apply_free hb hid.symm

theorem Extended.acyclic {v : TyVar} {t : Ty} (h : Extended s v t s') (hs : s.Acyclic)
    (hfresh : v.id ∉ (s.apply t).leafIds) : s'.Acyclic := by
  rw [h.eq]
  refine ⟨List.forall_mem_cons.mpr ⟨hfresh, hs.own⟩, List.pairwise_cons.mpr ⟨fun b hb => ?_, hs.older⟩⟩
  exact ⟨lookup_eq_none_iff.mp h.unbound b hb,
    fun hmem => lookup_eq_none_iff.mp (hs.lookup_of_mem_leafIds hmem) b hb rfl⟩

/-- The first cycle of a history is a binding that mentions its own variable. -/
theorem Reaches.acyclic (h : Reaches B s s') (hs : s.Acyclic)
    (hown : ∀ b ∈ s'.bindings, b.1.id ∉ b.2.leafIds) : s'.Acyclic := by
  have key : (∀ b ∈ s'.bindings, b.1.id ∉ b.2.leafIds) → s'.Acyclic := by
    refine h.induct (P := fun s => (∀ b ∈ s.bindings, b.1.id ∉ b.2.leafIds) → s.Acyclic)
      (fun _ => hs) fun ih _ hext hown => ?_
    rw [hext.eq] at hown
    obtain ⟨hfresh, hrest⟩ := List.forall_mem_cons.mp hown
    exact hext.acyclic (ih hrest) hfresh
  exact key hown

theorem acyclic_onlyScopes (s : Subst) : s.onlyScopes.Acyclic where
  own _ hb := nomatch hb
  older := .nil

/-- In every history, to follow chains ends on all types, and gives what `apply` gives, without
bound variables and the same when it is applied again, exactly if no variable is bound to a type
that mentions it in the argument of a synonym. -/
theorem apply_terminates_iff {s : Subst} (h : s.Reachable fun _ _ => True) :
    (WellFounded s.Calls ∧ ∀ t, s.apply t = s.follow s.apply t ∧
      (∀ i ∈ (s.apply t).leafIds, s.lookup i = none) ∧ s.apply (s.apply t) = s.apply t) ↔
    ∀ b ∈ s.bindings, b.1.id ∉ b.2.leafIds := by
  constructor
  · rintro ⟨hwf, -⟩ b hb hown
    have hlookup := (h.triangular triangular_empty).lookup_of_mem hb
    have hself : s.Calls b.2 b.2 := ⟨b.1.id, hown, hlookup⟩
    exact hwf.irrefl.irrefl b.2 hself
  · intro hown
    have hacyclic := h.acyclic (acyclic_onlyScopes .empty) hown
    exact ⟨hacyclic.wellFounded_calls, fun t => ⟨hacyclic.apply_eq_follow t,
      fun _ hi => hacyclic.lookup_of_mem_leafIds hi, hacyclic.apply_apply t⟩⟩

/-! A synonym that drops its argument, in one binding with another variable and in one with its
own. -/

/-- `T t`, which stands for a bit. -/
def dropped (t : Ty) : Ty := .synonym { id := 9, ident := "T" } [t] .bit

def firstVar : TyVar := { id := 1, kind := .type }

def secondVar : TyVar := { id := 2, kind := .type }

/-- `?1 := [4](T ?2)`, then `?2 := (?3, Bit)`. -/
def droppedChain : Subst where
  bindings := [(secondVar, .tuple [.free { id := 3, kind := .type }, .bit]),
    (firstVar, .seq (.num 4) (dropped (.free secondVar)))]

theorem apply_terminates_droppedChain : WellFounded droppedChain.Calls ∧
    ∀ i ∈ (droppedChain.apply (.free firstVar)).leafIds, droppedChain.lookup i = none := by
  have hreach : droppedChain.Reachable fun _ _ => True := by
    refine .tail (.tail .refl (.extend (v := firstVar)
      (t := .seq (.num 4) (dropped (.free secondVar))) trivial rfl))
      (.extend (v := secondVar) (t := .tuple [.free { id := 3, kind := .type }, .bit]) trivial rfl)
  obtain ⟨hwf, happly⟩ := (apply_terminates_iff hreach).mpr (by decide)
  exact ⟨hwf, (happly _).2.1⟩

/-- The first variable can be bound to `[4](T ?1)`. Then following its chain never ends, the result
of `apply` mentions it, and applying the substitution again gives another type. -/
theorem extend_cyclic_through_argument :
    ∃ s, Subst.empty.extend firstVar (.seq (.num 4) (dropped (.free firstVar))) = .ok s ∧
      ¬WellFounded s.Calls ∧ 1 ∈ (s.apply (.free firstVar)).leafIds ∧ s.lookup 1 ≠ none ∧
      s.apply (s.apply (.free firstVar)) ≠ s.apply (.free firstVar) := by
  refine ⟨_, rfl, fun hwf => ?_, by decide, by simp [lookup, firstVar], fun heq => ?_⟩
  · exact hwf.irrefl.irrefl (.seq (.num 4) (dropped (.free firstVar))) ⟨1, by decide, rfl⟩
  · exact absurd (congrArg Ty.size heq) (by decide)

end SizedTypes.Subst
