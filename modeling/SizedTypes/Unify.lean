import SizedTypes.Subst
import SizedTypes.Ty.Lemmas

/-!
# Unification

The most general unifier of two types, found by taking apart one pair of types after the other.
Equalities of sizes that need arithmetic are put off: they become predicates for the solver.
Nothing is committed before the whole problem is solved.

The work ends because a binding removes a variable from the pairs that are left, and every other
step makes them smaller.
-/

set_option autoImplicit false

namespace SizedTypes

/-- Why two types do not unify, with the parts that disagree. -/
inductive UnifyError where
  | typeMismatch (left right : Ty)
  | kindMismatch (left right : Ty) (leftKind rightKind : Kind)
  | lengthMismatch (left right : Ty)
  | recursive (left right : Ty)
  | escape (v : TyVar) (right : Ty) (params : List Param)
deriving Inhabited

namespace UnifyError

def left : UnifyError → Ty
  | typeMismatch l _ | kindMismatch l _ _ _ | lengthMismatch l _ | recursive l _ => l
  | escape v _ _ => .free v

def right : UnifyError → Ty
  | typeMismatch _ r | kindMismatch _ r _ _ | lengthMismatch _ r | recursive _ r
  | escape _ r _ => r

/-- The parameters outside the scope of the variable. -/
def params : UnifyError → List Param
  | escape _ _ ps => ps
  | _ => []

def message : UnifyError → String
  | typeMismatch l r => "type mismatch: " ++ l.text ++ " and " ++ r.text
  | kindMismatch _ _ lk rk => "kind mismatch: expected " ++ lk.text ++ ", got " ++ rk.text
  | lengthMismatch l r => "type length mismatch between " ++ l.text ++ " and " ++ r.text
  | recursive l r => "recursive type " ++ l.text ++ " ~ " ++ r.text
  | escape v _ ps =>
    "type-variable " ++ v.display ++ " cannot depend on "
      ++ String.join ((ps.take 1).map Param.display)

end UnifyError

namespace Unify

/-- What becomes of one pair of types. -/
inductive Step where
  /-- Nothing is left to do. -/
  | done
  /-- Bind a variable to a type that does not mention it. -/
  | assign (v : TyVar) (t : Ty) (fresh : t.occurs v.id = false)
  /-- Leave an equality of sizes to the solver. -/
  | defer (p : Ty)
  /-- Unify these pairs in turn. -/
  | pairs (ps : List (Ty × Ty))

/-- Every parameter of the one scope is in the other. -/
def scopeWithin (inner outer : List Int) : Bool := inner.all outer.contains

/-- Bind `v` after all checks, or put off an equation of a size with itself. -/
def bindChecked (s : Subst) (v : TyVar) (t : Ty) : Except UnifyError Step :=
  if v.kind ≠ t.kindOf then .error (.kindMismatch (.free v) t v.kind t.kindOf)
  else if h : t.occurs v.id = false then
    let escaped := s.escapedParams v t
    if escaped.isEmpty then .ok (.assign v t h) else .error (.escape v t escaped)
  else if v.kind ≠ .num then .error (.recursive (.free v) t)
  else
    let escaped := s.escapedParams v t
    if escaped.isEmpty then .ok (.defer (.equal (.free v) t)) else .error (.escape v t escaped)

/-- Bind a variable to a type that is no synonym. Of two variables the one with the wider scope
is bound, so the one that stays is the more restricted. -/
def bindVar (s : Subst) (v : TyVar) (t : Ty) : Except UnifyError Step :=
  match t with
  | .free w =>
    if h : w.id = v.id then .ok .done
    else if v.kind = w.kind ∧ scopeWithin (s.scopeOf v) (s.scopeOf w) then
      .ok (.assign w (.free v) (by simp [Ty.occurs, Ty.varIds, Ty.vars, Ne.symm, h]))
    else bindChecked s v t
  | _ => bindChecked s v t

/-- Two types with different outer constructors: sizes may still be equal. -/
def mismatch (a b : Ty) : Except UnifyError Step :=
  if a.kindOf ≠ b.kindOf then .error (.kindMismatch a b a.kindOf b.kindOf)
  else if a.kindOf = .num ∧ (a.isOpApp || b.isOpApp) then .ok (.defer (.equal a b))
  else .error (.typeMismatch a b)

/-- One pair of types without outer synonyms, none of them a variable. -/
def decompose (a b : Ty) : Except UnifyError Step :=
  match a, b with
  | .bound p, .bound q => if p.id = q.id then .ok .done else mismatch a b
  | .con c as, .con d bs =>
    if c.isOp then
      if d.isOp && c.same d && Ty.sameList as bs then .ok .done else mismatch a b
    else if c.same d then
      if as.length = bs.length then .ok (.pairs (as.zip bs)) else .error (.lengthMismatch a b)
    else mismatch a b
  | .record fs, .record gs =>
    if Table.sameKeys fs gs then .ok (.pairs ((Table.values fs).zip (Table.values gs)))
    else mismatch a b
  | .newtype n _ _ as, .newtype m _ _ bs =>
    if n.id = m.id then
      if as.length = bs.length then .ok (.pairs (as.zip bs))
      else .error (.lengthMismatch (.tuple as) (.tuple bs))
    else mismatch a b
  | _, _ => mismatch a b

/-- Uses of one synonym at equal arguments. -/
def sameSynonym : Ty → Ty → Bool
  | .synonym n as _, .synonym m bs _ => n.id == m.id && Ty.sameList as bs
  | _, _ => false

/-- One pair of types without outer synonyms. -/
def stepExpanded (s : Subst) (a b : Ty) : Except UnifyError Step :=
  match a, b with
  | .free v, b => bindVar s v b
  | a, .free v => bindVar s v a
  | a, b => decompose a b

/-- One pair of types. -/
def step (s : Subst) (a b : Ty) : Except UnifyError Step :=
  if sameSynonym a b then .ok .done else stepExpanded s a.expand b.expand

/-! ## The measure -/

def pairIds (ps : List (Ty × Ty)) : List Int := ps.flatMap fun p => p.1.varIds ++ p.2.varIds

def pairSize : List (Ty × Ty) → Nat
  | [] => 0
  | (a, b) :: ps => a.size + b.size + pairSize ps

/-- Put `t` in place of a variable in all pairs. -/
def replacePairs (v : Int) (t : Ty) (ps : List (Ty × Ty)) : List (Ty × Ty) :=
  ps.map fun p => (p.1.replace v t, p.2.replace v t)

theorem pairSize_cons (a b : Ty) (ps : List (Ty × Ty)) :
    pairSize ((a, b) :: ps) = a.size + b.size + pairSize ps := rfl

theorem pairIds_cons (a b : Ty) (ps : List (Ty × Ty)) :
    pairIds ((a, b) :: ps) = (a.varIds ++ b.varIds) ++ pairIds ps := by
  simp [pairIds]

/-- No new variables and a smaller size make a smaller problem. -/
theorem lex_of_subset {ps qs : List (Ty × Ty)} (hi : ∀ x ∈ pairIds ps, x ∈ pairIds qs)
    (hs : pairSize ps < pairSize qs) :
    Prod.Lex (· < ·) (· < ·) (distinctCount (pairIds ps), pairSize ps)
      (distinctCount (pairIds qs), pairSize qs) := by
  rcases Nat.lt_or_eq_of_le (distinctCount_le_of_subset hi) with h | h
  · exact Prod.Lex.left _ _ h
  · rw [h]
    exact Prod.Lex.right _ hs

theorem lex_cons (a b : Ty) (rest : List (Ty × Ty)) :
    Prod.Lex (· < ·) (· < ·) (distinctCount (pairIds rest), pairSize rest)
      (distinctCount (pairIds ((a, b) :: rest)), pairSize ((a, b) :: rest)) := by
  refine lex_of_subset (fun x hx => by simp [pairIds_cons, hx]) ?_
  have := a.size_pos
  rw [pairSize_cons]
  omega

theorem pairSize_append (ps qs : List (Ty × Ty)) :
    pairSize (ps ++ qs) = pairSize ps + pairSize qs := by
  induction ps with
  | nil => simp [pairSize]
  | cons p ps ih =>
    obtain ⟨a, b⟩ := p
    rw [List.cons_append, pairSize_cons, pairSize_cons, ih]
    omega

theorem pairIds_append (ps qs : List (Ty × Ty)) :
    pairIds (ps ++ qs) = pairIds ps ++ pairIds qs := by
  simp [pairIds]

theorem pairSize_zip_le (as bs : List Ty) :
    pairSize (as.zip bs) ≤ Ty.sizeList as + Ty.sizeList bs := by
  induction as generalizing bs with
  | nil => simp [pairSize]
  | cons a as ih =>
    cases bs with
    | nil => simp [pairSize]
    | cons b bs =>
      have := ih bs
      simp only [List.zip_cons_cons, pairSize_cons, Ty.sizeList]
      omega

theorem mem_pairIds_zip {x : Int} {as bs : List Ty} (h : x ∈ pairIds (as.zip bs)) :
    x ∈ (Ty.varsList as).map TyVar.id ∨ x ∈ (Ty.varsList bs).map TyVar.id := by
  induction as generalizing bs with
  | nil => simp [pairIds] at h
  | cons a as ih =>
    cases bs with
    | nil => simp [pairIds] at h
    | cons b bs =>
      rw [List.zip_cons_cons, pairIds_cons] at h
      simp only [Ty.varsList, List.map_append, List.mem_append] at h ⊢
      rcases h with (h | h) | h
      · exact Or.inl (Or.inl h)
      · exact Or.inr (Or.inl h)
      · exact (ih h).imp Or.inr Or.inr

theorem sizeList_values (fs : List (String × Ty)) :
    Ty.sizeList (Table.values fs) = Ty.sizeFields fs := by
  induction fs with
  | nil => rfl
  | cons f fs ih =>
    simp only [Table.values, List.map_cons, Ty.sizeList, Ty.sizeFields] at ih ⊢
    omega

theorem varsList_values (fs : List (String × Ty)) :
    Ty.varsList (Table.values fs) = Ty.varsFields fs := by
  induction fs with
  | nil => rfl
  | cons f fs ih =>
    simp only [Table.values, List.map_cons, Ty.varsList, Ty.varsFields] at ih ⊢
    rw [ih]

/-- The pairs of a step mention no new variables and are smaller than what they came from. -/
def Shrinks (a b : Ty) (ps : List (Ty × Ty)) : Prop :=
  (∀ x ∈ pairIds ps, x ∈ a.varIds ∨ x ∈ b.varIds) ∧ pairSize ps < a.size + b.size

theorem bindChecked_ne_pairs {s : Subst} {v : TyVar} {t : Ty} {ps : List (Ty × Ty)} :
    bindChecked s v t ≠ .ok (.pairs ps) := by
  unfold bindChecked
  split
  · simp
  · split
    · dsimp only
      split <;> simp
    · split
      · simp
      · dsimp only
        split <;> simp

theorem bindVar_ne_pairs {s : Subst} {v : TyVar} {t : Ty} {ps : List (Ty × Ty)} :
    bindVar s v t ≠ .ok (.pairs ps) := by
  unfold bindVar
  split
  · split
    · simp
    · split
      · simp
      · exact bindChecked_ne_pairs
  · exact bindChecked_ne_pairs

theorem mismatch_ne_pairs {a b : Ty} {ps : List (Ty × Ty)} : mismatch a b ≠ .ok (.pairs ps) := by
  unfold mismatch
  split
  · simp
  · split <;> simp

theorem mismatch_ne_assign {a b : Ty} {v : TyVar} {t : Ty} {h : t.occurs v.id = false} :
    mismatch a b ≠ .ok (.assign v t h) := by
  unfold mismatch
  split
  · simp
  · split <;> simp

theorem shrinks_of_decompose {a b : Ty} {ps : List (Ty × Ty)}
    (h : decompose a b = .ok (.pairs ps)) : Shrinks a b ps := by
  unfold decompose at h
  split at h
  · split at h
    · simp at h
    · exact absurd h mismatch_ne_pairs
  · rename_i c as d bs
    split at h
    · split at h
      · simp at h
      · exact absurd h mismatch_ne_pairs
    · split at h
      · split at h
        · cases h
          refine ⟨fun x hx => ?_, ?_⟩
          · simpa [Ty.varIds, Ty.vars] using mem_pairIds_zip hx
          · have := pairSize_zip_le as bs
            simp only [Ty.size]
            omega
        · simp at h
      · exact absurd h mismatch_ne_pairs
  · rename_i fs gs
    split at h
    · cases h
      refine ⟨fun x hx => ?_, ?_⟩
      · have := mem_pairIds_zip hx
        rw [varsList_values, varsList_values] at this
        simpa [Ty.varIds, Ty.vars] using this
      · have := pairSize_zip_le (Table.values fs) (Table.values gs)
        rw [sizeList_values, sizeList_values] at this
        simp only [Ty.size]
        omega
    · exact absurd h mismatch_ne_pairs
  · rename_i as _ _ _ bs
    split at h
    · split at h
      · cases h
        refine ⟨fun x hx => ?_, ?_⟩
        · simpa [Ty.varIds, Ty.vars] using mem_pairIds_zip hx
        · have := pairSize_zip_le as bs
          simp only [Ty.size]
          omega
      · simp at h
    · exact absurd h mismatch_ne_pairs
  · exact absurd h mismatch_ne_pairs

theorem decompose_ne_assign {a b : Ty} {v : TyVar} {t : Ty} {f : t.occurs v.id = false} :
    decompose a b ≠ .ok (.assign v t f) := by
  intro h
  unfold decompose at h
  split at h
  · split at h
    · simp at h
    · exact absurd h mismatch_ne_assign
  · split at h
    · split at h
      · simp at h
      · exact absurd h mismatch_ne_assign
    · split at h
      · split at h <;> simp at h
      · exact absurd h mismatch_ne_assign
  · split at h
    · simp at h
    · exact absurd h mismatch_ne_assign
  · split at h
    · split at h <;> simp at h
    · exact absurd h mismatch_ne_assign
  · exact absurd h mismatch_ne_assign

theorem shrinks_of_step {s : Subst} {a b : Ty} {ps : List (Ty × Ty)}
    (h : step s a b = .ok (.pairs ps)) : Shrinks a b ps := by
  unfold step at h
  split at h
  · simp at h
  · unfold stepExpanded at h
    split at h
    · exact absurd h bindVar_ne_pairs
    · exact absurd h bindVar_ne_pairs
    · obtain ⟨hi, hs⟩ := shrinks_of_decompose h
      refine ⟨fun x hx => ?_, ?_⟩
      · simpa [Ty.varIds_expand] using hi x hx
      · have := Ty.size_expand_le a
        have := Ty.size_expand_le b
        omega

/-- A binding concerns a variable of the pair, and its type brings no new variables. -/
def Concerns (a b : Ty) (v : TyVar) (t : Ty) : Prop :=
  (v.id ∈ a.varIds ∨ v.id ∈ b.varIds) ∧ ∀ x ∈ t.varIds, x ∈ a.varIds ∨ x ∈ b.varIds

theorem concerns_of_bindChecked {s : Subst} {v w : TyVar} {t u : Ty}
    {f : u.occurs w.id = false} (h : bindChecked s v t = .ok (.assign w u f)) :
    w = v ∧ u = t := by
  unfold bindChecked at h
  split at h
  · simp at h
  · split at h
    · dsimp only at h
      split at h
      · cases h
        exact ⟨rfl, rfl⟩
      · simp at h
    · split at h
      · simp at h
      · dsimp only at h
        split at h <;> simp at h

theorem concerns_of_bindVar {s : Subst} {v w : TyVar} {t u : Ty}
    {f : u.occurs w.id = false} (h : bindVar s v t = .ok (.assign w u f)) :
    Concerns (.free v) t w u := by
  unfold bindVar at h
  split at h
  · split at h
    · simp at h
    · split at h
      · cases h
        refine ⟨Or.inr (by simp [Ty.varIds, Ty.vars]), fun x hx => Or.inl hx⟩
      · obtain ⟨rfl, rfl⟩ := concerns_of_bindChecked h
        exact ⟨Or.inl (by simp [Ty.varIds, Ty.vars]), fun x hx => Or.inr hx⟩
  · obtain ⟨rfl, rfl⟩ := concerns_of_bindChecked h
    exact ⟨Or.inl (by simp [Ty.varIds, Ty.vars]), fun x hx => Or.inr hx⟩

theorem concerns_of_stepExpanded {s : Subst} {a b : Ty} {v : TyVar} {t : Ty}
    {f : t.occurs v.id = false} (h : stepExpanded s a b = .ok (.assign v t f)) :
    Concerns a b v t := by
  unfold stepExpanded at h
  split at h
  · exact concerns_of_bindVar h
  · obtain ⟨hv, ht⟩ := concerns_of_bindVar h
    exact ⟨hv.symm, fun x hx => (ht x hx).symm⟩
  · exact absurd h decompose_ne_assign

theorem concerns_of_step {s : Subst} {a b : Ty} {v : TyVar} {t : Ty}
    {f : t.occurs v.id = false} (h : step s a b = .ok (.assign v t f)) : Concerns a b v t := by
  unfold step at h
  split at h
  · simp at h
  · simpa [Concerns, Ty.varIds_expand] using concerns_of_stepExpanded h

theorem not_mem_varIds_of_occurs {t : Ty} {v : Int} (h : t.occurs v = false) : v ∉ t.varIds := by
  intro hv
  simp [Ty.occurs, hv] at h

theorem mem_pairIds_replace {v x : Int} {t : Ty} {ps : List (Ty × Ty)}
    (h : x ∈ pairIds (replacePairs v t ps)) :
    (x ∈ pairIds ps ∧ x ≠ v) ∨ x ∈ t.varIds := by
  simp only [pairIds, replacePairs, List.mem_flatMap, List.mem_map, List.mem_append] at h
  obtain ⟨_, ⟨p, hp, rfl⟩, hx⟩ := h
  simp only [pairIds, List.mem_flatMap, List.mem_append]
  rcases hx with hx | hx
  · rcases Ty.mem_vars_replace _ hx with ⟨hx, hne⟩ | hx
    · exact Or.inl ⟨⟨p, hp, Or.inl hx⟩, hne⟩
    · exact Or.inr hx
  · rcases Ty.mem_vars_replace _ hx with ⟨hx, hne⟩ | hx
    · exact Or.inl ⟨⟨p, hp, Or.inr hx⟩, hne⟩
    · exact Or.inr hx

/-! ## The unifier -/

/-- Bind a variable that all checks have passed. -/
def commit (s : Subst) (v : TyVar) (t : Ty) : Except UnifyError Subst :=
  match s.extend v t with
  | .ok s' => .ok s'
  | .error (.escape _ _ params) => .error (.escape v t params)
  | .error _ => .error (.recursive (.free v) t)

/-- Unify all pairs under the bindings found so far. -/
def solve (s : Subst) (props : List Ty) : List (Ty × Ty) → Except UnifyError (Subst × List Ty)
  | [] => .ok (s, props)
  | (a, b) :: rest =>
    match _h : step s a b with
    | .error e => .error e
    | .ok .done => solve s props rest
    | .ok (.defer p) => solve s (props ++ [p]) rest
    | .ok (.pairs ps) => solve s props (ps ++ rest)
    | .ok (.assign v t _) =>
      match commit s v t with
      | .error e => .error e
      | .ok s' => solve s' props (replacePairs v.id t rest)
termination_by ps => (distinctCount (pairIds ps), pairSize ps)
decreasing_by
  · exact lex_cons a b rest
  · exact lex_cons a b rest
  · obtain ⟨hi, hs⟩ := shrinks_of_step _h
    refine lex_of_subset (fun x hx => ?_) (by simp only [pairSize_append, pairSize_cons]; omega)
    simp only [pairIds_append, pairIds_cons, List.mem_append] at hx ⊢
    exact hx.imp_left (hi x)
  · obtain ⟨hv, ht⟩ := concerns_of_step _h
    refine Prod.Lex.left _ _ (distinctCount_lt_of_subset (x := v.id) (fun x hx => ?_) ?_ ?_)
    · rcases mem_pairIds_replace hx with ⟨hx, _⟩ | hx
      · simp [pairIds_cons, hx]
      · simp only [pairIds_cons, List.mem_append]
        exact Or.inl (ht x hx)
    · simp only [pairIds_cons, List.mem_append]
      exact Or.inl hv
    · intro hx
      rcases mem_pairIds_replace hx with ⟨_, hne⟩ | hx
      · exact hne rfl
      · exact not_mem_varIds_of_occurs (by assumption) hx

end Unify

/-- A most general unifier: bindings, and the equalities of sizes that they leave open. -/
structure Unifier where
  subst : Subst
  props : List Ty
deriving Inhabited

/-- Unify two types under the scopes that `s` has narrowed. The bindings of `s` are not consulted:
callers apply `s` first. -/
def unify (s : Subst) (a b : Ty) : Except UnifyError Unifier :=
  match Unify.solve s.onlyScopes [] [(a, b)] with
  | .ok (delta, props) => .ok ⟨delta, props⟩
  | .error e => .error e

end SizedTypes
