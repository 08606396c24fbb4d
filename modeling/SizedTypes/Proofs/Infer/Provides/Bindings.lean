import SizedTypes.Proofs.Infer.Provides.Checks

/-!
# Functions and bindings find their names

A declared variable is visible until it is taken back. A function brings the variables of its
parameters into scope for its body, and a signature its type parameters for the body of its binding.
-/

set_option autoImplicit false

namespace SizedTypes.Infer

open Surface (Bind Pattern UpdateHow Visible bindIds patternsInScope patternsInScope_of_le varIdsOf)
open SizedTypes.Core (Decl Term)

variable {c : Context} {s s₁ s' : State} {v w : Visible} {own : List Int}

/-! ## Variables -/

theorem Provides.push (h : Provides v c s) (n : Name) (t : VarType) :
    Provides (v.withValues [n.id]) c (s.push (n, t)) :=
  { h with
    sorted := Table.sorted_insert h.sorted
    values := fun id hid => by
      show (Table.find? id (s.vars.insert n.id t)).isSome
      rw [Table.find?_insert]
      split
      · rfl
      · rename_i hne
        rcases List.mem_append.mp hid with hid | hid
        · exact h.values id hid
        · exact absurd (List.mem_singleton.mp hid) hne }

theorem resolves_declare (n : Name) (t : VarType) :
    Resolves v (declare n t) (v.withValues [n.id]) := .modify fun hs => hs.push n t

theorem resolves_declareEach {α : Type} (xs : List α) (n : α → Name) (t : α → VarType) :
    Resolves v (xs.forM fun x => declare (n x) (t x)) (v.withValues (xs.map fun x => (n x).id)) := by
  induction xs generalizing v with
  | nil =>
    rw [List.map_nil, Visible.withValues_nil]
    exact .pure _
  | cons x xs ih =>
    rw [List.forM_eq_forM, List.forM_cons, List.map_cons, ← List.singleton_append,
      ← Visible.withValues_withValues]
    exact (resolves_declare (n x) (t x)).bind fun _ => ih

theorem sorted_unstash (hs : s.vars.Sorted) (k : Nat) :
    (k.repeat State.unstash1 s).vars.Sorted := by
  induction k with
  | zero => exact hs
  | succ k ih =>
    rw [Nat.repeat]
    generalize k.repeat State.unstash1 s = t at ih ⊢
    rcases hst : t.stash with _ | ⟨⟨id, _ | x⟩, rest⟩
    · simpa [State.unstash1, hst] using ih
    · simpa [State.unstash1, hst] using Table.sorted_erase ih
    · simpa [State.unstash1, hst] using Table.sorted_insert ih

/-- The values in scope are not said to be so any more. -/
theorem resolves_unstash (k : Nat) : Resolves v (unstash k) v.outer :=
  .modify fun {_ s} hs => by
    have hsorted := sorted_unstash hs.sorted k
    rw [unstash_congr (s := s) rfl rfl k]
    exact { hs.outer with sorted := hsorted, values := List.forall_mem_nil _ }

/-! ## Functions -/

theorem length_expectArrow {src : TypeSource} {n i : Nat} {t res : Ty} {ts : List Ty}
    (h : Returns (expectArrow src n i t) c s (ts, res) s') : ts.length = n := by
  induction n generalizing i t ts s s' with
  | zero =>
    rw [expectArrow, returns_pure] at h
    obtain ⟨rfl, -⟩ := Prod.mk.inj h.1
    rfl
  | succ n ih =>
    rw [expectArrow] at h
    obtain ⟨u, s₁, -, h⟩ := returns_bind.mp h
    split at h
    · obtain ⟨⟨ts', res'⟩, s₂, hrest, h⟩ := returns_bind.mp h
      obtain ⟨rfl, rfl⟩ := Prod.mk.inj (returns_pure.mp h).1
      rw [List.length_cons, ih hrest]
    · iterate 3 obtain ⟨_, _, -, h⟩ := returns_bind.mp h
      obtain ⟨⟨ts', res'⟩, s₂, hrest, h⟩ := returns_bind.mp h
      obtain ⟨rfl, rfl⟩ := Prod.mk.inj (returns_pure.mp h).1
      rw [List.length_cons, ih hrest]

/-- A checked pattern declares its variables. -/
theorem resolves_declarePattern {p : Pattern} {exp : Expected} {m : Matched}
    (h : Returns (checkPattern p exp) c s m s') :
    Resolves v (m.vars.forM fun x => declareMono x.1 x.2)
      (v.withValues (p.vars.map Name.id)) := by
  have hids : (m.vars.map fun x => x.1.id) = p.vars.map Name.id := by
    rw [← names_checkPattern p h, Matched.names, List.map_map]
    rfl
  rw [← hids]
  exact resolves_declareEach m.vars Prod.fst fun x => .known (.mono x.2)

theorem resolves_checkParams (i : Nat) {ps : List Pattern} {ts : List Ty}
    (hlen : ts.length = ps.length) (h : patternsInScope v ps = true) :
    Resolves v (checkParams i ps ts) (v.withValues (varIdsOf ps)) := by
  induction ps generalizing i ts v with
  | nil =>
    rw [checkParams]
    · exact (Visible.withValues_nil v).symm ▸ .pure _
    · simp
  | cons p ps ih =>
    cases ts with
    | nil => cases hlen
    | cons t ts =>
      obtain ⟨hp, hps⟩ := Bool.and_eq_true_iff.mp h
      have hids : varIdsOf (p :: ps) = p.vars.map Name.id ++ varIdsOf ps := List.map_append ..
      rw [checkParams, hids, ← Visible.withValues_withValues]
      have hle : v.Le [] (v.withValues (p.vars.map Name.id)) := Visible.le_withValues v _
      exact (resolves_checkPattern p _ hp).andThen fun _ hm => (resolves_declarePattern hm).bind
        fun _ => (ih _ (Nat.succ.inj hlen) (patternsInScope_of_le hle ps hps)).bind fun _ => .pure _

/-- What a function declares for its body is taken back. -/
theorem resolves_checkLambda {ps : List Pattern} {exp : Expected} {body : Checker}
    (hps : patternsInScope v ps = true) (hscoped : ∀ exp, Scoped (body exp))
    (hbody : ∀ exp, Resolves (v.withValues (varIdsOf ps)) (body exp) (v.withValues (varIdsOf ps))) :
    Resolves v (checkLambda ps exp body) v := by
  refine Resolves.restored (w := v.outer) ?_ (scoped_checkLambda hscoped) (List.Subset.refl _)
  unfold checkLambda
  split
  · rename_i hnil
    rw [List.isEmpty_iff] at hnil
    subst hnil
    have hbody := hbody exp
    rw [varIdsOf, Pattern.varsList, List.map_nil, Visible.withValues_nil] at hbody
    exact hbody.weaken Provides.outer
  · refine (resolves_expectArrow ..).andThen fun _ harrow => ?_
    exact (resolves_checkParams 0 (length_expectArrow harrow) hps).bind fun _ => (hbody _).bind
      fun _ => (resolves_unstash _).bind fun _ => .pure _

/-! ## Bindings -/

theorem resolves_withExistentials {α : Type} {act : Infer α} (h : Resolves v act w) :
    Resolves v (withExistentials act) w := by
  refine (Resolves.modify fun hs => ?_).bind fun _ => h.bind fun a =>
    (Resolves.modify fun hs => ?_).bind fun _ => .pure a
  all_goals exact { hs with }

theorem resolves_collectGoals {α : Type} {act : Infer α} (h : Resolves v act w) :
    Resolves v (collectGoals act) w :=
  .get_bind fun _ => (resolves_modifyGoals _).bind fun _ => h.bind fun _ => .get_bind fun _ =>
    (resolves_modifyGoals _).bind fun _ => .pure _

theorem isSome_nameAll {ps : List Param} {id : Int} {m : Table Int Param}
    (h : HasName ps id ∨ (m.find? id).isSome) : ((nameAll ps m).find? id).isSome := by
  induction ps generalizing m with
  | nil => exact h.resolve_left fun ⟨p, hp, _⟩ => absurd hp List.not_mem_nil
  | cons p ps ih =>
    rw [hasName_cons, or_assoc] at h
    refine ih ?_
    dsimp only
    rcases h with ⟨n, hn, rfl⟩ | h | h
    · rw [hn]
      exact Or.inr (by rw [Table.find?_insert, if_pos rfl]; rfl)
    · exact Or.inl h
    · refine Or.inr ?_
      split
      · rw [Table.find?_insert]
        split
        · rfl
        · exact h
      · exact h

/-- The parameters are those with the ids `own`. -/
def NamedAs (own : List Int) (ps : List Param) : Prop := ∀ id, HasName ps id ↔ id ∈ own

theorem namedAs_checkSignature {sig : Surface.Signature} {sc : Schema}
    (h : Returns (checkSignature sig) c s sc s') :
    NamedAs (sig.params.map fun p => p.name.id) sc.params := by
  have hnames := names_checkSignature h
  have hmem : ∀ n : Name, some n ∈ sc.params.map Param.name ↔
      ∃ p ∈ sig.params, p.name = n := fun n => by simp [hnames]
  intro id
  constructor
  · rintro ⟨p, hp, n, hn, rfl⟩
    obtain ⟨tp, htp, rfl⟩ := (hmem n).mp (List.mem_map.mpr ⟨p, hp, hn⟩)
    exact List.mem_map.mpr ⟨tp, htp, rfl⟩
  · intro hid
    obtain ⟨tp, htp, rfl⟩ := List.mem_map.mp hid
    obtain ⟨p, hp, hn⟩ := List.mem_map.mp ((hmem tp.name).mpr ⟨tp, htp, rfl⟩)
    exact ⟨p, hp, tp.name, hn, rfl⟩

theorem resolves_nameParams {ps : List Param} (h : NamedAs own ps) :
    Resolves v (ps.forM nameParam) (v.withTypeVars own) where
  bound _ he := (Nameless.forM nameless_nameParam).bound he
  provides {c s s' a} hs ha := by
    have hframe : Frame s s' := (Framed.forM fun p _ => framed_nameParam p).step ha
    have htypeVars := (returns_nameParams ha).1
    exact {
      external := hs.external
      prims := hs.prims
      uncancelling := hs.uncancelling
      uncancelled :=
        hs.uncancelled_after (fun _ => (Steady.forM fun p => steady_nameParam p).follows) ha
      sorted := hframe.vars ▸ hs.sorted
      values := hframe.vars ▸ hs.values
      types := hframe.scopes ▸ hs.types
      moduleParams := hframe.scopes ▸ hs.moduleParams
      sortedTypeVars := htypeVars ▸ sorted_nameAll ps hs.sortedTypeVars
      typeVars := fun id hid => by
        rw [htypeVars]
        refine isSome_nameAll ?_
        rcases List.mem_append.mp hid with hid | hid
        · exact Or.inr (hs.typeVars id hid)
        · exact Or.inl ((h id).mpr hid) }

/-- The parameters are in scope for the computation only. Their names must not be in scope before. -/
theorem resolves_withParams {α : Type} {ps : List Param} {asmps : List Ty} {act : Infer α}
    (hnamed : NamedAs own ps) (hnew : ∀ id ∈ own, id ∉ v.typeVars)
    (h : Resolves (v.withTypeVars own) act (v.withTypeVars own)) :
    Resolves v (withParams ps asmps act) v := by
  have hrest : ∀ s₀ : State, Resolves (v.withTypeVars own) (do
      let a ← act
      modify fun s => { s with
        typeVars := forgetAll ps s.typeVars, params := s₀.params, assumptions := s₀.assumptions }
      return a) v := by
    intro s₀
    refine h.bind fun a => (Resolves.modify fun {c s} hs => ?_).bind fun _ => .pure a
    exact { hs with
      sortedTypeVars := sorted_forgetAll ps hs.sortedTypeVars
      typeVars := fun id hid => by
        have hout : ¬HasName ps id := fun hname => hnew id ((hnamed id).mp hname) hid
        show (Table.find? id (forgetAll ps s.typeVars)).isSome
        rw [(find?_forgetAll hs.sortedTypeVars).2 hout]
        exact hs.typeVars id (List.mem_append_left _ hid) }
  refine .get_bind fun {_ s₀} _ => (Resolves.modify (w := v) fun hs => ?_).bind fun _ =>
    (resolves_nameParams hnamed).bind fun _ => ?_
  · exact { hs with }
  · refine .ite ((Resolves.modify fun hs => ?_).bind fun _ => hrest s₀) (hrest s₀)
    exact { hs with }

theorem resolves_checkMono {b : Bind} {t : Ty} {body : Checker}
    (h : ∀ exp, Resolves v (body exp) v) : Resolves v (checkMono b t body) v :=
  .withRange ((h _).bind fun _ => .pure _)

theorem resolves_checkSigned {b : Bind} {sc : Schema} {body : Checker}
    (hnamed : NamedAs own sc.params) (hnew : ∀ id ∈ own, id ∉ v.typeVars)
    (h : ∀ exp, Resolves (v.withTypeVars own) (body exp) (v.withTypeVars own)) :
    Resolves v (checkSigned b sc body) v := by
  refine .withRange (.ite (.pure _) ((resolves_withParams hnamed hnew ?_).bind fun _ => .pure _))
  refine (resolves_collectGoals ?_).bind fun _ => (resolves_proveSignature ..).bind fun _ => .pure _
  exact (h _).bind fun _ => (resolves_simplifyStore _).bind fun _ => .pure _

theorem resolves_checkSingle {b : Bind} {body : Checker} (hsig : b.signatureInScope v = true)
    (hnew : ∀ id ∈ b.paramIds, id ∉ v.typeVars)
    (h : ∀ exp, Resolves (v.withTypeVars b.paramIds) (body exp) (v.withTypeVars b.paramIds)) :
    Resolves v (checkSingle b body) v := by
  unfold checkSingle
  unfold Bind.signatureInScope at hsig
  unfold Bind.paramIds at hnew h
  cases hb : b.signature with
  | none =>
    simp only [hb, Visible.withTypeVars, List.append_nil] at h
    exact (resolves_freshType ..).bind fun _ => resolves_checkMono h
  | some sig =>
    rw [hb] at hsig
    simp only [hb] at hnew h
    exact (resolves_checkSignature hsig).andThen fun _ hsc =>
      resolves_checkSigned (namedAs_checkSignature hsc) hnew h

theorem resolves_checkUpdate {path : List Selector} {how : UpdateHow} {exp : Expected} {out : Term}
    {value : Checker} (h : ∀ exp, Resolves v (value exp) v) :
    Resolves v (checkUpdate path how exp out value) v := by
  unfold checkUpdate
  split
  · refine (resolves_freshType ..).bind fun _ => (resolves_newSelectorGoal ..).bind fun _ => ?_
    split
    · exact (h _).bind fun _ => .pure _
    · exact (h _).bind fun _ => (resolves_freshName _).bind fun _ => (resolves_monoDecl ..).bind
        fun _ => .pure _
  · exact .throw rfl

end SizedTypes.Infer
