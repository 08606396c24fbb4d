import SizedTypes.Proofs.Infer.Monad
import SizedTypes.Proofs.Subst.WellFormed

/-!
# States of a run

What holds of every state of a run, and what a computation leaves as it was.
-/

set_option autoImplicit false

namespace SizedTypes

/-- A schema of the environment. If variables can still come into its body, its own parameters
are not among those that variables may depend on. -/
structure Schema.WellFormed (W : Setting) (sc : Schema) : Prop where
  body : sc.body.WellFormed W
  params : ∀ p ∈ sc.params, ¬W.fixed p.id
  hygienic : sc.body.varIds = [] ∨ ∀ p ∈ sc.params, ¬W.scope p.id

theorem Schema.WellFormed.mono {W : Setting} {t : Ty} (h : t.WellFormed W) :
    (Schema.mono t).WellFormed W where
  body := h
  params _ hp := nomatch hp
  hygienic := Or.inr fun _ hp => nomatch hp

/-- A synonym as it is declared. -/
structure TypeSynonym.WellFormed (W : Setting) (ts : TypeSynonym) : Prop where
  declared : W.synonym ts.name.id = ts
  body : ts.body.WellFormed W
  params : ∀ p ∈ ts.params, ¬W.fixed p.id

namespace Infer

/-- The type of the variable with the id `i`. -/
def State.typeOf (s : State) (E : External) (i : Int) : Option VarType :=
  (s.vars.find? i).or ((E.vars.find? i).map .known)

/-- A state that holds well-formed types and knows a schema for every variable. -/
structure State.WellFormed (W : Setting) (E : External) (s : State) : Prop where
  subst : s.subst.WellFormed W
  params : ∀ p ∈ s.params, W.scope p.id
  existentials : ∀ scope ∈ s.existentials, ∀ e ∈ scope, e.2.WellFormed W
  synonyms : ∀ id ts, Scope.lookup Core.Module.synonyms E.synonyms id s.scopes = some ts →
    ts.WellFormed W
  vars : ∀ i v, s.typeOf E i = some v → ∃ sc, v = .known sc ∧ sc.WellFormed W
  sorted : Table.Sorted s.vars

/-! ## What a computation leaves as it was -/

/-- `s'` comes after `s`: messages and goals are added, variables are bound, at most `n` names are
drawn, and the scopes are as before. -/
structure Extends (W : Setting) (E : External) (n : Nat) (s s' : State) : Prop where
  wellFormed : s.WellFormed W E → s'.WellFormed W E
  errors : s.errors <+: s'.errors
  goals : s.goals <+: s'.goals
  params : s'.params = s.params
  scopes : s'.scopes = s.scopes
  vars : s'.vars = s.vars
  stash : s'.stash = s.stash
  solves : ∀ σ, Subst.Solves σ s'.subst → Subst.Solves σ s.subst
  supply : 0 ≤ s.supply.next → s.supply.next + n ≤ Word.maxValue →
    s.supply.next ≤ s'.supply.next ∧ s'.supply.next ≤ s.supply.next + n

namespace Extends

variable {W : Setting} {E : External} {m n : Nat} {s s₁ s' : State}

theorem refl (s : State) : Extends W E 0 s s where
  wellFormed h := h
  errors := List.prefix_rfl
  goals := List.prefix_rfl
  params := rfl
  scopes := rfl
  vars := rfl
  stash := rfl
  solves _ h := h
  supply _ _ := by simp

theorem trans (h : Extends W E m s s₁) (h' : Extends W E n s₁ s') :
    Extends W E (m + n) s s' where
  wellFormed hs := h'.wellFormed (h.wellFormed hs)
  errors := h.errors.trans h'.errors
  goals := h.goals.trans h'.goals
  params := h'.params.trans h.params
  scopes := h'.scopes.trans h.scopes
  vars := h'.vars.trans h.vars
  stash := h'.stash.trans h.stash
  solves σ hσ := h.solves σ (h'.solves σ hσ)
  supply hpos hmax := by
    have h₁ := h.supply hpos (by omega)
    have h₂ := h'.supply (by omega) (by omega)
    omega

theorem typeOf (h : Extends W E n s s') (i : Int) : s'.typeOf E i = s.typeOf E i := by
  rw [State.typeOf, State.typeOf, h.vars]

/-- A state that differs in counters, goals and messages only. -/
theorem of_fields (hsubst : s'.subst = s.subst) (hex : s'.existentials = s.existentials)
    (hparams : s'.params = s.params) (hscopes : s'.scopes = s.scopes) (hvars : s'.vars = s.vars)
    (hstash : s'.stash = s.stash) (hsupply : s'.supply = s.supply)
    (herrors : s.errors <+: s'.errors) (hgoals : s.goals <+: s'.goals) :
    Extends W E 0 s s' where
  wellFormed hs := {
    subst := hsubst ▸ hs.subst
    params := hparams ▸ hs.params
    existentials := hex ▸ hs.existentials
    synonyms := hscopes ▸ hs.synonyms
    vars := by
      intro i v hv
      rw [State.typeOf, hvars] at hv
      exact hs.vars i v hv
    sorted := hvars ▸ hs.sorted }
  errors := herrors
  goals := hgoals
  params := hparams
  scopes := hscopes
  vars := hvars
  stash := hstash
  solves σ hσ := hsubst ▸ hσ
  supply _ _ := by simp [hsupply]

end Extends

/-- The goals that a run from `s` to `s'` has put off. -/
def newGoals (s s' : State) : List Goal := s'.goals.drop s.goals.length

theorem mem_newGoals_left {W : Setting} {E : External} {m n : Nat} {s s₁ s' : State}
    (h : Extends W E m s s₁) (h' : Extends W E n s₁ s') {g : Goal} (hg : g ∈ newGoals s s₁) :
    g ∈ newGoals s s' := by
  obtain ⟨rest, hrest⟩ := h'.goals
  rw [newGoals, ← hrest, List.drop_append_of_le_length h.goals.length_le]
  exact List.mem_append_left _ hg

theorem mem_newGoals_right {W : Setting} {E : External} {m : Nat} {s s₁ s' : State}
    (h : Extends W E m s s₁) {g : Goal} (hg : g ∈ newGoals s₁ s') : g ∈ newGoals s s' := by
  obtain ⟨rest, hrest⟩ := h.goals
  rw [newGoals, ← hrest, List.length_append, ← List.drop_drop] at hg
  exact List.mem_of_mem_drop hg

/-! ## Small computations -/

variable {W : Setting} {E : External} {c : Context} {s s' : State}

theorem returns_recordError {e : TypeError} {a : Unit}
    (h : Returns (recordError e) c s a s') : Extends W E 0 s s' ∧ s'.errors ≠ s.errors := by
  unfold recordError currentRange at h
  simp only [bind_assoc, returns_read_bind, pure_bind, returns_modify] at h
  rw [h]
  refine ⟨.of_fields rfl rfl rfl rfl rfl rfl rfl (List.prefix_append ..) List.prefix_rfl, ?_⟩
  simp

theorem returns_recordWarning {w : Warning} {a : Unit}
    (h : Returns (recordWarning w) c s a s') : Extends W E 0 s s' := by
  unfold recordWarning currentRange at h
  split at h
  · simp only [bind_assoc, returns_read_bind, pure_bind, returns_modify] at h
    rw [h]
    exact .of_fields rfl rfl rfl rfl rfl rfl rfl List.prefix_rfl List.prefix_rfl
  · rw [returns_pure] at h
    rw [h.2]
    exact .refl s

theorem returns_freshType {k : Kind} {src : TypeSource} {t : Ty}
    (h : Returns (freshType k src) c s t s') :
    Extends W E 0 s s' ∧ (s.WellFormed W E → t.WellFormed W) := by
  unfold freshType freshVar at h
  simp only [bind_assoc, returns_get_bind, returns_set_bind, pure_bind, returns_pure] at h
  obtain ⟨rfl, rfl⟩ := h
  refine ⟨.of_fields rfl rfl rfl rfl rfl rfl rfl List.prefix_rfl List.prefix_rfl, fun hs => .free ?_⟩
  intro i hi
  obtain ⟨p, hp, rfl⟩ := List.mem_map.mp (List.mem_eraseDups.mp hi)
  exact hs.params p hp

theorem returns_freshName {ident : String} {x : Name} (h : Returns (freshName ident) c s x s') :
    Extends W E 1 s s' ∧ x.id = s.supply.next ∧
      (0 ≤ s.supply.next → s.supply.next + 1 ≤ Word.maxValue →
        s'.supply.next = s.supply.next + 1) := by
  unfold freshName at h
  simp only [returns_get_bind, returns_set_bind, returns_pure] at h
  obtain ⟨rfl, rfl⟩ := h
  have hnext : 0 ≤ s.supply.next → s.supply.next + 1 ≤ Word.maxValue →
      Word.next s.supply.next = s.supply.next + 1 := by
    intro hpos hmax
    exact Word.wrap_eq_self ⟨by omega, hmax⟩
  have hsame : Extends W E 0 s s := .refl s
  refine ⟨{ hsame with
    supply := fun hpos hmax => ?_
    wellFormed := fun hs => ?_ }, rfl, hnext⟩
  · exact ⟨hs.subst, hs.params, hs.existentials, hs.synonyms, hs.vars, hs.sorted⟩
  · have := hnext hpos hmax
    simp only [Supply.fresh]
    omega

end Infer
end SizedTypes
