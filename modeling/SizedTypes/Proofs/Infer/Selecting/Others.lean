import SizedTypes.Proofs.Infer.Selecting
import SizedTypes.Proofs.Unify.Commit

/-!
# Selector goals next to each other

The solver takes up all goals of a store in turn. What it does for a goal binds variables that are
open in the types of that goal, whether it succeeds or not, so all that is set apart from these
stays: other variables and the solutions of other goals. Goals that wait for such a variable go on
waiting.
-/

set_option autoImplicit false

namespace SizedTypes

theorem Subst.Declared.bindVar {scopes : Int → List Int} {s : Subst} {v : TyVar} {t : Ty}
    (hs : s.Declared scopes) (h : s.Binds v t) (hv : Subst.DeclaredIn scopes v)
    (ht : t.VarsIn (Subst.DeclaredIn scopes)) : (s.bindVar v t.expand).Declared scopes := by
  have hext : Subst.Extended s v t.expand (s.bindVar v t.expand) := by
    refine ⟨h.unbound, ?_, ?_, ?_⟩
    · rw [h.expand.apply]
      simpa [Ty.occurs] using h.expand.occurs
    · rw [h.expand.apply]
      exact h.expand.inScope
    · rw [h.expand.apply]
      rfl
  exact ⟨hext.triangular hs.triangular, List.forall_mem_cons.mpr ⟨⟨hv, ht.expand⟩, hs.vars⟩⟩

namespace Ty

variable {Q : TyVar → Prop} {t u : Ty} {l : Layer}

theorem OpenIn.part? {sel : Selector} (ht : t.OpenIn Q) (h : Infer.component? sel t = some u) :
    u.OpenIn Q := by
  unfold Infer.component? at h
  split at h
  · cases ht with
    | record hfields => exact hfields _ (Table.mem_of_find? h)
  · cases ht with
    | newtype hfields hargs =>
      obtain ⟨f, hf, heq⟩ := List.mem_map.mp (Table.mem_of_find? h)
      obtain rfl := (Prod.mk.inj heq).2
      refine (hfields f hf).bind (fun _ hv => hv.elim) fun p => ?_
      cases hfind : Table.find? p.id _ with
      | none => exact .bound
      | some a =>
        obtain ⟨e, he, heq⟩ := List.mem_map.mp (Table.mem_ofList (Table.mem_of_find? hfind))
        exact (Prod.mk.inj heq).2 ▸ hargs e.2 (List.of_mem_zip he).2
  · split at h
    · cases h
    · exact ht.of_mem_con (List.mem_of_getElem? h)
  · cases h
    exact ht.of_mem_con (by simp)
  · cases h

theorem OpenIn.around (hside : l.side.OpenIn Q) (ht : t.OpenIn Q) : (l.around t).OpenIn Q :=
  .con fun a ha => by
    rcases List.mem_pair.mp ha with rfl | rfl
    · exact hside
    · exact ht

end Ty

namespace Infer

variable {c : Context} {scopes : Int → List Int} {W K K' I I' : Set Int} {s s₁ s' : State}
  {g h : SelectorGoal} {v : TyVar} {t : Ty} {l : Layer} {j k m n : ℕ}

/-! ## What is set apart -/

/-- The variable has been drawn, and it is not in `K`. -/
def State.Outside (scopes : Int → List Int) (K : Set Int) (s : State) (w : TyVar) : Prop :=
  Subst.DeclaredIn scopes w ∧ w.id < s.nextTypeVar ∧ w.id ∉ K

/-- The variables in `K` and the goals in `I` have been drawn. All variables have the scopes that
were declared for their ids, those to be drawn that of the parameters. -/
structure State.Apart (scopes : Int → List Int) (K I : Set Int) (s : State) : Prop where
  declared : s.subst.Declared scopes
  scopes : ∀ i, s.nextTypeVar ≤ i → scopes i = (s.params.map Param.id).eraseDups
  vars : ∀ i ∈ K, i < s.nextTypeVar
  goals : ∀ i ∈ I, i < s.nextGoal

end Infer

namespace SelectorGoal

open Infer (State)

/-- The goal waits for a variable in `W` to become a record. -/
def Idle (W : Set Int) (s : State) (h : SelectorGoal) : Prop :=
  ∃ w, (s.subst.apply h.record).expand = .free w ∧ w.id ∈ W

/-- The goal is about variables that are not in `K`. -/
structure Foreign (scopes : Int → List Int) (K : Set Int) (s : State) (h : SelectorGoal) :
    Prop where
  record : (s.subst.apply h.record).OpenIn (s.Outside scopes K)
  field : (s.subst.apply h.field).OpenIn (s.Outside scopes K)

/-- A goal next to the goals in `I`, about variables that are not in `K` unless it waits for one
in `W`. -/
structure Other (scopes : Int → List Int) (W K I : Set Int) (s : State) (h : SelectorGoal) :
    Prop where
  about : h.Idle W s ∨ h.Foreign scopes K s
  issued : h.id < s.nextGoal
  apart : h.id ∉ I

/-- The goal waits for a variable in `W`, or its record type is closed and has at most `m` nodes. -/
def Small (W : Set Int) (m : ℕ) (s : State) (h : SelectorGoal) : Prop :=
  h.Idle W s ∨
    ((s.subst.apply h.record).leafIds = [] ∧ (s.subst.apply h.record).size ≤ m)

end SelectorGoal

namespace Infer

variable {scopes : Int → List Int} {W K K' I I' : Set Int} {s s₁ s' : State} {g : SelectorGoal}
  {v : TyVar} {t : Ty} {j k : ℕ}

/-- What other goals are about is not touched on the way from `s` to `s'`, where `K'` and `I'` are
set apart. -/
structure State.Respects (scopes : Int → List Int) (W K I K' I' : Set Int) (s s' : State) :
    Prop where
  waiting : ∀ t w, w.id ∈ W → (s.subst.apply t).expand = .free w →
    (s'.subst.apply t).expand = .free w
  shown : ∀ t, (s.subst.apply t).OpenIn (s.Outside scopes K) →
    (s'.subst.apply t).OpenIn (s'.Outside scopes K')
  closed : ∀ t, (s.subst.apply t).leafIds = [] → s'.subst.apply t = s.subst.apply t
  goals : s.nextGoal ≤ s'.nextGoal
  apart : ∀ i < s.nextGoal, i ∈ I' → i ∈ I

/-- What goals are about does not depend on which goals are pending. -/
theorem State.Respects.pending (s : State) (ps : List SelectorGoal) :
    s.Respects scopes W K I K I { s with pending := ps } where
  waiting _ _ _ ht := ht
  shown _ ht := ht
  closed _ _ := rfl
  goals := le_rfl
  apart _ _ hi := hi

/-- What is set apart is left alone on the way from `s` to `s'`, on which at most `k` variables and
goals are drawn. -/
structure State.Leaves (scopes : Int → List Int) (K I : Set Int) (k : ℕ) (s s' : State) :
    Prop where
  grows : s.subst.Grows (s'.Outside scopes K) s'.subst
  declared : s'.subst.Declared scopes
  params : s'.params = s.params
  lowVar : s.nextTypeVar ≤ s'.nextTypeVar
  highVar : s'.nextTypeVar ≤ s.nextTypeVar + k
  lowGoal : s.nextGoal ≤ s'.nextGoal
  highGoal : s'.nextGoal ≤ s.nextGoal + k
  solutions : ∀ i ∈ I, s'.solutions.find? i = s.solutions.find? i
  unsolved : ∀ i, s'.nextGoal ≤ i → s'.solutions.find? i = s.solutions.find? i
  length : s.solutions.length ≤ s'.solutions.length

namespace State.Leaves

theorem refl (h : s.Apart scopes K I) : s.Leaves scopes K I 0 s where
  grows := .refl _
  declared := h.declared
  params := rfl
  lowVar := le_rfl
  highVar := by simp
  lowGoal := le_rfl
  highGoal := by simp
  solutions _ _ := rfl
  unsolved _ _ := rfl
  length := le_rfl

theorem outside (h : s.Leaves scopes K I k s') {w : TyVar} (hw : s.Outside scopes K w) :
    s'.Outside scopes K w :=
  ⟨hw.1, hw.2.1.trans_le h.lowVar, hw.2.2⟩

theorem trans (h : s.Leaves scopes K I k s₁) (h' : s₁.Leaves scopes K I j s') :
    s.Leaves scopes K I (k + j) s' where
  grows := (h.grows.mono fun _ => h'.outside).trans h'.grows
  declared := h'.declared
  params := h'.params.trans h.params
  lowVar := h.lowVar.trans h'.lowVar
  highVar := by
    have h₁ := h.highVar
    have h₂ := h'.highVar
    omega
  lowGoal := h.lowGoal.trans h'.lowGoal
  highGoal := by
    have h₁ := h.highGoal
    have h₂ := h'.highGoal
    omega
  solutions i hi := (h'.solutions i hi).trans (h.solutions i hi)
  unsolved i hi := (h'.unsolved i hi).trans (h.unsolved i (h'.lowGoal.trans hi))
  length := h.length.trans h'.length

theorem mono (h : s.Leaves scopes K I k s') (hkj : k ≤ j) : s.Leaves scopes K I j s' :=
  { h with
    highVar := h.highVar.trans (by omega)
    highGoal := h.highGoal.trans (by omega) }

theorem apart (h : s.Leaves scopes K I k s') (hs : s.Apart scopes K I) : s'.Apart scopes K I where
  declared := h.declared
  scopes i hi := by
    rw [h.params]
    exact hs.scopes i (h.lowVar.trans hi)
  vars i hi := (hs.vars i hi).trans_le h.lowVar
  goals i hi := (hs.goals i hi).trans_le h.lowGoal

theorem respects (h : s.Leaves scopes K I k s') (hW : W ⊆ K) :
    s.Respects scopes W K I K I s' where
  waiting t w hw ht := h.grows.expand (fun v hv hid => hv.2.2 (hid ▸ hW hw)) ht
  shown t ht := h.grows.openIn (ht.imp fun _ => h.outside)
  closed t ht := by
    obtain ⟨new, hnew⟩ := h.grows.bindings
    rw [Subst.apply_append hnew, Subst.apply_of_closed _ ht]
  goals := h.lowGoal
  apart _ _ hi := hi

end State.Leaves

end Infer

namespace SelectorGoal

open Infer (State)

variable {scopes : Int → List Int} {W K K' I I' : Set Int} {s s' : State} {h : SelectorGoal}
  {m : ℕ}

theorem Idle.next (hidle : h.Idle W s) (hs : s.Respects scopes W K I K' I' s') : h.Idle W s' := by
  obtain ⟨w, hw, hmem⟩ := hidle
  exact ⟨w, hs.waiting _ w hmem hw, hmem⟩

theorem Idle.stuck (hidle : h.Idle W s) : Infer.Stuck s.subst h := by
  obtain ⟨w, hw, -⟩ := hidle
  exact ⟨w, hw⟩

theorem Other.next (hother : h.Other scopes W K I s) (hs : s.Respects scopes W K I K' I' s') :
    h.Other scopes W K' I' s' where
  about := hother.about.imp (fun hidle => hidle.next hs) fun hforeign =>
    ⟨hs.shown _ hforeign.record, hs.shown _ hforeign.field⟩
  issued := hother.issued.trans_le hs.goals
  apart hmem := hother.apart (hs.apart _ hother.issued hmem)

theorem Small.next (hsmall : h.Small W m s) (hs : s.Respects scopes W K I K' I' s') :
    h.Small W m s' := by
  refine hsmall.imp (fun hidle => hidle.next hs) fun ⟨hclosed, hsize⟩ => ?_
  rw [hs.closed _ hclosed]
  exact ⟨hclosed, hsize⟩

end SelectorGoal

namespace Infer

variable {c : Context} {scopes : Int → List Int} {W K K' I I' : Set Int} {s s₁ s' : State}
  {g : SelectorGoal} {gs new new' : List SelectorGoal} {l : Layer} {k : ℕ}

/-! ## One goal -/

/-- What comes of goals next to others: the goals in `new` take their place. -/
structure Replaces (scopes : Int → List Int) (W K I : Set Int) (gs : List SelectorGoal) (s : State)
    (new : List SelectorGoal) (s' : State) : Prop where
  pending : s'.pending = s.pending ++ new
  length : new.length ≤ gs.length
  leaves : s.Leaves scopes K I gs.length s'
  others : ∀ h ∈ new, h.Other scopes W K I s'
  small : ∀ m, (∀ g ∈ gs, g.Small W (m + 1) s) → ∀ h ∈ new, h.Small W m s'

theorem Replaces.cons (h : Replaces scopes W K I [g] s new s₁) (hW : W ⊆ K)
    (hothers : Replaces scopes W K I gs s₁ new' s') :
    Replaces scopes W K I (g :: gs) s (new ++ new') s' where
  pending := by rw [hothers.pending, h.pending, List.append_assoc]
  length := by
    have h₁ := h.length
    have h₂ := hothers.length
    simp only [List.length_append, List.length_cons, List.length_nil] at *
    omega
  leaves := by
    have hboth := h.leaves.trans hothers.leaves
    rwa [List.length_singleton, Nat.add_comm] at hboth
  others x hx := (List.mem_append.mp hx).elim
    (fun hx => (h.others x hx).next (hothers.leaves.respects hW)) (hothers.others x)
  small m hsmall := by
    obtain ⟨hg, hgs⟩ := List.forall_mem_cons.mp hsmall
    refine fun x hx => (List.mem_append.mp hx).elim (fun hx => ?_) fun hx => ?_
    · exact (h.small m (List.forall_mem_singleton.mpr hg) x hx).next (hothers.leaves.respects hW)
    · exact hothers.small m (fun g' hg' => (hgs g' hg').next (h.leaves.respects hW)) x hx

end Infer
end SizedTypes
