import SizedTypes.Infer.Kinding
import SizedTypes.Proofs.Infer.Expect

/-!
# Written types are well-formed

Checking a written type gives a well-formed type, whether or not errors are recorded, and leaves
the state of the run as it was apart from fresh variables, goals and messages.
-/

set_option autoImplicit false

namespace SizedTypes

open Surface (TypeExpr)

namespace Infer

section Runs

variable {α β : Type} {c : Context} {k k' : Kinding} {s s' : State}

/-- A check of a written type, started in `k` and `s`, returns `a` and leaves `k'` and `s'`. -/
def KindReturns (act : KindInfer α) (c : Context) (k : Kinding) (s : State) (a : α) (k' : Kinding)
    (s' : State) : Prop :=
  Returns (act.run k) c s (a, k') s'

@[simp] theorem kindReturns_pure {a b : α} :
    KindReturns (pure a) c k s b k' s' ↔ b = a ∧ k' = k ∧ s' = s := by
  simp [KindReturns, and_assoc]

@[simp] theorem kindReturns_bind {act : KindInfer α} {f : α → KindInfer β} {b : β} :
    KindReturns (act >>= f) c k s b k' s' ↔
      ∃ a k₁ s₁, KindReturns act c k s a k₁ s₁ ∧ KindReturns (f a) c k₁ s₁ b k' s' := by
  simp [KindReturns]

@[simp] theorem kindReturns_modify {f : Kinding → Kinding} {a : PUnit} :
    KindReturns (modify f) c k s a k' s' ↔ k' = f k ∧ s' = s := by
  simp [KindReturns]

@[simp] theorem kindReturns_lift {act : Infer α} {a : α} :
    KindReturns (liftM act) c k s a k' s' ↔ k' = k ∧ Returns act c s a s' := by
  simp only [KindReturns, StateT.run_monadLift, monadLift_self, returns_bind, returns_pure,
    Prod.mk.injEq]
  constructor
  · rintro ⟨a, s₁, h, ⟨rfl, rfl⟩, rfl⟩
    exact ⟨rfl, h⟩
  · rintro ⟨rfl, h⟩
    exact ⟨a, s', h, ⟨rfl, rfl⟩, rfl⟩

@[simp 1100] theorem kindReturns_lift_bind {act : Infer α} {f : α → KindInfer β} {b : β} :
    KindReturns (liftM act >>= f) c k s b k' s' ↔
      ∃ a s₁, Returns act c s a s₁ ∧ KindReturns (f a) c k s₁ b k' s' := by
  simp [and_assoc]

@[simp 1100] theorem kindReturns_get_bind {f : Kinding → KindInfer β} {b : β} :
    KindReturns (get >>= f) c k s b k' s' ↔ KindReturns (f k) c k s b k' s' := Iff.rfl

@[simp 1100] theorem kindReturns_getState_bind {f : State → KindInfer β} {b : β} :
    KindReturns (getThe State >>= f) c k s b k' s' ↔ KindReturns (f s) c k s b k' s' := Iff.rfl

@[simp 1100] theorem kindReturns_modifyState_bind {g : State → State} {f : PUnit → KindInfer β}
    {b : β} : KindReturns (modifyThe State g >>= f) c k s b k' s' ↔
      KindReturns (f ⟨⟩) c k (g s) b k' s' := Iff.rfl

@[simp] theorem not_kindReturns_throw {e : InternalError} {a : α} :
    ¬KindReturns (throw e) c k s a k' s' := by
  intro h
  cases h

@[simp] theorem kindReturns_located {r : Range} {act : KindInfer α} {a : α} :
    KindReturns (Kinding.located r act) c k s a k' s' ↔
      KindReturns act { c with range := r.orElse c.range } k s a k' s' := Iff.rfl

end Runs

namespace Kinding

variable {W : Setting} {E : External} {c : Context} {k k' : Kinding} {s s' : State}

/-- What every check of a written type keeps: no parameters are declared, and the state of the run
is extended. -/
structure Keeps (W : Setting) (E : External) (k k' : Kinding) (s s' : State) : Prop where
  params : k.params = [] → k'.params = []
  state : Extends W E 0 s s'

theorem Keeps.refl (k : Kinding) (s : State) : Keeps W E k k s s := ⟨fun h => h, .refl s⟩

theorem Keeps.trans {k₁ : Kinding} {s₁ : State} (h : Keeps W E k k₁ s s₁)
    (h' : Keeps W E k₁ k' s₁ s') : Keeps W E k k' s s' :=
  ⟨fun hk => h'.params (h.params hk), h.state.trans h'.state⟩

/-- A type that is checked and then brought to a kind. -/
theorem returns_atKind {k₁ : Kinding} {s₁ : State} {kd : Kind} {r : Ty × Kind} {t : Ty}
    (hr : Keeps W E k k₁ s s₁ ∧ r.1.WellFormed W)
    (h : KindReturns (atKind kd r) c k₁ s₁ t k' s') (hs : s.WellFormed W E) :
    Keeps W E k k' s s' ∧ t.WellFormed W := by
  obtain ⟨hkeep, hr⟩ := hr
  unfold atKind at h
  split at h
  · simp only [kindReturns_lift_bind, kindReturns_lift] at h
    obtain ⟨⟨⟩, s₂, herr, rfl, hfresh⟩ := h
    obtain ⟨hext₁, -⟩ := returns_recordError (W := W) (E := E) herr
    obtain ⟨hext₂, ht⟩ := returns_freshType (W := W) (E := E) hfresh
    exact ⟨hkeep.trans ⟨fun hk => hk, hext₁.trans hext₂⟩,
      ht (hext₁.wellFormed (hkeep.state.wellFormed hs))⟩
  · rw [kindReturns_pure] at h
    obtain ⟨rfl, rfl, rfl⟩ := h
    exact ⟨hkeep, hr⟩

theorem returns_placeholder {kd : Kind} {r : Ty × Kind}
    (h : KindReturns (placeholder kd) c k s r k' s') (hs : s.WellFormed W E) :
    Keeps W E k k' s s' ∧ r.1.WellFormed W := by
  unfold placeholder at h
  simp only [kindReturns_lift_bind, kindReturns_pure] at h
  obtain ⟨t, s₁, hfresh, rfl, rfl, rfl⟩ := h
  obtain ⟨hext, ht⟩ := returns_freshType (W := W) (E := E) hfresh
  exact ⟨⟨fun hk => hk, hext⟩, ht hs⟩

theorem returns_emit {src : GoalSource} {ps : List Ty} {a : Unit}
    (h : KindReturns (emit src ps) c k s a k' s') : Keeps W E k k' s s' := by
  unfold emit currentRange at h
  simp only [kindReturns_lift_bind, kindReturns_modify, returns_read_bind, returns_pure] at h
  obtain ⟨_, _, ⟨-, rfl⟩, rfl, rfl⟩ := h
  exact ⟨fun hk => hk, .refl _⟩

theorem extends_existentials {ex : List (List (String × Ty))}
    (hex : ∀ scope ∈ ex, ∀ e ∈ scope, e.2.WellFormed W) :
    Extends W E 0 s { s with existentials := ex } where
  wellFormed hs := { hs with existentials := hex }
  errors := List.prefix_rfl
  goals := List.prefix_rfl
  params := rfl
  scopes := rfl
  vars := rfl
  stash := rfl
  solves _ hσ := hσ
  supply _ _ := by simp

theorem returns_existential {ident : String} {kd : Kind} {t : Ty}
    (h : KindReturns (existential ident kd) c k s t k' s') (hs : s.WellFormed W E) :
    Keeps W E k k' s s' ∧ t.WellFormed W := by
  unfold existential at h
  simp only [kindReturns_getState_bind] at h
  split at h
  · simp only [kindReturns_lift_bind, kindReturns_lift] at h
    obtain ⟨⟨⟩, s₁, herr, rfl, hfresh⟩ := h
    obtain ⟨hext₁, -⟩ := returns_recordError (W := W) (E := E) herr
    obtain ⟨hext₂, ht⟩ := returns_freshType (W := W) (E := E) hfresh
    exact ⟨⟨fun hk => hk, hext₁.trans hext₂⟩, ht (hext₁.wellFormed hs)⟩
  · rename_i innermost outer hscopes
    have hold := hs.existentials
    rw [hscopes] at hold
    split at h
    · rename_i t' hfound
      rw [kindReturns_pure] at h
      obtain ⟨rfl, rfl, rfl⟩ := h
      obtain ⟨scope, hscope, hlookup⟩ := List.exists_of_findSome?_eq_some hfound
      obtain ⟨before, after, rfl, -⟩ := List.lookup_eq_some_iff.mp hlookup
      exact ⟨.refl _ _, hold _ hscope (ident, t) (by simp)⟩
    · -- with or without a warning, a fresh variable enters the innermost scope
      have hnew : ∀ {s₁ s₂ : State} {t : Ty}, Extends W E 0 s s₁ →
          Returns (freshType kd (.existential ident)) c s₁ t s₂ →
          Extends W E 0 s { s₂ with existentials := ((ident, t) :: innermost) :: outer } ∧
            t.WellFormed W := by
        intro s₁ s₂ t hext₁ hfresh
        obtain ⟨hext₂, ht⟩ := returns_freshType (W := W) (E := E) hfresh
        replace ht := ht (hext₁.wellFormed hs)
        obtain ⟨hinner, houter⟩ := List.forall_mem_cons.mp hold
        refine ⟨(hext₁.trans hext₂).trans (extends_existentials ?_), ht⟩
        exact List.forall_mem_cons.mpr ⟨List.forall_mem_cons.mpr ⟨ht, hinner⟩, houter⟩
      split at h
      · simp only [kindReturns_lift_bind, kindReturns_modifyState_bind, kindReturns_pure] at h
        obtain ⟨⟨⟩, s₁, hwarn, t, s₂, hfresh, rfl, rfl, rfl⟩ := h
        obtain ⟨hext, ht⟩ := hnew (returns_recordWarning hwarn) hfresh
        exact ⟨⟨fun hk => hk, hext⟩, ht⟩
      · simp only [kindReturns_lift_bind, kindReturns_modifyState_bind, kindReturns_pure] at h
        obtain ⟨t, s₂, hfresh, rfl, rfl, rfl⟩ := h
        obtain ⟨hext, ht⟩ := hnew (.refl s) hfresh
        exact ⟨⟨fun hk => hk, hext⟩, ht⟩

/-- Outside declarations a name refers to a parameter in scope or to a declared type. -/
theorem returns_resolve {n : Name} {arity : Nat} {hint : Kind} {r : Referent}
    (h : KindReturns (resolve n arity hint) c k s r k' s') (hk : k.params = [])
    (hs : s.WellFormed W c.external) :
    k' = k ∧ s' = s ∧ r ≠ .appliedParam ∧ ∀ ts, r = .head (.synonym ts) → ts.WellFormed W := by
  unfold resolve at h
  simp only [kindReturns_get_bind, hk, Table.find?] at h
  simp only [kindReturns_getState_bind, kindReturns_lift_bind, lookupParamType, lookupSynonym,
    lookupNewtype, lookupPrimType, returns_get_bind, returns_pure] at h
  obtain ⟨_, _, ⟨rfl, rfl⟩, h⟩ := h
  split at h
  · rw [kindReturns_pure] at h
    obtain ⟨rfl, rfl, rfl⟩ := h
    exact ⟨rfl, rfl, by simp, by simp⟩
  · simp only [kindReturns_lift_bind, returns_get_bind, returns_read_bind, returns_pure] at h
    obtain ⟨_, _, ⟨rfl, rfl⟩, h⟩ := h
    split at h
    · rename_i ts hts
      rw [kindReturns_pure] at h
      obtain ⟨rfl, rfl, rfl⟩ := h
      refine ⟨rfl, rfl, by simp, fun ts' heq => ?_⟩
      cases heq
      exact hs.synonyms _ _ hts
    · simp only [kindReturns_lift_bind, returns_get_bind, returns_read_bind, returns_pure] at h
      obtain ⟨_, _, ⟨rfl, rfl⟩, h⟩ := h
      split at h
      · rw [kindReturns_pure] at h
        obtain ⟨rfl, rfl, rfl⟩ := h
        exact ⟨rfl, rfl, by simp, by simp⟩
      · simp only [kindReturns_lift_bind, returns_get_bind, returns_read_bind, returns_pure] at h
        obtain ⟨_, _, ⟨rfl, rfl⟩, h⟩ := h
        split at h
        · rw [kindReturns_pure] at h
          obtain ⟨rfl, rfl, rfl⟩ := h
          exact ⟨rfl, rfl, by simp, by simp⟩
        · exact absurd h not_kindReturns_throw

theorem wellFormed_build {h : Head} {args : List Ty} (hlen : h.kind.arity = args.length)
    (hargs : ∀ a ∈ args, a.WellFormed W) (hsyn : ∀ ts, h = .synonym ts → ts.WellFormed W) :
    (h.build args).WellFormed W := by
  cases h with
  | builtin con => exact .con hlen.symm hargs
  | newtype nt => exact .newtype hargs
  | primitive pt => exact .con hlen.symm hargs
  | synonym ts =>
    have hts := hsyn ts rfl
    have hle : ts.params.length ≤ args.length := by
      rw [← hlen, Head.kind, TypeSynonym.kind, arity_arrows, List.length_map]
      exact Nat.le_add_right ..
    refine .synonym (hts.body.instantiate fun i u hu => ?_) hargs (hts.declared.symm ▸ hle) ?_
    · obtain ⟨e, he, heq⟩ := List.mem_map.mp (Table.mem_ofList (Table.mem_of_find? hu))
      obtain ⟨rfl, rfl⟩ := Prod.mk.inj heq
      obtain ⟨hp, ha⟩ := List.of_mem_zip he
      exact ⟨hargs _ ha, hts.params _ hp⟩
    · rw [Setting.expansion, hts.declared]

mutual
theorem returns_infer (t : TypeExpr) {hint : Kind} {c : Context} {k k' : Kinding} {s s' : State}
    {r : Ty × Kind} (h : KindReturns (infer t hint) c k s r k' s') (hc : c.external = E)
    (hk : k.params = []) (hs : s.WellFormed W E) :
    Keeps W E k k' s s' ∧ r.1.WellFormed W := by
  cases t with
  | located range t =>
    rw [infer, kindReturns_located] at h
    exact returns_infer t h hc hk hs
  | bit =>
    rw [infer, kindReturns_pure] at h
    obtain ⟨rfl, rfl, rfl⟩ := h
    exact ⟨.refl _ _, .con rfl (List.forall_mem_nil _)⟩
  | num n =>
    rw [infer, kindReturns_pure] at h
    obtain ⟨rfl, rfl, rfl⟩ := h
    exact ⟨.refl _ _, .con rfl (List.forall_mem_nil _)⟩
  | char code =>
    rw [infer, kindReturns_pure] at h
    obtain ⟨rfl, rfl, rfl⟩ := h
    exact ⟨.refl _ _, .con rfl (List.forall_mem_nil _)⟩
  | seq len elem =>
    rw [infer] at h
    simp only [kindReturns_bind, kindReturns_pure] at h
    obtain ⟨r₁, k₁, s₁, hlen, n, k₂, s₂, hn, r₂, k₃, s₃, helem, a, k₄, s₄, ha, rfl, rfl, rfl⟩ := h
    obtain ⟨hkeep₁, hwn⟩ := returns_atKind (returns_infer len hlen hc hk hs) hn hs
    have hs₂ := hkeep₁.state.wellFormed hs
    obtain ⟨hkeep₂, hwa⟩ := returns_atKind
      (returns_infer elem helem hc (hkeep₁.params hk) hs₂) ha hs₂
    exact ⟨hkeep₁.trans hkeep₂, .con rfl (by simp [hwn, hwa])⟩
  | arrow a b =>
    rw [infer] at h
    simp only [kindReturns_bind, kindReturns_pure] at h
    obtain ⟨r₁, k₁, s₁, ha, u, k₂, s₂, hu, r₂, k₃, s₃, hb, v, k₄, s₄, hv, rfl, rfl, rfl⟩ := h
    obtain ⟨hkeep₁, hwu⟩ := returns_atKind (returns_infer a ha hc hk hs) hu hs
    have hs₂ := hkeep₁.state.wellFormed hs
    obtain ⟨hkeep₂, hwv⟩ := returns_atKind (returns_infer b hb hc (hkeep₁.params hk) hs₂) hv hs₂
    exact ⟨hkeep₁.trans hkeep₂, .con rfl (by simp [hwu, hwv])⟩
  | tuple ts =>
    rw [infer] at h
    simp only [kindReturns_bind, kindReturns_pure] at h
    obtain ⟨us, k₁, s₁, hts, rfl, rfl, rfl⟩ := h
    obtain ⟨hkeep, hus⟩ := returns_checkTypes ts hts hc hk hs
    exact ⟨hkeep, .con (arity_tuple _).symm hus⟩
  | record fs =>
    rw [infer] at h
    simp only [kindReturns_bind, kindReturns_pure] at h
    obtain ⟨gs, k₁, s₁, hfs, rfl, rfl, rfl⟩ := h
    obtain ⟨hkeep, hgs⟩ := returns_checkFields fs hfs hc hk hs
    exact ⟨hkeep, .record (Table.sorted_ofList gs) fun g hg => hgs g (Table.mem_ofList hg)⟩
  | wildcard =>
    rw [infer] at h
    simp only [kindReturns_get_bind] at h
    have hfresh : ∀ {s₁ : State}, Extends W E 0 s s₁ →
        KindReturns (do return (← freshType (hint.orElse .type) .wildcard, hint.orElse .type))
          c k s₁ r k' s' → Keeps W E k k' s s' ∧ r.1.WellFormed W := by
      intro s₁ hext₁ h
      simp only [kindReturns_lift_bind, kindReturns_pure] at h
      obtain ⟨t, s₂, ht, rfl, rfl, rfl⟩ := h
      obtain ⟨hext₂, hwt⟩ := returns_freshType (W := W) (E := E) ht
      exact ⟨⟨fun hk => hk, hext₁.trans hext₂⟩, hwt (hext₁.wellFormed hs)⟩
    split at h
    · rw [kindReturns_lift_bind] at h
      obtain ⟨⟨⟩, s₁, herr, h⟩ := h
      exact hfresh (returns_recordError herr).1 h
    · exact hfresh (.refl s) h
  | existential ident =>
    rw [infer] at h
    simp only [kindReturns_bind, kindReturns_pure] at h
    obtain ⟨t, k₁, s₁, ht, rfl, rfl, rfl⟩ := h
    exact returns_existential ht hs
  | builtin con args =>
    rw [infer] at h
    dsimp only at h
    split at h
    · rw [kindReturns_lift_bind] at h
      obtain ⟨⟨⟩, s₁, herr, h⟩ := h
      have hext := (returns_recordError (W := W) (E := E) herr).1
      obtain ⟨hkeep, hwt⟩ := returns_placeholder h (hext.wellFormed hs)
      exact ⟨⟨hkeep.params, hext.trans hkeep.state⟩, hwt⟩
    · rename_i harity
      simp only [kindReturns_bind, kindReturns_pure] at h
      obtain ⟨⟨us, kd⟩, k₁, s₁, hargs, ⟨⟩, k₂, s₂, hemit, rfl, rfl, rfl⟩ := h
      obtain ⟨hkeep, hus, hlen⟩ := returns_checkArgs args hargs hc hk hs
      rw [ne_eq, not_not] at harity
      refine ⟨hkeep.trans (returns_emit hemit), .con ?_ hus⟩
      rw [hlen (Nat.le_of_eq harity.symm), harity]
  | named n args =>
    rw [infer] at h
    rw [kindReturns_bind] at h
    obtain ⟨ref, k₁, s₁, hres, h⟩ := h
    obtain ⟨rfl, rfl, hne, hsyn⟩ := returns_resolve (W := W) hres hk (hc ▸ hs)
    split at h
    · rw [kindReturns_pure] at h
      obtain ⟨rfl, rfl, rfl⟩ := h
      exact ⟨.refl _ _, .bound⟩
    · exact absurd rfl hne
    · split at h
      · rw [kindReturns_lift_bind] at h
        obtain ⟨⟨⟩, s₁, herr, h⟩ := h
        have hext := (returns_recordError (W := W) (E := E) herr).1
        obtain ⟨hkeep, hwt⟩ := returns_placeholder h (hext.wellFormed hs)
        exact ⟨⟨hkeep.params, hext.trans hkeep.state⟩, hwt⟩
      · rename_i head harity
        simp only [kindReturns_bind, kindReturns_pure] at h
        obtain ⟨⟨us, kd⟩, k₁, s₁, hargs, ⟨⟩, k₂, s₂, hemit, rfl, rfl, rfl⟩ := h
        obtain ⟨hkeep, hus, hlen⟩ := returns_checkArgs args hargs hc hk hs
        rw [ne_eq, not_not] at harity
        refine ⟨hkeep.trans (returns_emit hemit), wellFormed_build ?_ hus fun ts hts => ?_⟩
        · rw [hlen (Nat.le_of_eq harity.symm), harity]
        · exact hsyn ts (hts ▸ rfl)

theorem returns_checkTypes (ts : List TypeExpr) {c : Context} {k k' : Kinding} {s s' : State}
    {us : List Ty} (h : KindReturns (Kinding.checkEach ts) c k s us k' s') (hc : c.external = E)
    (hk : k.params = []) (hs : s.WellFormed W E) :
    Keeps W E k k' s s' ∧ ∀ u ∈ us, u.WellFormed W := by
  cases ts with
  | nil =>
    rw [Kinding.checkEach, kindReturns_pure] at h
    obtain ⟨rfl, rfl, rfl⟩ := h
    exact ⟨.refl _ _, List.forall_mem_nil _⟩
  | cons t ts =>
    rw [Kinding.checkEach] at h
    simp only [kindReturns_bind, kindReturns_pure] at h
    obtain ⟨r, k₁, s₁, ht, u, k₂, s₂, hu, us, k₃, s₃, hts, rfl, rfl, rfl⟩ := h
    obtain ⟨hkeep₁, hwu⟩ := returns_atKind (returns_infer t ht hc hk hs) hu hs
    obtain ⟨hkeep₂, hus⟩ := returns_checkTypes ts hts hc (hkeep₁.params hk)
      (hkeep₁.state.wellFormed hs)
    exact ⟨hkeep₁.trans hkeep₂, List.forall_mem_cons.mpr ⟨hwu, hus⟩⟩

theorem returns_checkFields (fs : List (String × TypeExpr)) {c : Context} {k k' : Kinding}
    {s s' : State} {gs : List (String × Ty)} (h : KindReturns (checkFields fs) c k s gs k' s')
    (hc : c.external = E) (hk : k.params = []) (hs : s.WellFormed W E) :
    Keeps W E k k' s s' ∧ ∀ g ∈ gs, g.2.WellFormed W := by
  cases fs with
  | nil =>
    rw [checkFields, kindReturns_pure] at h
    obtain ⟨rfl, rfl, rfl⟩ := h
    exact ⟨.refl _ _, List.forall_mem_nil _⟩
  | cons f fs =>
    obtain ⟨l, t⟩ := f
    rw [checkFields] at h
    simp only [kindReturns_bind, kindReturns_pure] at h
    obtain ⟨r, k₁, s₁, ht, u, k₂, s₂, hu, us, k₃, s₃, hts, rfl, rfl, rfl⟩ := h
    obtain ⟨hkeep₁, hwu⟩ := returns_atKind (returns_infer t ht hc hk hs) hu hs
    obtain ⟨hkeep₂, hus⟩ := returns_checkFields fs hts hc (hkeep₁.params hk)
      (hkeep₁.state.wellFormed hs)
    exact ⟨hkeep₁.trans hkeep₂, List.forall_mem_cons.mpr ⟨hwu, hus⟩⟩

theorem returns_checkArgs (ts : List TypeExpr) {kd : Kind} {c : Context} {k k' : Kinding}
    {s s' : State} {r : List Ty × Kind} (h : KindReturns (checkArgs kd ts) c k s r k' s')
    (hc : c.external = E) (hk : k.params = []) (hs : s.WellFormed W E) :
    Keeps W E k k' s s' ∧ (∀ u ∈ r.1, u.WellFormed W) ∧
      (ts.length ≤ kd.arity → r.1.length = ts.length) := by
  cases ts with
  | nil =>
    rw [checkArgs, kindReturns_pure] at h
    obtain ⟨rfl, rfl, rfl⟩ := h
    exact ⟨.refl _ _, List.forall_mem_nil _, fun _ => rfl⟩
  | cons t ts =>
    cases kd with
    | arrow dom cod =>
      rw [checkArgs] at h
      simp only [kindReturns_bind, kindReturns_pure] at h
      obtain ⟨r₁, k₁, s₁, ht, u, k₂, s₂, hu, ⟨us, kd⟩, k₃, s₃, hts, rfl, rfl, rfl⟩ := h
      obtain ⟨hkeep₁, hwu⟩ := returns_atKind (returns_infer t ht hc hk hs) hu hs
      obtain ⟨hkeep₂, hus, hlen⟩ := returns_checkArgs ts hts hc (hkeep₁.params hk)
        (hkeep₁.state.wellFormed hs)
      refine ⟨hkeep₁.trans hkeep₂, List.forall_mem_cons.mpr ⟨hwu, hus⟩, fun hle => ?_⟩
      exact congrArg (· + 1) (hlen (Nat.le_of_succ_le_succ hle))
    | _ =>
      simp only [checkArgs, kindReturns_pure] at h
      obtain ⟨rfl, rfl, rfl⟩ := h
      exact ⟨.refl _ _, List.forall_mem_nil _, fun hle => by simp [Kind.arity] at hle⟩

end

end Kinding

variable {W : Setting} {E : External} {c : Context} {s s' : State}

theorem returns_checkType {t : TypeExpr} {kd : Kind} {u : Ty}
    (h : Returns (checkType t kd) c s u s') (hc : c.external = E) (hs : s.WellFormed W E) :
    Extends W E 0 s s' ∧ u.WellFormed W := by
  unfold checkType at h
  rw [returns_bind] at h
  obtain ⟨⟨ty, k⟩, s₁, hcheck, h⟩ := h
  simp only [returns_modify_bind, returns_pure] at h
  obtain ⟨rfl, rfl⟩ := h
  have hcheck : KindReturns (Kinding.check t kd) c { allowWildcards := true } s u k s₁ := hcheck
  rw [Kinding.check, kindReturns_bind] at hcheck
  obtain ⟨r, k₁, s₂, hinfer, hat⟩ := hcheck
  obtain ⟨hkeep, hu⟩ := Kinding.returns_atKind (Kinding.returns_infer t hinfer hc rfl hs) hat hs
  refine ⟨hkeep.state.trans (n := 0) ?_, hu⟩
  exact .of_fields rfl rfl rfl rfl rfl rfl rfl List.prefix_rfl (List.prefix_append ..)

end Infer
end SizedTypes
