import SizedTypes.Infer.Patterns
import SizedTypes.Proofs.Infer.Calls
import SizedTypes.Proofs.Surface.Conditions

/-!
# Patterns define their variables

In an environment that has the matched value, the definitions of a checked pattern are well-typed
one after the other, and together they give every variable of the pattern the type with which it is
declared. All other names that they define are fresh.
-/

set_option autoImplicit false

namespace SizedTypes.Infer

open Surface (Binders Pattern)
open SizedTypes.Core (Decl Env Group Term)

/-! ## Fresh names -/

/-- The names that were handed out have ids below `N`, and there is room for `k` more. -/
structure Room (N : Int) (k : Nat) (s : State) : Prop where
  below : N ≤ s.supply.next
  nonneg : 0 ≤ s.supply.next
  within : s.supply.next + k ≤ Word.maxValue

namespace Room

variable {W : Setting} {E : External} {N : Int} {m n : Nat} {s s₁ s' : State}

theorem left (h : Room N (m + n) s) : Room N m s := ⟨h.below, h.nonneg, by have := h.within; omega⟩

theorem right (h : Room N (m + n) s) (hext : Extends W E m s s₁) : Room N n s₁ := by
  have hsupply := hext.supply h.nonneg h.left.within
  have hwithin := h.within
  exact ⟨h.below.trans hsupply.1, h.nonneg.trans hsupply.1, by omega⟩

theorem le (h : Room N n s) (hext : Extends W E n s s') : s.supply.next ≤ s'.supply.next :=
  (hext.supply h.nonneg h.within).1

end Room

/-- The names that were drawn between two states. -/
def Drawn (s s' : State) (i : Int) : Prop := s.supply.next ≤ i ∧ i < s'.supply.next

/-! ## Definitions one after the other -/

namespace Reading

variable {W : Setting} (V : Reading W)

/-- The environment has the variable `n`, which is not generalized, at the type `t` as it is
read. -/
def Has (Γ : Env) (n : Name) (t : Ty) : Prop := ∃ sc', Γ n.id = some sc' ∧ V.Reads sc' (.mono t)

variable {V} {Γ Δ Θ : Env} {n : Name} {t u : Ty}

theorem Has.typed (h : V.Has Γ n t) (ht : t.WellFormed W) : V.Typed Γ (.var n) t := by
  obtain ⟨sc', hn, hreads⟩ := h
  exact .var hn hreads ht

theorem Has.frame (h : V.Has Γ n t) (heq : Δ n.id = Γ n.id) : V.Has Δ n t := by
  rw [Has, heq]
  exact h

theorem Has.conv (h : V.Has Γ n t) (hsame : V.Same t u) : V.Has Γ n u := by
  obtain ⟨sc', hn, hreads⟩ := h
  have hbody : V.rel sc'.body.shape (t.shape.subst V.image) := by
    rcases hreads.body with heq | ⟨-, hrel⟩
    · exact V.congruence.of_eq heq
    · exact hrel
  exact ⟨sc', hn, hreads.params, hreads.props, Or.inr ⟨rfl, V.congruence.trans hbody hsame⟩⟩

theorem has_set (Γ : Env) (n : Name) (t : Ty) : V.Has (Γ.set n (.mono (V.type t))) n t :=
  ⟨_, Env.set_self .., reads_mono (V.same_refl t)⟩

variable (V)

/-- Definitions that are well-typed one after the other, and the environment after them. -/
inductive Defines : Env → List Decl → Env → Prop
  | nil (Γ : Env) : Defines Γ [] Γ
  | cons {Γ Δ : Env} {n : Name} {u : Ty} {e : Term} {prim : Bool} {r : Range} {ds : List Decl} :
      V.Typed Γ e u → Defines (Γ.set n (.mono (V.type u))) ds Δ →
      Defines Γ (.mk n (.mono u) (some e) prim r :: ds) Δ

variable {V} {ds ds' : List Decl}

theorem Defines.append (h : V.Defines Γ ds Δ) (h' : V.Defines Δ ds' Θ) :
    V.Defines Γ (ds ++ ds') Θ := by
  induction h with
  | nil Γ => exact h'
  | cons he _ ih => exact .cons he (ih h')

theorem Defines.block {e : Term} (h : V.Defines Γ ds Δ) (he : V.Typed Δ e t) :
    V.Typed Γ (.block e (Group.singles ds)) t := by
  induction h with
  | nil Γ => exact Typed.block he
  | cons hd _ ih => exact Typed.define hd (ih he)

variable (V)

/-- Definitions that give the variables `vs` their types. All other names that they define have
ids from `lo` on, below `hi`. -/
structure Binds (lo hi : Int) (Γ : Env) (ds : List Decl) (vs : List (Name × Ty)) (Δ : Env) :
    Prop where
  defines : V.Defines Γ ds Δ
  has : ∀ v ∈ vs, V.Has Δ v.1 v.2
  frame : ∀ i, (∀ v ∈ vs, i ≠ v.1.id) → (lo ≤ i → hi ≤ i) → Δ i = Γ i

variable {V} {lo mid hi : Int} {vs vs' : List (Name × Ty)}

theorem Binds.nil (h : ∀ v ∈ vs, V.Has Γ v.1 v.2) : V.Binds lo hi Γ [] vs Γ where
  defines := .nil Γ
  has := h
  frame _ _ _ := rfl

theorem Binds.append (h : V.Binds lo mid Γ ds vs Δ) (h' : V.Binds mid hi Δ ds' vs' Θ)
    (hlo : lo ≤ mid) (hhi : mid ≤ hi) (hbelow : ∀ v ∈ vs, v.1.id < mid)
    (hdisjoint : ∀ v ∈ vs, ∀ v' ∈ vs', v.1.id ≠ v'.1.id) :
    V.Binds lo hi Γ (ds ++ ds') (vs ++ vs') Θ where
  defines := h.defines.append h'.defines
  has v hv := by
    rcases List.mem_append.mp hv with hv | hv
    · refine (h.has v hv).frame (h'.frame _ (hdisjoint v hv) fun hmid => ?_)
      exact absurd (hbelow v hv) (by omega)
    · exact h'.has v hv
  frame i hvs hi' := by
    rw [h'.frame i (fun v hv => hvs v (List.mem_append_right _ hv)) fun _ => hi' (by omega)]
    exact h.frame i (fun v hv => hvs v (List.mem_append_left _ hv)) fun hle => (hi' hle).trans' hhi

/-- One more definition first. Its name is one of the variables or fresh. -/
theorem Binds.define {e : Term} {prim : Bool} {r : Range} (he : V.Typed Γ e t)
    (h : V.Binds lo hi (Γ.set n (.mono (V.type t))) ds vs Δ)
    (hn : (∃ v ∈ vs, v.1 = n) ∨ lo ≤ n.id ∧ n.id < hi) :
    V.Binds lo hi Γ (.mk n (.mono t) (some e) prim r :: ds) vs Δ where
  defines := .cons he h.defines
  has := h.has
  frame i hvs hi' := by
    rw [h.frame i hvs hi', Env.set_of_ne]
    rintro rfl
    rcases hn with ⟨v, hv, rfl⟩ | hn
    · exact hvs v hv rfl
    · have := hi' hn.1
      omega

theorem Binds.mono {lo' : Int} (h : V.Binds lo hi Γ ds vs Δ) (hle : lo' ≤ lo) :
    V.Binds lo' hi Γ ds vs Δ where
  defines := h.defines
  has := h.has
  frame i hvs hi' := h.frame i hvs fun hlo => hi' (hle.trans hlo)

/-! ## What the definitions of a pattern rely on -/

variable (V)

/-- A run that is accepted and has room for `k` names, names `ns` to bind, and an environment that
has the primitive which splits sequences. -/
structure Ready (N : Int) (prims : List (String × Name)) (E : External) (k : Nat) (ns : List Name) (s s' : State)
    (Γ : Env) : Prop where
  accepts : V.Accepts s s'
  room : Room N k s
  binders : Binders N prims ns
  below : ∀ x, prims.lookup "splitAt" = some x → x.id < N
  splits : ∀ x, prims.lookup "splitAt" = some x → V.Agrees (· = x.id) E s Γ

variable {V} {N : Int} {prims : List (String × Name)} {E : External} {k k' : Nat} {ns ns' : List Name}
  {s s₁ s' : State}

theorem Ready.left (h : V.Ready N prims E (k + k') (ns ++ ns') s s' Γ) (h₁ : Extends W E k s s₁)
    (h₂ : Extends W E k' s₁ s') : V.Ready N prims E k ns s s₁ Γ where
  accepts := h.accepts.left h₁ h₂
  room := h.room.left
  binders := h.binders.left
  below := h.below
  splits := h.splits

/-- After a run that has nothing to bind. -/
theorem Ready.rest (h : V.Ready N prims E (k + k') ns s s' Γ) (h₁ : Extends W E k s s₁)
    (h₂ : Extends W E k' s₁ s') : V.Ready N prims E k' ns s₁ s' Γ where
  accepts := h.accepts.right h₁ h₂
  room := h.room.right h₁
  binders := h.binders
  below := h.below
  splits x hx := (h.splits x hx).extends h₁

theorem Ready.right (h : V.Ready N prims E (k + k') (ns ++ ns') s s' Γ) (h₁ : Extends W E k s s₁)
    (h₂ : Extends W E k' s₁ s') : V.Ready N prims E k' ns' s₁ s' Γ where
  __ := h.rest h₁ h₂
  binders := h.binders.right

theorem Ready.frame (h : V.Ready N prims E k ns s s' Γ)
    (heq : ∀ x, prims.lookup "splitAt" = some x → Δ x.id = Γ x.id) :
    V.Ready N prims E k ns s s' Δ where
  accepts := h.accepts
  room := h.room
  binders := h.binders
  below := h.below
  splits x hx := by
    intro i hi
    rw [hi, heq x hx, ← hi]
    exact h.splits x hx i hi

end Reading

/-! ## Patterns -/

variable {W : Setting} {E : External} {c : Context} {s s' : State}

/-- What checking the pattern `p` against the type `t` comes to. -/
structure Matches (W : Setting) (E : External) (prims : List (String × Name)) (p : Pattern) (t : Ty)
    (s s' : State) (m : Matched) : Prop where
  run : Extends W E p.drawn s s'
  vars : m.vars.map Prod.fst = p.vars
  types : ∀ v ∈ m.vars, v.2.WellFormed W
  name : m.name ∈ p.vars ∨ ∀ N, Room N p.drawn s → Drawn s s' m.name.id
  binds : ∀ (V : Reading W) (N : Int) (Γ : Env), V.Ready N prims E p.drawn p.vars s s' Γ →
    V.Has Γ m.name t → ∃ Δ, V.Binds s.supply.next s'.supply.next Γ m.decls m.vars Δ

theorem Matches.mem_vars {p : Pattern} {t : Ty} {m : Matched} (h : Matches W E c.prims p t s s' m)
    {v : Name × Ty} (hv : v ∈ m.vars) : v.1 ∈ p.vars := h.vars ▸ List.mem_map_of_mem hv

/-- A term defined as the matched value, with what the pattern defines after it. -/
theorem Matches.defined {p : Pattern} {t : Ty} {m : Matched} (h : Matches W E c.prims p t s s' m)
    {V : Reading W} {N : Int} {Γ : Env} (hready : V.Ready N c.prims E p.drawn p.vars s s' Γ) {e : Term}
    (he : V.Typed Γ e t) (r : Range) : ∃ Δ, V.Binds s.supply.next s'.supply.next Γ
      (.mk m.name (.mono t) (some e) false r :: m.decls) m.vars Δ := by
  have hname : (∃ v ∈ m.vars, v.1 = m.name) ∨ Drawn s s' m.name.id := by
    refine h.name.imp (fun hmem => ?_) fun hdrawn => hdrawn N hready.room
    rw [← h.vars] at hmem
    exact List.mem_map.mp hmem
  -- so it does not hide the primitive which splits
  have hset : ∀ x, c.prims.lookup "splitAt" = some x →
      Γ.set m.name (.mono (V.type t)) x.id = Γ x.id := by
    intro x hx
    refine Env.set_of_ne _ _ fun heq => ?_
    rcases hname with ⟨v, hv, hvm⟩ | hdrawn
    · exact hready.binders.notSplit v.1 (h.mem_vars hv) x hx (by rw [hvm, heq])
    · have hx' := hready.below x hx
      have hN := hready.room.below
      have hlo := hdrawn.1
      omega
  obtain ⟨Δ, hΔ⟩ := h.binds V N _ (hready.frame hset) (Reading.has_set ..)
  exact ⟨Δ, .define he hΔ hname⟩

/-- A run before the pattern is checked, which draws no names. -/
theorem Matches.after {p q : Pattern} {t u : Ty} {m : Matched} {s₁ : State}
    {prims : List (String × Name)} (h : Matches W E prims p u s₁ s' m) (hdrawn : q.drawn = p.drawn)
    (hvars : q.vars = p.vars) (hext : Extends W E 0 s s₁)
    (hsame : ∀ V : Reading W, V.Accepts s s₁ → V.Same t u) : Matches W E prims q t s s' m := by
  have hk : q.drawn = 0 + p.drawn := by omega
  have hnext : ∀ N, Room N q.drawn s → s₁.supply.next = s.supply.next := by
    intro N hroom
    have hsupply := hext.supply hroom.nonneg (by have := hroom.within; omega)
    omega
  refine ⟨?_, h.vars.trans hvars.symm, h.types, ?_, fun V N Γ hready hhas => ?_⟩
  · rw [hk]
    exact hext.trans h.run
  · rw [hvars]
    refine h.name.imp_right fun hname N hroom => ?_
    have hfirst := hnext N hroom
    rw [hk] at hroom
    obtain ⟨hlo, hhi⟩ := hname N (hroom.right hext)
    exact ⟨hfirst ▸ hlo, hhi⟩
  · rw [← hnext N hready.room]
    rw [hk, hvars] at hready
    have hV := hready.accepts.left hext h.run
    exact h.binds V N Γ (hready.rest hext h.run) (hhas.conv (hsame V hV))

theorem returns_part {whole part m : Matched} {sel : Selector} {t : Ty}
    (h : Returns (whole.part sel t part) c s m s') : s' = s ∧ m = { whole with
      decls := whole.decls ++
        .mk part.name (.mono t) (some (.select (.var whole.name) sel)) false c.range :: part.decls
      vars := whole.vars ++ part.vars } := by
  unfold Matched.part monoDecl currentRange at h
  simp only [bind_assoc, returns_read_bind, pure_bind, returns_pure] at h
  exact ⟨h.2, h.1⟩

/-- The parts of the value `whole`. A part that follows others sees what they define. -/
theorem returns_checkParts {ps : List Pattern} {slots : List (Selector × Expected)}
    {whole m : Matched}
    (hps : ∀ p ∈ ps, ∀ (exp : Expected) (m : Matched) (s s' : State),
      Returns (checkPattern p exp) c s m s' → s.WellFormed W E → exp.type.WellFormed W →
      Matches W E c.prims p exp.type s s' m)
    (h : Returns (checkParts ps slots whole) c s m s') (hlen : ps.length = slots.length)
    (hs : s.WellFormed W E) (hslots : ∀ slot ∈ slots, slot.2.type.WellFormed W) :
    Extends W E (Pattern.drawnList ps) s s' ∧ ∃ ds vs,
      m = { whole with decls := whole.decls ++ ds, vars := whole.vars ++ vs } ∧
      vs.map Prod.fst = Pattern.varsList ps ∧ (∀ v ∈ vs, v.2.WellFormed W) ∧
      ∀ (V : Reading W) (N : Int) (Γ : Env),
        V.Ready N c.prims E (Pattern.drawnList ps) (Pattern.varsList ps) s s' Γ →
        N ≤ whole.name.id → whole.name.id < s.supply.next →
        (∀ slot ∈ slots, ∀ Δ : Env, Δ whole.name.id = Γ whole.name.id →
          V.Typed Δ (.select (.var whole.name) slot.1) slot.2.type) →
        ∃ Δ, V.Binds s.supply.next s'.supply.next Γ ds vs Δ := by
  induction ps generalizing slots whole s with
  | nil =>
    rw [checkParts, returns_pure] at h
    · obtain ⟨rfl, rfl⟩ := h
      refine ⟨.refl _, [], [], by simp, rfl, List.forall_mem_nil _, fun V N Γ _ _ _ _ => ?_⟩
      exact ⟨Γ, .nil (List.forall_mem_nil _)⟩
    · simp
  | cons p ps ih =>
    cases slots with
    | nil => simp at hlen
    | cons slot slots =>
      obtain ⟨sel, exp⟩ := slot
      rw [checkParts, returns_bind] at h
      obtain ⟨part, s₁, hpart, h⟩ := h
      rw [returns_bind] at h
      obtain ⟨whole', s₂, hwhole, h⟩ := h
      obtain ⟨rfl, rfl⟩ := returns_part hwhole
      have hmatch := hps p (by simp) exp part s s₂ hpart hs (hslots (sel, exp) (by simp))
      obtain ⟨hext, ds, vs, rfl, hvars, htypes, hbinds⟩ := ih (fun q hq => hps q (by simp [hq])) h
        (by simpa using hlen) (hmatch.run.wellFormed hs) fun slot hslot =>
          hslots slot (by simp [hslot])
      refine ⟨hmatch.run.trans hext, .mk part.name (.mono exp.type)
        (some (.select (.var whole.name) sel)) false c.range :: part.decls ++ ds, part.vars ++ vs,
        by simp, ?_, ?_, ?_⟩
      · rw [List.map_append, hmatch.vars, hvars, Pattern.varsList]
      · intro v hv
        rcases List.mem_append.mp hv with hv | hv
        · exact hmatch.types v hv
        · exact htypes v hv
      · intro V N Γ hready hN hlt hsel
        have hleft := hready.left hmatch.run hext
        have hright := hready.right hmatch.run hext
        obtain ⟨Δ, hΔ⟩ := hmatch.defined hleft (hsel (sel, exp) (by simp) Γ rfl) c.range
        have hlo := hready.room.below
        -- neither the whole nor the primitive which splits is among what the part defines
        have hkeep : ∀ i, (∀ n ∈ p.vars, i ≠ n.id) → i < s.supply.next → Δ i = Γ i := by
          intro i hi hi'
          exact hΔ.frame i (fun v hv => hi v.1 (hmatch.mem_vars hv)) fun hle => by omega
        have hwhole : Δ whole.name.id = Γ whole.name.id := by
          refine hkeep _ (fun n hn heq => ?_) hlt
          have hn' := hleft.binders.below n hn
          omega
        have hsplit : ∀ x, c.prims.lookup "splitAt" = some x → Δ x.id = Γ x.id := by
          intro x hx
          have hx' := hready.below x hx
          exact hkeep _ (fun n hn heq => hleft.binders.notSplit n hn x hx heq.symm) (by omega)
        obtain ⟨Θ, hΘ⟩ := hbinds V N Δ (hright.frame hsplit) hN
          (hlt.trans_le (hleft.room.le hmatch.run)) fun slot hslot Θ hΘ =>
            hsel slot (by simp [hslot]) Θ (hΘ.trans hwhole)
        refine ⟨Θ, hΔ.append hΘ (hleft.room.le hmatch.run) (hright.room.le hext) ?_ ?_⟩
        · intro v hv
          exact (hleft.binders.below v.1 (hmatch.mem_vars hv)).trans_le hright.room.below
        · intro v hv v' hv'
          exact hready.binders.disjoint (hmatch.mem_vars hv) (hvars ▸ List.mem_map_of_mem hv')

/-- A sequence in two parts: the value `r.1` is split into a pair, which has a name of its own. -/
theorem returns_checkSplit {exp : Expected} {r : Name × Matched × Ty × Ty}
    (h : Returns (checkSplit exp) c s r s') (hc : c.external = E) (hs : s.WellFormed W E)
    (hexp : exp.type.WellFormed W) :
    Extends W E 2 s s' ∧ r.2.2.1.WellFormed W ∧ r.2.2.2.WellFormed W ∧
      (∀ N, Room N 2 s → r.1.id = s.supply.next ∧ r.2.1.name.id = s.supply.next + 1 ∧
        s'.supply.next = s.supply.next + 2) ∧
      r.2.1.vars = [] ∧ ∃ e, r.2.1.decls =
          [.mk r.2.1.name (.mono (.tuple [r.2.2.1, r.2.2.2])) (some e) false c.range] ∧
        ∀ (V : Reading W) (Γ : Env), V.Accepts s s' →
          (∀ x, c.prims.lookup "splitAt" = some x → V.Agrees (· = x.id) E s Γ) →
          V.Has Γ r.1 exp.type → V.Typed Γ e (.tuple [r.2.2.1, r.2.2.2]) := by
  unfold checkSplit monoDecl currentRange at h
  simp only [bind_assoc, pure_bind] at h
  rw [returns_bind] at h
  obtain ⟨front, s₁, hfront, h⟩ := h
  rw [returns_bind] at h
  obtain ⟨back, s₂, hback, h⟩ := h
  rw [returns_bind] at h
  obtain ⟨elem, s₃, helem, h⟩ := h
  rw [returns_bind] at h
  obtain ⟨⟨⟩, s₄, hunify, h⟩ := h
  rw [returns_bind] at h
  obtain ⟨⟨⟩, s₅, hgoals, h⟩ := h
  rw [returns_bind] at h
  obtain ⟨split, s₆, hsplit, h⟩ := h
  rw [returns_bind] at h
  obtain ⟨x, s₇, hx, h⟩ := h
  rw [returns_bind] at h
  obtain ⟨parts, s₈, hparts, h⟩ := h
  rw [returns_read_bind, returns_pure] at h
  obtain ⟨rfl, rfl⟩ := h
  obtain ⟨hext₁, hwf₁⟩ := returns_freshType (W := W) (E := E) hfront
  obtain ⟨hext₂, hwf₂⟩ := returns_freshType (W := W) (E := E) hback
  obtain ⟨hext₃, hwf₃⟩ := returns_freshType (W := W) (E := E) helem
  have hs₁ := hext₁.wellFormed hs
  have hs₂ := hext₂.wellFormed hs₁
  have hs₃ := hext₃.wellFormed hs₂
  replace hwf₁ := hwf₁ hs
  replace hwf₂ := hwf₂ hs₁
  replace hwf₃ := hwf₃ hs₂
  have hleft : (Ty.seq front elem).WellFormed W := .con rfl (by simp [hwf₁, hwf₃])
  have hright : (Ty.seq back elem).WellFormed W := .con rfl (by simp [hwf₂, hwf₃])
  have hpair : (Ty.tuple [.seq front elem, .seq back elem]).WellFormed W :=
    .con rfl (by simp [hleft, hright])
  have hsum : (Ty.op .add [front, back]).WellFormed W := .con rfl (by simp [hwf₁, hwf₂])
  obtain ⟨hext₄, -⟩ := returns_unifyFrom hunify hs₃ hexp (.con rfl (by simp [hsum, hwf₃]))
  obtain ⟨hext₅, -⟩ := returns_addGoals (W := W) (E := E) hgoals
  have hext₀ := (((hext₁.trans hext₂).trans hext₃).trans hext₄).trans hext₅
  obtain ⟨hext₆, n, hn, htyped⟩ := returns_checkPrim hsplit hc (hext₀.wellFormed hs)
    (.con rfl (by simp [hexp, hpair])) (by simp [hwf₁, hwf₂, hwf₃])
  obtain ⟨hext₇, hxid, hxnext⟩ := returns_freshName (W := W) (E := E) hx
  obtain ⟨hext₈, hpid, hpnext⟩ := returns_freshName (W := W) (E := E) hparts
  have hext := ((hext₀.trans hext₆).trans hext₇).trans hext₈
  refine ⟨hext, hleft, hright, fun N hroom => ?_, rfl, .app split (.var x), rfl, ?_⟩
  · have h₆ := (hext₀.trans hext₆).supply hroom.nonneg (by have := hroom.within; omega)
    have hnonneg := hroom.nonneg
    have hwithin := hroom.within
    have h₇ := hxnext (by omega) (by omega)
    have h₈ := hpnext (by omega) (by omega)
    show x.id = _ ∧ parts.id = _ ∧ _
    omega
  · intro V Γ hV hagrees hhas
    have hV₆ := (hV.left (hext₀.trans hext₆) (hext₇.trans hext₈)).right hext₀ hext₆
    have hfun := htyped V (· = n.id) Γ hV₆ rfl ((hagrees n hn).extends hext₀)
    exact hfun.app (hhas.typed hexp)

/-! The fields of a record and the two parts of a sequence are parts like those of a tuple. -/

theorem checkFieldParts_eq (fs : List (String × Pattern)) (fields : Table String Ty)
    (whole : Matched) : checkFieldParts fs fields whole = checkParts (fs.map Prod.snd)
      (fs.map fun f => (.field f.1, ⟨(Table.find? f.1 fields).getD default, .recordField f.1⟩))
      whole := by
  induction fs generalizing whole with
  | nil => rfl
  | cons f fs ih => simp only [checkFieldParts, List.map_cons, checkParts, ih]

theorem checkPattern_split (left right : Pattern) (exp : Expected) :
    checkPattern (.split left right) exp = do
      let r ← checkSplit exp
      let m ← checkParts [left, right]
        [(.component 0, ⟨r.2.2.1, .seqLength⟩), (.component 1, ⟨r.2.2.2, .seqLength⟩)] r.2.1
      return { m with name := r.1 } := by
  simp only [checkPattern, checkParts, bind_assoc, pure_bind]

/-- A value with parts. Its name is fresh, and each part is selected from it. -/
theorem matches_of_parts {p : Pattern} {ps : List Pattern} {slots : List (Selector × Expected)}
    {t : Ty} {x : Name} {m : Matched} {s₁ s₂ : State}
    (hps : ∀ p ∈ ps, ∀ (exp : Expected) (m : Matched) (s s' : State),
      Returns (checkPattern p exp) c s m s' → s.WellFormed W E → exp.type.WellFormed W →
      Matches W E c.prims p exp.type s s' m)
    (hdrawn : p.drawn = Pattern.drawnList ps + 1) (hvars : p.vars = Pattern.varsList ps)
    (hs : s.WellFormed W E) (hext : Extends W E 0 s s₁) (hx : Returns (freshName "p") c s₁ x s₂)
    (h : Returns (checkParts ps slots { name := x }) c s₂ m s') (hlen : ps.length = slots.length)
    (hslots : ∀ slot ∈ slots, slot.2.type.WellFormed W)
    (hsel : ∀ (V : Reading W) (Γ : Env), V.Accepts s s₁ → V.Has Γ x t → ∀ slot ∈ slots,
      V.Typed Γ (.select (.var x) slot.1) slot.2.type) :
    Matches W E c.prims p t s s' m := by
  obtain ⟨hextx, hxid, hxnext⟩ := returns_freshName (W := W) (E := E) hx
  have hs₂ := hextx.wellFormed (hext.wellFormed hs)
  obtain ⟨hexts, ds, vs, rfl, hvs, htypes, hbinds⟩ := returns_checkParts hps h hlen hs₂ hslots
  have hext₂ := hext.trans hextx
  have hk : p.drawn = 0 + 1 + Pattern.drawnList ps := by omega
  -- the name is the first that is drawn
  have hfresh : ∀ N, Room N p.drawn s → x.id = s.supply.next ∧ s₂.supply.next = x.id + 1 := by
    intro N hroom
    have h₁ := hext.supply hroom.nonneg (by have := hroom.within; omega)
    have hwithin := hroom.within
    have hnonneg := hroom.nonneg
    have h₂ := hxnext (by omega) (by omega)
    omega
  refine ⟨?_, hvs.trans hvars.symm, htypes, Or.inr fun N hroom => ?_, fun V N Γ hready hhas => ?_⟩
  · rw [hk]
    exact hext₂.trans hexts
  · obtain ⟨hfirst, hnext⟩ := hfresh N hroom
    rw [hk] at hroom
    have hle := (hroom.right hext₂).le hexts
    show s.supply.next ≤ x.id ∧ x.id < s'.supply.next
    omega
  · obtain ⟨hfirst, hnext⟩ := hfresh N hready.room
    have hbelow := hready.room.below
    rw [hk, hvars] at hready
    have hright := hready.rest hext₂ hexts
    have hV := hready.accepts.left hext (hextx.trans hexts)
    obtain ⟨Δ, hΔ⟩ := hbinds V N Γ hright (by show N ≤ x.id; omega) (by show x.id < _; omega)
      fun slot hslot Δ hΔ => hsel V Δ hV (hhas.frame hΔ) slot hslot
    exact ⟨Δ, hΔ.mono (by omega)⟩

/-- A sequence in two parts, which are those of the pair that its front and its back make. -/
theorem matches_of_split {left right : Pattern} {exp : Expected} {m : Matched}
    (hsides : ∀ p ∈ [left, right], ∀ (exp : Expected) (m : Matched) (s s' : State),
      Returns (checkPattern p exp) c s m s' → s.WellFormed W E → exp.type.WellFormed W →
      Matches W E c.prims p exp.type s s' m)
    (h : Returns (checkPattern (.split left right) exp) c s m s') (hc : c.external = E)
    (hs : s.WellFormed W E) (hexp : exp.type.WellFormed W) :
    Matches W E c.prims (.split left right) exp.type s s' m := by
  rw [checkPattern_split] at h
  simp only [returns_bind, returns_pure] at h
  obtain ⟨⟨x, pair, lt, rt⟩, s₁, hr, parts, _, hparts, rfl, rfl⟩ := h
  obtain ⟨hext₁, hlt, hrt, hfresh, hnone, e, hdecls, htyped⟩ := returns_checkSplit hr hc hs hexp
  dsimp only at hlt hrt hfresh hnone hdecls htyped hparts
  have hs₁ := hext₁.wellFormed hs
  obtain ⟨hext₂, ds, vs, rfl, hvs, htypes, hbinds⟩ :=
    returns_checkParts hsides hparts rfl hs₁ (by simp [hlt, hrt])
  have hvars : (Pattern.split left right).vars = Pattern.varsList [left, right] := by
    simp [Pattern.vars, Pattern.varsList]
  have hk : (Pattern.split left right).drawn = 2 + Pattern.drawnList [left, right] := by
    simp only [Pattern.drawn, Pattern.drawnList]
    omega
  refine ⟨?_, ?_, ?_, Or.inr fun N hroom => ?_, fun V N Γ hready hhas => ?_⟩
  · rw [hk]
    exact hext₁.trans hext₂
  · rw [hnone, hvars]
    exact hvs
  · rw [hnone]
    exact htypes
  · rw [hk] at hroom
    obtain ⟨hx, -, hnext⟩ := hfresh N hroom.left
    have hle := (hroom.right hext₁).le hext₂
    show s.supply.next ≤ x.id ∧ x.id < s'.supply.next
    omega
  · rw [hk, hvars] at hready
    obtain ⟨hx, hp, hnext⟩ := hfresh N hready.room.left
    have hright := hready.rest hext₁ hext₂
    have hbelow := hready.room.below
    have he := htyped V Γ (hready.accepts.left hext₁ hext₂) hready.splits hhas
    have hwf : (Ty.tuple [lt, rt]).WellFormed W := .con rfl (by simp [hlt, hrt])
    have hset : ∀ y, c.prims.lookup "splitAt" = some y →
        Γ.set pair.name (.mono (V.type (.tuple [lt, rt]))) y.id = Γ y.id := by
      intro y hy
      have hy' := hready.below y hy
      exact Env.set_of_ne _ _ (by omega)
    obtain ⟨Δ, hΔ⟩ := hbinds V N _ (hright.frame hset) (by omega) (by omega) fun slot hslot Δ hΔ =>
      by
        have hpair := ((Reading.has_set ..).frame hΔ).typed hwf
        rcases List.mem_pair.mp hslot with rfl | rfl
        · exact hpair.component rfl
        · exact hpair.component rfl
    have hle := hright.room.le hext₂
    rw [hnone, hdecls]
    exact ⟨Δ, .define he (hΔ.mono (by omega)) (Or.inr ⟨by omega, by omega⟩)⟩

/-- Checking a pattern defines its variables. -/
theorem returns_checkPattern {p : Pattern} {exp : Expected} {m : Matched}
    (h : Returns (checkPattern p exp) c s m s') (hc : c.external = E) (hs : s.WellFormed W E)
    (hexp : exp.type.WellFormed W) : Matches W E c.prims p exp.type s s' m := by
  induction p using Pattern.induction generalizing c exp m s s' with
  | located r p ih =>
    rw [checkPattern, withRange, returns_withReader] at h
    have hmatch := ih h hc hs hexp
    exact hmatch.after rfl rfl (.refl s) fun V _ => V.same_refl _
  | var n =>
    rw [checkPattern, returns_pure] at h
    obtain ⟨rfl, rfl⟩ := h
    refine ⟨.refl _, rfl, by simpa using hexp, Or.inl (List.mem_singleton_self n), ?_⟩
    exact fun V N Γ _ hhas => ⟨Γ, .nil (by simpa using hhas)⟩
  | wildcard =>
    simp only [checkPattern, returns_bind, returns_pure] at h
    obtain ⟨x, _, hx, rfl, rfl⟩ := h
    obtain ⟨hext, hxid, hxnext⟩ := returns_freshName (W := W) (E := E) hx
    refine ⟨hext, rfl, List.forall_mem_nil _, Or.inr fun N hroom => ?_, ?_⟩
    · have hnext := hxnext hroom.nonneg hroom.within
      show s.supply.next ≤ x.id ∧ x.id < s'.supply.next
      omega
    · exact fun V N Γ _ _ => ⟨Γ, .nil (List.forall_mem_nil _)⟩
  | typed p t ih =>
    simp only [checkPattern, returns_bind] at h
    obtain ⟨u, s₁, hu, ⟨⟩, s₂, hunify, h⟩ := h
    obtain ⟨hext₁, hwf⟩ := returns_checkType hu hc hs
    have hs₁ := hext₁.wellFormed hs
    obtain ⟨hext₂, hsame⟩ := returns_unifyFrom hunify hs₁ hexp hwf
    have hmatch := ih h hc (hext₂.wellFormed hs₁) hwf
    exact hmatch.after rfl rfl (hext₁.trans hext₂) fun V hV => hsame V (hV.right hext₁ hext₂)
  | tuple ps ih =>
    simp only [checkPattern, returns_bind] at h
    obtain ⟨ts, s₁, hts, x, s₂, hx, h⟩ := h
    obtain ⟨hext, hlen, hwf, hsame⟩ := returns_expectTuple hts hs hexp
    have htuple : (Ty.tuple ts).WellFormed W := .con (arity_tuple _).symm hwf
    refine matches_of_parts (fun p hp _ _ _ _ h => ih p hp h hc) rfl rfl hs hext hx h
      (by simp [hlen]) ?_ ?_
    · intro slot hslot
      obtain ⟨t, ht, rfl⟩ := List.mem_map.mp hslot
      exact hwf _ (List.fst_mem_of_mem_zipIdx ht)
    · intro V Γ hV hhas slot hslot
      obtain ⟨t, ht, rfl⟩ := List.mem_map.mp hslot
      have hx := (hhas.conv (hsame V hV)).typed htuple
      exact hx.component (List.mem_zipIdx_iff_getElem?.mp ht)
  | record fs ih =>
    simp only [checkPattern, returns_bind] at h
    obtain ⟨fields, s₁, hfields, x, s₂, hx, h⟩ := h
    rw [checkFieldParts_eq] at h
    obtain ⟨hext, hlabels, hrecord, hsame⟩ := returns_expectRecord hfields hs hexp
    have hfind : ∀ f ∈ fs, ∃ t, fields.find? f.1 = some t ∧ t.WellFormed W := by
      intro f hf
      obtain ⟨e, he, heq⟩ := List.mem_map.mp (hlabels.1 f.1 (List.mem_map_of_mem hf))
      obtain ⟨t, ht⟩ := Table.exists_find?_of_mem he
      exact ⟨t, heq ▸ ht, hrecord.of_find? ht⟩
    refine matches_of_parts (fun p hp _ _ _ _ h => ?_) ?_ ?_ hs hext hx h (by simp) ?_ ?_
    · obtain ⟨f, hf, rfl⟩ := List.mem_map.mp hp
      exact ih f hf h hc
    · rw [Pattern.drawn, Pattern.drawnFields_eq]
    · rw [Pattern.vars, Pattern.varsFields_eq]
    · intro slot hslot
      obtain ⟨f, hf, rfl⟩ := List.mem_map.mp hslot
      obtain ⟨t, ht, hwf⟩ := hfind f hf
      simpa only [ht, Option.getD_some] using hwf
    · intro V Γ hV hhas slot hslot
      obtain ⟨f, hf, rfl⟩ := List.mem_map.mp hslot
      obtain ⟨t, ht, -⟩ := hfind f hf
      have hx := (hhas.conv (hsame V hV)).typed hrecord
      simpa only [ht, Option.getD_some] using hx.field ht
  | list ps ih =>
    simp only [checkPattern, returns_bind] at h
    obtain ⟨⟨n, elem⟩, s₁, hseq, ⟨⟩, s₂, hunify, x, s₃, hx, h⟩ := h
    obtain ⟨hext₁, hn, helem, hsame₁⟩ := returns_expectSeq hseq hs hexp
    obtain ⟨hext₂, hsame₂⟩ := returns_unifyFrom hunify (hext₁.wellFormed hs) hn (wellFormed_num _)
    have hfixed : (Ty.seq (.num ps.length) elem).WellFormed W :=
      .con rfl (by simp [wellFormed_num, helem])
    refine matches_of_parts (fun p hp _ _ _ _ h => ih p hp h hc) rfl rfl hs (hext₁.trans hext₂) hx h
      (by simp) ?_ ?_
    · intro slot hslot
      obtain ⟨i, -, rfl⟩ := List.mem_map.mp hslot
      exact helem
    · intro V Γ hV hhas slot hslot
      obtain ⟨i, hi, rfl⟩ := List.mem_map.mp hslot
      have hlen := hsame₂ V (hV.right hext₁ hext₂)
      have hall := (hsame₁ V (hV.left hext₁ hext₂)).trans (hlen.seq (V.same_refl elem))
      exact ((hhas.conv hall).typed hfixed).element (List.mem_range.mp hi)
  | split left right ihl ihr =>
    refine matches_of_split (fun p hp _ _ _ _ hside => ?_) h hc hs hexp
    rcases List.mem_pair.mp hp with rfl | rfl
    · exact ihl hside hc
    · exact ihr hside hc

end SizedTypes.Infer
