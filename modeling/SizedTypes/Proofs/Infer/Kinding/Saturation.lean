import SizedTypes.Proofs.Infer.Provides.Types
import SizedTypes.Proofs.Ty.WellKinded

/-!
# Checked types are saturated

Where the declared types are well-kinded, a check of a written type at a known kind gives a saturated
type of this kind. An error does not matter, since a placeholder has the kind that is expected.
-/

set_option autoImplicit false

namespace SizedTypes

open Surface (TypeExpr)

mutual
/-- The constructors with a spelling of their own that a written type mentions. -/
def Surface.TypeExpr.builtins : TypeExpr → List Con
  | .located _ t => t.builtins
  | .builtin c args => c :: builtinsOfList args
  | .named _ args => builtinsOfList args
  | .seq len elem => len.builtins ++ elem.builtins
  | .arrow a b => a.builtins ++ b.builtins
  | .tuple ts => builtinsOfList ts
  | .record fs => builtinsOfFields fs
  | .bit | .num _ | .char _ | .wildcard | .existential _ => []

def Surface.builtinsOfList : List TypeExpr → List Con
  | [] => []
  | t :: ts => t.builtins ++ builtinsOfList ts

def Surface.builtinsOfFields : List (String × TypeExpr) → List Con
  | [] => []
  | (_, t) :: fs => t.builtins ++ builtinsOfFields fs
end

open Surface (builtinsOfList builtinsOfFields)

/-- The kinds of the parameters of a synonym are known, and its body respects them. -/
structure TypeSynonym.WellKinded (syn : Int → List Kind) (ts : TypeSynonym) : Prop where
  declared : syn ts.name.id = ts.params.map Param.kind
  params : ∀ p ∈ ts.params, p.Kinded
  body : ts.body.Saturated syn fun p => ∀ q ∈ ts.params, q.id = p.id → q.kind = p.kind

namespace Infer

/-- The declared types, the parameters in scope and the types of open existential variables are
well-kinded. -/
structure State.WellKinded (syn : Int → List Kind) (E : External) (s : State) : Prop where
  typeVars : ∀ id p, s.typeVars.find? id = some p → p.Kinded
  moduleParams : ∀ id p, Scope.lookup Core.Module.paramTypes [] id s.scopes = some p →
    p.param.Kinded
  synonyms : ∀ id ts, Scope.lookup Core.Module.synonyms E.synonyms id s.scopes = some ts →
    ts.WellKinded syn
  newtypes : ∀ id nt, Scope.lookup Core.Module.newtypes E.newtypes id s.scopes = some nt →
    ∀ p ∈ nt.params, p.Kinded
  primTypes : ∀ id pt, Scope.lookup Core.Module.primTypes E.primTypes id s.scopes = some pt →
    pt.kind.isDeclared = true
  existentials : ∀ scope ∈ s.existentials, ∀ e ∈ scope, e.2.Saturated syn fun _ => True

/-- No synonym stands for a constructor that still takes arguments. -/
def State.Proper (E : External) (s : State) : Prop :=
  ∀ id ts, Scope.lookup Core.Module.synonyms E.synonyms id s.scopes = some ts →
    ts.body.kindOf.isArrow = false

variable {syn : Int → List Kind} {E : External} {s s' : State}

theorem State.WellKinded.of_sameScope (h : s.WellKinded syn E) (hsame : SameScope s s')
    (hex : ∀ scope ∈ s'.existentials, ∀ e ∈ scope, e.2.Saturated syn fun _ => True) :
    s'.WellKinded syn E where
  typeVars := hsame.typeVars ▸ h.typeVars
  moduleParams := hsame.scopes ▸ h.moduleParams
  synonyms := hsame.scopes ▸ h.synonyms
  newtypes := hsame.scopes ▸ h.newtypes
  primTypes := hsame.scopes ▸ h.primTypes
  existentials := hex

theorem State.Proper.of_sameScope (h : s.Proper E) (hsame : SameScope s s') : s'.Proper E := by
  unfold State.Proper at h ⊢
  rw [hsame.scopes]
  exact h

/-- What a check returns satisfies `P`, where declared types are well-kinded and synonyms proper; this
stays so. -/
structure Saturates (syn : Int → List Kind) {α : Type} (act : KindInfer α) (P : α → Prop) : Prop where
  step : ∀ {c : Context} {k k' : Kinding} {s s' : State} {a : α}, KindReturns act c k s a k' s' →
    s.WellKinded syn c.external → s.Proper c.external →
    s'.WellKinded syn c.external ∧ s'.Proper c.external ∧ P a

namespace Saturates

variable {α β : Type} {P : α → Prop} {Q : β → Prop}

theorem pure {a : α} (h : P a) : Saturates syn (Pure.pure a : KindInfer α) P where
  step ha hs hproper := by
    obtain ⟨rfl, rfl, rfl⟩ := kindReturns_pure.mp ha
    exact ⟨hs, hproper, h⟩

theorem bind {act : KindInfer α} {f : α → KindInfer β} (h : Saturates syn act P)
    (h' : ∀ a, P a → Saturates syn (f a) Q) : Saturates syn (act >>= f) Q where
  step hb hs hproper := by
    obtain ⟨a, k₁, s₁, ha, hb⟩ := kindReturns_bind.mp hb
    obtain ⟨hs₁, hproper₁, hP⟩ := h.step ha hs hproper
    exact (h' a hP).step hb hs₁ hproper₁

theorem weaken {act : KindInfer α} {P' : α → Prop} (h : Saturates syn act P)
    (hP : ∀ a, P a → P' a) : Saturates syn act P' where
  step ha hs hproper := by
    obtain ⟨hs', hproper', ha⟩ := h.step ha hs hproper
    exact ⟨hs', hproper', hP _ ha⟩

theorem located {r : Range} {act : KindInfer α} (h : Saturates syn act P) :
    Saturates syn (Kinding.located r act) P where
  step {c _ _ _ _ _} ha := h.step (c := { c with range := r.orElse c.range }) ha

theorem ite {p : Prop} [Decidable p] {act act' : KindInfer α} (h : p → Saturates syn act P)
    (h' : ¬p → Saturates syn act' P) : Saturates syn (if p then act else act') P := by
  split
  · exact h ‹p›
  · exact h' ‹¬p›

theorem get : Saturates syn (MonadState.get : KindInfer Kinding) fun _ => True where
  step ha hs hproper := by
    cases ha
    exact ⟨hs, hproper, trivial⟩

/-- What follows may use that the open existential variables are well-kinded. -/
theorem getState_bind {f : State → KindInfer α} (h : ∀ {s : State},
    (∀ scope ∈ s.existentials, ∀ e ∈ scope, e.2.Saturated syn fun _ => True) →
    Saturates syn (f s) P) : Saturates syn (getThe State >>= f) P where
  step ha hs hproper := (h hs.existentials).step ha hs hproper

theorem setExistentials {ex : List (List (String × Ty))}
    (hex : ∀ scope ∈ ex, ∀ e ∈ scope, e.2.Saturated syn fun _ => True) :
    Saturates syn (modifyThe State fun s => { s with existentials := ex } : KindInfer PUnit)
      fun _ => True where
  step ha hs hproper := by
    cases ha
    exact ⟨hs.of_sameScope ⟨rfl, rfl, rfl⟩ hex, hproper.of_sameScope ⟨rfl, rfl, rfl⟩, trivial⟩

/-- A computation of the run that leaves the scopes and the existential variables. -/
theorem lift {act : Infer α} (hscope : Respects SameScope act)
    (hact : ∀ {c : Context} {s s' : State} {a : α}, Returns act c s a s' →
      s'.existentials = s.existentials ∧ P a) : Saturates syn (liftM act : KindInfer α) P where
  step ha hs hproper := by
    obtain ⟨rfl, hr⟩ := kindReturns_lift.mp ha
    obtain ⟨hex, hP⟩ := hact hr
    have hsame := hscope.step hr
    exact ⟨hs.of_sameScope hsame (hex ▸ hs.existentials), hproper.of_sameScope hsame, hP⟩

end Saturates

theorem existentials_recordError {e : TypeError} {c : Context} {a : Unit}
    (h : Returns (recordError e) c s a s') : s'.existentials = s.existentials := by
  unfold recordError currentRange at h
  simp only [bind_assoc, returns_read_bind, pure_bind, returns_modify] at h
  rw [h]

namespace Kinding

variable {kd : Kind}

theorem saturates_recordError (e : TypeError) :
    Saturates syn (liftM (recordError e) : KindInfer Unit) fun _ => True :=
  .lift (respects_recordError e) fun h => ⟨existentials_recordError h, trivial⟩

theorem saturates_recordWarning (w : Warning) :
    Saturates syn (liftM (recordWarning w) : KindInfer Unit) fun _ => True :=
  .lift (respects_recordWarning w) fun h => ⟨existentials_recordWarning h, trivial⟩

/-- A fresh variable has the kind that it is made for. -/
theorem saturates_freshType (hkd : kd.isKnown = true) (src : TypeSource) :
    Saturates syn (liftM (freshType kd src) : KindInfer Ty) fun t =>
      t.Saturated syn (fun _ => True) ∧ t.kindOf = kd := by
  refine .lift (respects_freshType kd src) fun h => ⟨existentials_freshType h, ?_⟩
  unfold freshType freshVar at h
  simp only [bind_assoc, returns_get_bind, returns_set_bind, pure_bind, returns_pure] at h
  obtain ⟨rfl, -⟩ := h
  exact ⟨.free hkd, rfl⟩

theorem saturates_emit (src : GoalSource) (ps : List Ty) :
    Saturates syn (emit src ps) fun _ => True where
  step h hs hproper := by
    unfold emit currentRange at h
    simp only [kindReturns_lift_bind, kindReturns_modify, returns_read_bind, returns_pure] at h
    obtain ⟨_, _, ⟨-, rfl⟩, rfl, rfl⟩ := h
    exact ⟨hs, hproper, trivial⟩

/-- A saturated type with its kind. -/
def Sorts (syn : Int → List Kind) (r : Ty × Kind) : Prop :=
  r.1.Saturated syn (fun _ => True) ∧ r.1.kindOf = r.2

theorem saturates_placeholder (hkd : kd.isKnown = true) (e : TypeError) :
    Saturates syn (do recordError e; placeholder kd) (Sorts syn) := by
  refine (saturates_recordError e).bind fun _ _ => ?_
  rw [placeholder, Kind.orElse_of_isKnown hkd]
  exact (saturates_freshType hkd _).bind fun t ht => .pure ht

/-- At a known kind a type either has this kind or is replaced. -/
theorem saturates_atKind (hkd : kd.isKnown = true) {r : Ty × Kind} (hr : Sorts syn r) :
    Saturates syn (atKind kd r) fun t => t.Saturated syn (fun _ => True) ∧ t.kindOf = kd := by
  obtain ⟨hsat, hkind⟩ := hr
  refine .ite (fun _ => ?_) fun hmatch => .pure ⟨hsat, ?_⟩
  · exact (saturates_recordError _).bind fun _ _ => saturates_freshType hkd _
  · have hknown : r.2.isKnown = true := hkind ▸ hsat.isKnown_kindOf
    simp only [hkd, hknown, Bool.true_and, bne_iff_ne, ne_eq, not_not] at hmatch
    rw [hkind, hmatch]

theorem saturates_existential (ident : String) (hkd : kd.isKnown = true) :
    Saturates syn (existential ident kd) fun t => t.Saturated syn fun _ => True := by
  refine .getState_bind fun {s} hopen => ?_
  have hfresh : ∀ src, Saturates syn (liftM (freshType kd src) : KindInfer Ty) fun t =>
      t.Saturated syn fun _ => True := fun src => (saturates_freshType hkd src).weaken fun _ => And.left
  split
  · exact (saturates_recordError _).bind fun _ _ => hfresh _
  · rename_i innermost outer hscopes
    rw [hscopes] at hopen
    obtain ⟨hinner, houter⟩ := List.forall_mem_cons.mp hopen
    -- with or without a warning, a fresh variable enters the innermost scope
    have hnew : Saturates syn (do
        let t ← freshType kd (.existential ident)
        modifyThe State fun s => { s with existentials := ((ident, t) :: innermost) :: outer }
        return t) fun t => t.Saturated syn fun _ => True :=
      (hfresh _).bind fun t ht => (Saturates.setExistentials <| List.forall_mem_cons.mpr
        ⟨List.forall_mem_cons.mpr ⟨ht, hinner⟩, houter⟩).bind fun _ _ => .pure ht
    split
    · rename_i t hfound
      obtain ⟨scope, hscope, hlookup⟩ := List.exists_of_findSome?_eq_some hfound
      obtain ⟨before, after, rfl, -⟩ := List.lookup_eq_some_iff.mp hlookup
      exact .pure (hopen _ hscope (ident, t) (by simp))
    · split
      · exact (saturates_recordWarning _).bind fun _ _ => hnew
      · exact hnew

/-! ## Names -/

/-- What a head takes is known, and its uses do not leave arguments out. -/
def Head.WellKinded (syn : Int → List Kind) : Head → Prop
  | .builtin c => c.kind.isDeclared = true
  | .synonym ts => ts.WellKinded syn ∧ ts.body.kindOf.isArrow = false
  | .newtype nt => ∀ p ∈ nt.params, p.Kinded
  | .primitive pt => pt.kind.isDeclared = true

def Referent.WellKinded (syn : Int → List Kind) : Referent → Prop
  | .param p => p.Kinded
  | .head h => h.WellKinded syn
  | .appliedParam => True

theorem Head.WellKinded.isDeclared {h : Head} (hh : h.WellKinded syn) :
    h.kind.isDeclared = true := by
  cases h with
  | builtin c => exact hh
  | synonym ts =>
    obtain ⟨hts, harrow⟩ := hh
    exact Kind.isDeclared_arrows (List.forall_mem_map.mpr hts.params)
      (Kind.isDeclared_of_isArrow hts.body.isKnown_kindOf harrow)
  | newtype nt => exact Kind.isDeclared_arrows (List.forall_mem_map.mpr hh) rfl
  | primitive pt => exact hh

/-- A head with arguments of the kinds that it takes. -/
theorem Head.WellKinded.sorts_build {h : Head} (hh : h.WellKinded syn) {args : List Ty} {res : Kind}
    (hargs : ∀ a ∈ args, a.Saturated syn fun _ => True)
    (hkind : h.kind = Kind.arrows (args.map Ty.kindOf) res) (hres : res.isKnown = true)
    (harrow : res.isArrow = false) : Sorts syn (h.build args, res) := by
  have hlen : args.length = (args.map Ty.kindOf).length := (List.length_map _).symm
  cases h with
  | builtin c | primitive pt =>
    refine ⟨.con res hargs hkind hres harrow, ?_⟩
    exact (congrArg (Kind.afterArgs · args.length) hkind).trans
      ((congrArg _ hlen).trans (Kind.afterArgs_arrows ..))
  | synonym ts =>
    obtain ⟨hts, harrow'⟩ := hh
    have hparams := Kind.arrows_inj_args hkind harrow' harrow
    obtain ⟨hbody, hkind'⟩ := hts.body.instantiate hargs hparams.symm
    exact ⟨.synonym hbody hargs (hparams.symm.trans hts.declared.symm),
      hkind'.trans (Kind.arrows_inj hkind harrow' harrow)⟩
  | newtype nt =>
    exact ⟨.newtype hargs (Kind.arrows_inj_args hkind rfl harrow).symm,
      Kind.arrows_inj hkind rfl harrow⟩

theorem saturates_resolve (n : Name) (arity : Nat) (hkd : kd.isKnown = true) :
    Saturates syn (resolve n arity kd) (Referent.WellKinded syn) where
  step {c k k' s s' r} h hs hproper := by
    cases hparams : k.params.find? n.id with
    | some p =>
      unfold resolve at h
      rw [kindReturns_get_bind, hparams] at h
      dsimp only at h
      split at h
      · obtain ⟨rfl, rfl, rfl⟩ := kindReturns_pure.mp h
        exact ⟨hs, hproper, trivial⟩
      · obtain ⟨⟨⟩, k₁, s₁, hinsert, h⟩ := kindReturns_bind.mp h
        obtain ⟨rfl, rfl⟩ := kindReturns_modify.mp hinsert
        obtain ⟨rfl, rfl, rfl⟩ := kindReturns_pure.mp h
        exact ⟨hs, hproper, Kind.isKnown_orElse hkd⟩
    | none =>
      replace h : KindReturns (outerReferent c s n arity) c k s r k' s' :=
        (exec_resolve hparams).symm.trans h
      unfold outerReferent at h
      split at h
      · rename_i p hp
        obtain ⟨rfl, rfl, rfl⟩ := kindReturns_pure.mp h
        refine ⟨hs, hproper, ?_⟩
        rw [Option.ite_none_right_eq_some, Option.or_eq_some_iff] at hp
        obtain ⟨-, hp | ⟨-, hp⟩⟩ := hp
        · exact hs.typeVars _ _ hp
        · obtain ⟨mp, hmp, rfl⟩ := Option.map_eq_some_iff.mp hp
          exact hs.moduleParams _ _ hmp
      · split at h
        · rename_i ts hts
          obtain ⟨rfl, rfl, rfl⟩ := kindReturns_pure.mp h
          exact ⟨hs, hproper, hs.synonyms _ _ hts, hproper _ _ hts⟩
        · split at h
          · rename_i nt hnt
            obtain ⟨rfl, rfl, rfl⟩ := kindReturns_pure.mp h
            exact ⟨hs, hproper, hs.newtypes _ _ hnt⟩
          · split at h
            · rename_i pt hpt
              obtain ⟨rfl, rfl, rfl⟩ := kindReturns_pure.mp h
              exact ⟨hs, hproper, hs.primTypes _ _ hpt⟩
            · exact absurd h not_kindReturns_throw

/-! ## Written types -/

/-- Types of values. -/
def Values (syn : Int → List Kind) (ts : List Ty) : Prop :=
  ∀ t ∈ ts, t.Saturated syn (fun _ => True) ∧ t.kindOf = .type

theorem sorts_con {con : Con} {args : List Ty} {ks : List Kind}
    (hargs : ∀ a ∈ args, a.Saturated syn fun _ => True) (hks : args.map Ty.kindOf = ks)
    (hkind : con.kind = Kind.arrows ks .type) : Sorts syn (.con con args, .type) := by
  subst hks
  have hcon : Head.WellKinded syn (.builtin con) := by
    rw [Head.WellKinded, hkind]
    refine Kind.isDeclared_arrows ?_ rfl
    exact List.forall_mem_map.mpr fun a ha => (hargs a ha).isKnown_kindOf
  exact hcon.sorts_build hargs hkind rfl rfl

mutual
theorem saturates_infer : ∀ (t : TypeExpr) {hint : Kind}, hint.isKnown = true →
    (∀ con ∈ t.builtins, con.kind.isDeclared = true) → Saturates syn (infer t hint) (Sorts syn)
  | .located r t, hint, hhint, ht => by
    rw [infer]
    exact .located (saturates_infer t hhint ht)
  | .bit, _, _, _ => by
    rw [infer]
    exact .pure (sorts_con (List.forall_mem_nil _) rfl rfl)
  | .num _, _, _, _ | .char _, _, _, _ => by
    rw [infer]
    exact .pure ⟨.con .num (List.forall_mem_nil _) rfl rfl rfl, rfl⟩
  | .seq len elem, _, _, ht => by
    rw [TypeExpr.builtins, List.forall_mem_append] at ht
    rw [infer]
    exact (saturates_infer len rfl ht.1).bind fun _ hr => (saturates_atKind rfl hr).bind fun n hn =>
      (saturates_infer elem rfl ht.2).bind fun _ hr => (saturates_atKind rfl hr).bind fun a ha =>
      .pure (sorts_con (by simp [hn.1, ha.1]) (by simp [hn.2, ha.2]) rfl)
  | .arrow a b, _, _, ht => by
    rw [TypeExpr.builtins, List.forall_mem_append] at ht
    rw [infer]
    exact (saturates_infer a rfl ht.1).bind fun _ hr => (saturates_atKind rfl hr).bind fun n hn =>
      (saturates_infer b rfl ht.2).bind fun _ hr => (saturates_atKind rfl hr).bind fun a ha =>
      .pure (sorts_con (by simp [hn.1, ha.1]) (by simp [hn.2, ha.2]) rfl)
  | .tuple ts, _, _, ht => by
    rw [infer]
    refine (saturates_checkEach ts ht).bind fun us hus => .pure ?_
    have hkinds : us.map Ty.kindOf = List.replicate us.length .type := by
      rw [List.eq_replicate_iff, List.length_map]
      exact ⟨rfl, List.forall_mem_map.mpr fun u hu => (hus u hu).2⟩
    exact sorts_con (fun u hu => (hus u hu).1) hkinds rfl
  | .record fs, _, _, ht => by
    rw [infer]
    refine (saturates_checkFields fs ht).bind fun gs hgs => .pure ⟨.record ?_ ?_, rfl⟩
    · exact fun g hg => (hgs g (Table.mem_ofList hg)).1
    · exact fun g hg => (hgs g (Table.mem_ofList hg)).2
  | .wildcard, hint, hhint, _ => by
    rw [infer, Kind.orElse_of_isKnown hhint]
    have hfresh : Saturates syn (do return (← freshType hint .wildcard, hint) :
        KindInfer (Ty × Kind)) (Sorts syn) :=
      (saturates_freshType hhint _).bind fun _ ht => .pure ht
    refine Saturates.get.bind fun _ _ => .ite (fun _ => ?_) fun _ => hfresh
    exact (saturates_recordError _).bind fun _ _ => hfresh
  | .existential ident, hint, hhint, _ => by
    rw [infer, Kind.orElse_of_isKnown hhint]
    exact (saturates_existential ident hhint).bind fun _ ht => .pure ⟨ht, rfl⟩
  | .builtin con args, hint, hhint, ht => by
    obtain ⟨hcon, ht⟩ := List.forall_mem_cons.mp ht
    rw [infer]
    refine .ite (fun _ => saturates_placeholder hhint _) fun harity => ?_
    refine (saturates_checkArgs args hcon ht).bind fun r hr => (saturates_emit ..).bind fun _ _ =>
      .pure ?_
    obtain ⟨hargs, hkind, hres, harrow⟩ := hr
    exact Head.WellKinded.sorts_build (h := .builtin con) hcon hargs hkind hres
      (harrow (not_not.mp harity))
  | .named n args, hint, hhint, ht => by
    rw [infer]
    refine (saturates_resolve n _ hhint).bind fun r hr => ?_
    split
    · exact .pure ⟨.bound hr trivial, rfl⟩
    · exact saturates_placeholder hhint _
    · refine .ite (fun _ => saturates_placeholder hhint _) fun harity => ?_
      refine (saturates_checkArgs args hr.isDeclared ht).bind fun r hr' =>
        (saturates_emit ..).bind fun _ _ => .pure ?_
      obtain ⟨hargs, hkind, hres, harrow⟩ := hr'
      exact hr.sorts_build hargs hkind hres (harrow (not_not.mp harity))

theorem saturates_checkEach : ∀ ts : List TypeExpr,
    (∀ con ∈ builtinsOfList ts, con.kind.isDeclared = true) →
    Saturates syn (Kinding.checkEach ts) (Values syn)
  | [], _ => by
    rw [Kinding.checkEach]
    exact .pure (List.forall_mem_nil _)
  | t :: ts, ht => by
    rw [builtinsOfList, List.forall_mem_append] at ht
    rw [Kinding.checkEach]
    exact (saturates_infer t rfl ht.1).bind fun _ hr => (saturates_atKind rfl hr).bind fun _ hu =>
      (saturates_checkEach ts ht.2).bind fun _ hus => .pure (List.forall_mem_cons.mpr ⟨hu, hus⟩)

theorem saturates_checkFields : ∀ fs : List (String × TypeExpr),
    (∀ con ∈ builtinsOfFields fs, con.kind.isDeclared = true) →
    Saturates syn (checkFields fs) fun gs =>
      ∀ g ∈ gs, g.2.Saturated syn (fun _ => True) ∧ g.2.kindOf = .type
  | [], _ => by
    rw [checkFields]
    exact .pure (List.forall_mem_nil _)
  | (l, t) :: fs, ht => by
    rw [builtinsOfFields, List.forall_mem_append] at ht
    rw [checkFields]
    exact (saturates_infer t rfl ht.1).bind fun _ hr => (saturates_atKind rfl hr).bind fun _ hu =>
      (saturates_checkFields fs ht.2).bind fun _ hus => .pure (List.forall_mem_cons.mpr ⟨hu, hus⟩)

/-- The arguments have the kinds that the constructor takes. If there are as many as it takes, nothing
is left to be taken. -/
theorem saturates_checkArgs : ∀ (ts : List TypeExpr) {kd : Kind}, kd.isDeclared = true →
    (∀ con ∈ builtinsOfList ts, con.kind.isDeclared = true) →
    Saturates syn (checkArgs kd ts) fun r => (∀ a ∈ r.1, a.Saturated syn fun _ => True) ∧
      kd = Kind.arrows (r.1.map Ty.kindOf) r.2 ∧ r.2.isKnown = true ∧
      (kd.arity = ts.length → r.2.isArrow = false)
  | [], kd, hkd, _ => by
    rw [checkArgs]
    exact .pure ⟨List.forall_mem_nil _, rfl, Kind.isKnown_of_isDeclared hkd, Kind.isArrow_of_arity⟩
  | t :: ts, .arrow dom cod, hkd, ht => by
    rw [builtinsOfList, List.forall_mem_append] at ht
    obtain ⟨hdom, hcod⟩ := Bool.and_eq_true_iff.mp hkd
    rw [checkArgs]
    refine (saturates_infer t hdom ht.1).bind fun _ hr => (saturates_atKind hdom hr).bind fun u hu =>
      (saturates_checkArgs ts hcod ht.2).bind fun r hr => .pure ?_
    obtain ⟨hus, hkind, hres, harrow⟩ := hr
    refine ⟨List.forall_mem_cons.mpr ⟨hu.1, hus⟩, ?_, hres, fun harity => ?_⟩
    · rw [List.map_cons, hu.2, hkind]
      rfl
    · exact harrow (Nat.succ.inj harity)
  | _ :: _, .type, _, _ | _ :: _, .num, _, _ | _ :: _, .prop, _, _ => by
    rw [checkArgs]
    · exact .pure ⟨List.forall_mem_nil _, rfl, rfl, fun _ => rfl⟩
    · simp
  | _ :: _, .unknown, hkd, _ => nomatch hkd
end

theorem saturates_check {t : TypeExpr} (hkd : kd.isKnown = true)
    (ht : ∀ con ∈ t.builtins, con.kind.isDeclared = true) :
    Saturates syn (check t kd) fun u => u.Saturated syn (fun _ => True) ∧ u.kindOf = kd :=
  (saturates_infer t hkd ht).bind fun _ hr => saturates_atKind hkd hr

end Kinding
end Infer
end SizedTypes
