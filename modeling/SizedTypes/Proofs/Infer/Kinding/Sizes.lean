import SizedTypes.Proofs.Infer.Kinding.Definedness
import SizedTypes.Proofs.Infer.Kinding.Demands
import SizedTypes.Proofs.Ty.Params

/-!
# Checked sizes evaluate

A check of a written type at the kind of sizes gives a type that is built from functions on sizes
with their side conditions among the emitted goals. A use of a guarded synonym emits the conditions of
the size that the synonym stands for. So at known values of all that it leaves open, where no emitted
goal is refuted, the type evaluates, unless it divides by infinity or a result leaves the words.
-/

set_option autoImplicit false

namespace SizedTypes

open Surface (TypeExpr)
open Infer.Kinding (sideConditions)

mutual
/-- The numbers and the characters in a written type. -/
def Surface.TypeExpr.literals : TypeExpr → List Int
  | .located _ t => t.literals
  | .num n | .char n => [n]
  | .builtin (.num n) args => n :: literalsOfList args
  | .builtin _ args | .named _ args => literalsOfList args
  | .seq len elem => len.literals ++ elem.literals
  | .arrow a b => a.literals ++ b.literals
  | .tuple ts => literalsOfList ts
  | .record fs => literalsOfFields fs
  | .bit | .wildcard | .existential _ => []

def Surface.literalsOfList : List TypeExpr → List Int
  | [] => []
  | t :: ts => t.literals ++ literalsOfList ts

def Surface.literalsOfFields : List (String × TypeExpr) → List Int
  | [] => []
  | (_, t) :: fs => t.literals ++ literalsOfFields fs
end

open Surface (literalsOfList literalsOfFields)

/-! ## Kinds of sizes -/

namespace Kind

/-- With all arguments there is a size. -/
def GivesSize (k : Kind) : Prop := k.isKnown = true ∧ k.MaySize

theorem result_arrows (ks : List Kind) (res : Kind) : (arrows ks res).result = res.result := by
  induction ks with
  | nil => rfl
  | cons k ks ih => exact ih

theorem maySize_arrows {ks : List Kind} {res : Kind} : (arrows ks res).MaySize ↔ res.MaySize := by
  rw [MaySize, MaySize, result_arrows]

/-- A kind with all of its arguments given begins with any of its argument lists. -/
theorem exists_append_of_arrows {ks ks' : List Kind} {res res' : Kind}
    (h : arrows ks res = arrows ks' res') (hres' : res'.isArrow = false) :
    ∃ rest, ks' = ks ++ rest ∧ res = arrows rest res' := by
  induction ks generalizing ks' with
  | nil => exact ⟨ks', rfl, h⟩
  | cons k ks ih =>
    cases ks' with
    | nil =>
      obtain rfl : arrow k (arrows ks res) = res' := h
      cases hres'
    | cons k' ks' =>
      obtain ⟨rfl, htail⟩ := Kind.arrow.inj h
      obtain ⟨rest, rfl, hrest⟩ := ih htail
      exact ⟨rest, rfl, hrest⟩

end Kind

theorem SizeOp.kind_eq (f : SizeOp) :
    f.kind = Kind.arrows (List.replicate f.kind.arity .num) .num := by
  cases f <;> rfl

theorem Con.of_maySize {c : Con} (h : c.kind.MaySize) :
    (∃ n, c = .num n) ∨ c = .inf ∨ (∃ f, c = .op f) ∨ ∃ n k, c = .abstract n k ∧ k.MaySize := by
  cases c with
  | num n => exact .inl ⟨n, rfl⟩
  | inf => exact .inr (.inl rfl)
  | op f => exact .inr (.inr (.inl ⟨f, rfl⟩))
  | abstract n k => exact .inr (.inr (.inr ⟨n, k, rfl, h⟩))
  | tuple n =>
    rw [Con.kind, Kind.maySize_arrows] at h
    rcases h with h | h <;> cases h
  | prop p =>
    cases p with
    | cls c => cases c <;> rcases h with h | h <;> cases h
    | _ => rcases h with h | h <;> cases h
  | _ => rcases h with h | h <;> cases h

namespace Ty

variable {P P' : Ty → Prop} {Q Q' : Param → Prop}

theorem isJunction_sideConditions {f : SizeOp} {args : List Ty} :
    ∀ p ∈ sideConditions f args, p.isJunction = false := by
  unfold sideConditions
  split <;> (repeat refine List.forall_mem_cons.mpr ⟨rfl, ?_⟩) <;> exact List.forall_mem_nil _

/-- Sizes can be put in place of variables and parameters. -/
theorem SizedBy.bind {g : TyVar → Ty} {h : Param → Ty} {t : Ty} (ht : t.SizedBy P Q)
    (hP : ∀ p, p.isJunction = false → P p → (p.bind g h).isJunction = false → P' (p.bind g h))
    (hg : ∀ v, (g v).SizedBy P' Q') (hh : ∀ p, Q p → (h p).SizedBy P' Q') :
    (t.bind g h).SizedBy P' Q' := by
  induction ht with
  | free v => exact hg v
  | bound hp => exact hh _ hp
  | num hn => exact .num hn
  | inf => exact .inf
  | abstract hk => exact .abstract hk
  | @op f args hlen _ hargs ih =>
    rw [Ty.bind, bindList_eq_map]
    refine .op ((List.length_map _).trans hlen) (List.forall_mem_map.mpr ih) fun p hp => ?_
    have hjunction := isJunction_sideConditions p hp
    rw [bind_sideConditions] at hp
    obtain ⟨q, hq, rfl⟩ := List.mem_map.mp hp
    exact hP q (isJunction_sideConditions q hq) (hargs q hq) hjunction
  | synonym _ ih => exact .synonym ih

/-- Only parameters that occur matter. -/
theorem SizedBy.within {K : Set Int} {t : Ty} (ht : t.SizedBy P Q) (hK : t.ParamsIn K) :
    t.SizedBy P fun p => Q p ∧ p.id ∈ K := by
  induction ht with
  | free v => exact .free v
  | bound hp => exact .bound ⟨hp, paramsIn_bound.mp hK⟩
  | num hn => exact .num hn
  | inf => exact .inf
  | abstract hk => exact .abstract hk
  | op hlen _ hP ih => exact .op hlen (fun a ha => ih a ha (paramsIn_con.mp hK a ha)) hP
  | synonym _ ih => exact .synonym (ih (paramsIn_synonym.mp hK).2)

theorem SizedBy.of_expand {t : Ty} (h : t.expand.SizedBy P Q) : t.SizedBy P Q := by
  induction t using Ty.induct with
  | synonym n args body _ ih => exact .synonym (ih h)
  | _ => exact h

theorem SizedBy.expand {t : Ty} (h : t.SizedBy P Q) : t.expand.SizedBy P Q := by
  induction h with
  | synonym _ ih => exact ih
  | free v => exact .free v
  | bound hp => exact .bound hp
  | num hn => exact .num hn
  | inf => exact .inf
  | abstract hk => exact .abstract hk
  | op hlen hargs hP => exact .op hlen hargs hP

theorem expand_bind (g : TyVar → Ty) (h : Param → Ty) (t : Ty) :
    (t.bind g h).expand = (t.expand.bind g h).expand := by
  induction t using Ty.induct with
  | synonym n args body _ ih => exact ih
  | _ => rfl

theorem kindOf_expand_bind (g : TyVar → Ty) (h : Param → Ty) (t : Ty) :
    (t.expand.bind g h).kindOf = (t.bind g h).kindOf := by
  rw [← kindOf_expand (t.bind g h), expand_bind, kindOf_expand]

end Ty

/-- Where a parameter is one of `qs`, it is a size or gives sizes. -/
def SizesAmong (qs : List Param) (p : Param) : Prop := ∀ q ∈ qs, q.id = p.id → q.kind.GivesSize

/-- A synonym for a size has the side conditions of this size among its own conditions. Its parameters
stand in it only where sizes are expected. -/
def TypeSynonym.Guarded (ts : TypeSynonym) : Prop :=
  ts.body.kindOf.MaySize → ts.body.SizedBy (· ∈ ts.props) (SizesAmong ts.params)

namespace Infer

/-- Synonyms for sizes have the side conditions of these sizes, and open existential variables are
variables. -/
structure State.Guarded (E : External) (s : State) : Prop where
  synonyms : ∀ id ts, Scope.lookup Core.Module.synonyms E.synonyms id s.scopes = some ts → ts.Guarded
  existentials : ∀ scope ∈ s.existentials, ∀ e ∈ scope, ∃ v, e.2 = .free v

/-- The parameters that are in scope, and those that synonyms mention, have ids in `K`. -/
structure State.Within (K : Set Int) (E : External) (s : State) : Prop where
  typeVars : ∀ id p, s.typeVars.find? id = some p → p.id ∈ K
  moduleParams : ∀ id p, Scope.lookup Core.Module.paramTypes [] id s.scopes = some p → p.param.id ∈ K
  synonyms : ∀ id ts, Scope.lookup Core.Module.synonyms E.synonyms id s.scopes = some ts →
    ts.body.ParamsIn K

variable {E : External} {s s' : State}

theorem State.Guarded.of_sameScope (h : s.Guarded E) (hsame : SameScope s s')
    (hex : ∀ scope ∈ s'.existentials, ∀ e ∈ scope, ∃ v, e.2 = .free v) : s'.Guarded E where
  synonyms := hsame.scopes ▸ h.synonyms
  existentials := hex

theorem State.Within.of_sameScope {K : Set Int} (h : s.Within K E) (hsame : SameScope s s') :
    s'.Within K E where
  typeVars := hsame.typeVars ▸ h.typeVars
  moduleParams := hsame.scopes ▸ h.moduleParams
  synonyms := hsame.scopes ▸ h.synonyms

theorem State.Within.mono {K K' : Set Int} (h : s.Within K E) (hK : K ⊆ K') : s.Within K' E where
  typeVars id p hp := hK (h.typeVars id p hp)
  moduleParams id p hp := hK (h.moduleParams id p hp)
  synonyms id ts hts := (h.synonyms id ts hts).mono hK

/-- Parameters as they are at the end of a check: their kinds are known, and an id has one kind. -/
structure FinalParams where
  params : List Param
  isKnown : ∀ q ∈ params, q.kind.isKnown = true
  kind_eq : ∀ q ∈ params, ∀ q' ∈ params, q.id = q'.id → q.kind = q'.kind

/-- The ids of other parameters. -/
def FinalParams.others (qs : FinalParams) : Set Int := {i | ∀ q ∈ qs.params, q.id ≠ i}

/-- A parameter of the declaration whose kind is known keeps it. -/
def Kinding.Grows (k k' : Kinding) : Prop :=
  ∀ id p, k.params.find? id = some p → p.kind.isKnown = true → k'.params.find? id = some p

/-- A parameter of the declaration whose kind is known has the same kind among `qs`. -/
def Kinding.LeadsTo (qs : FinalParams) (k : Kinding) : Prop :=
  ∀ id p, k.params.find? id = some p → p.kind.isKnown = true → ∀ q ∈ qs.params, q.id = p.id →
    q.kind = p.kind

theorem Kinding.Grows.refl (k : Kinding) : k.Grows k := fun _ _ h _ => h

theorem Kinding.Grows.leadsTo {qs : FinalParams} {k k' : Kinding} (h : k.Grows k')
    (hk' : k'.LeadsTo qs) : k.LeadsTo qs :=
  fun id p hp hknown => hk' id p (h id p hp hknown) hknown

/-- A check of a part of a declaration, the parameters of which turn out to be `qs`. Goals are only
added. What is returned satisfies `P`, if the goals that are added satisfy `G` and the kinds of the
parameters lead to those of `qs`. Synonyms stay guarded. -/
structure Guards (G : Ty → Prop) (qs : FinalParams) {α : Type} (act : KindInfer α) (P : α → Prop) :
    Prop where
  step : ∀ {c : Context} {k k' : Kinding} {s s' : State} {a : α}, KindReturns act c k s a k' s' →
    s.Guarded c.external → s.Within qs.others c.external →
    s'.Guarded c.external ∧ s'.Within qs.others c.external ∧ k.Grows k' ∧
      ∃ gs, k'.goals = k.goals ++ gs ∧ ((∀ g ∈ gs, G g.prop) → k'.LeadsTo qs → P a)

namespace Guards

variable {G : Ty → Prop} {qs : FinalParams} {α β : Type} {P : α → Prop} {Q : β → Prop}

/-- A step that adds no goals and leaves the parameters of the declaration. -/
theorem of_silent {act : KindInfer α} (h : ∀ {c : Context} {k k' : Kinding} {s s' : State} {a : α},
    KindReturns act c k s a k' s' → s.Guarded c.external →
    SameScope s s' ∧ k' = k ∧ (∀ scope ∈ s'.existentials, ∀ e ∈ scope, ∃ v, e.2 = .free v) ∧ P a) :
    Guards G qs act P where
  step ha hs hwithin := by
    obtain ⟨hsame, rfl, hex, hP⟩ := h ha hs
    exact ⟨hs.of_sameScope hsame hex, hwithin.of_sameScope hsame, .refl _, [],
      (List.append_nil _).symm, fun _ _ => hP⟩

theorem pure {a : α} (h : P a) : Guards G qs (Pure.pure a : KindInfer α) P :=
  .of_silent fun ha hs => by
    obtain ⟨rfl, rfl, rfl⟩ := kindReturns_pure.mp ha
    exact ⟨⟨rfl, rfl, rfl⟩, rfl, hs.existentials, h⟩

/-- What follows may use what the first check returns only under the goals of both. -/
theorem bind {act : KindInfer α} {f : α → KindInfer β} (h : Guards G qs act P)
    (h' : ∀ a, Guards G qs (f a) fun b => P a → Q b) : Guards G qs (act >>= f) Q where
  step hb hs hwithin := by
    obtain ⟨a, k₁, s₁, ha, hb⟩ := kindReturns_bind.mp hb
    obtain ⟨hs₁, hwithin₁, hgrows₁, gs₁, hgs₁, hP⟩ := h.step ha hs hwithin
    obtain ⟨hs', hwithin', hgrows₂, gs₂, hgs₂, hQ⟩ := (h' a).step hb hs₁ hwithin₁
    refine ⟨hs', hwithin', fun id p hp hknown => hgrows₂ id p (hgrows₁ id p hp hknown) hknown,
      gs₁ ++ gs₂, by rw [hgs₂, hgs₁, List.append_assoc], fun hgs hk' => ?_⟩
    rw [List.forall_mem_append] at hgs
    exact hQ hgs.2 hk' (hP hgs.1 (hgrows₂.leadsTo hk'))

theorem weaken {act : KindInfer α} {P' : α → Prop} (h : Guards G qs act P) (hP : ∀ a, P a → P' a) :
    Guards G qs act P' where
  step ha hs hwithin := by
    obtain ⟨hs', hwithin', hgrows, gs, hgs, ha⟩ := h.step ha hs hwithin
    exact ⟨hs', hwithin', hgrows, gs, hgs, fun hG hk' => hP _ (ha hG hk')⟩

theorem located {r : Range} {act : KindInfer α} (h : Guards G qs act P) :
    Guards G qs (Kinding.located r act) P where
  step {c _ _ _ _ _} ha := h.step (c := { c with range := r.orElse c.range }) ha

theorem ite {p : Prop} [Decidable p] {act act' : KindInfer α} (h : Guards G qs act P)
    (h' : ¬p → Guards G qs act' P) : Guards G qs (if p then act else act') P := by
  split
  · exact h
  · exact h' ‹¬p›

theorem get : Guards G qs (MonadState.get : KindInfer Kinding) fun _ => True :=
  .of_silent fun ha hs => by
    cases ha
    exact ⟨⟨rfl, rfl, rfl⟩, rfl, hs.existentials, trivial⟩

/-- What follows may use that the open existential variables are variables. -/
theorem getState_bind {f : State → KindInfer α} (h : ∀ {s : State},
    (∀ scope ∈ s.existentials, ∀ e ∈ scope, ∃ v, e.2 = .free v) → Guards G qs (f s) P) :
    Guards G qs (getThe State >>= f) P where
  step ha hs := (h hs.existentials).step ha hs

theorem setExistentials {ex : List (List (String × Ty))}
    (hex : ∀ scope ∈ ex, ∀ e ∈ scope, ∃ v, e.2 = .free v) :
    Guards G qs (modifyThe State fun s => { s with existentials := ex } : KindInfer PUnit)
      fun _ => True :=
  .of_silent fun ha _ => by
    cases ha
    exact ⟨⟨rfl, rfl, rfl⟩, rfl, hex, trivial⟩

/-- A computation of the run that leaves the scopes and the existential variables. -/
theorem lift {act : Infer α} (hscope : Respects SameScope act)
    (hact : ∀ {c : Context} {s s' : State} {a : α}, Returns act c s a s' →
      s'.existentials = s.existentials ∧ P a) : Guards G qs (liftM act : KindInfer α) P :=
  .of_silent fun ha hs => by
    obtain ⟨rfl, hr⟩ := kindReturns_lift.mp ha
    obtain ⟨hex, hP⟩ := hact hr
    exact ⟨hscope.step hr, rfl, hex ▸ hs.existentials, hP⟩

end Guards

namespace Kinding

variable {G : Ty → Prop} {qs : FinalParams} {kd : Kind}

/-- The type is a size where the kind that was found says so, or the kind that it turns out to
have. -/
def Sizing (G : Ty → Prop) (qs : FinalParams) (hint : Kind) (r : Ty × Kind) : Prop :=
  hint.isKnown = true ∧ r.2.MaySize ∨ (settleTy qs.params r.1).kindOf.MaySize →
    r.1.SizedBy G (SizesAmong qs.params)

/-- The same for an argument that stands at a kind. -/
def SizingAt (G : Ty → Prop) (qs : FinalParams) (kd : Kind) (t : Ty) : Prop :=
  kd.GivesSize ∨ (settleTy qs.params t).kindOf.MaySize → t.SizedBy G (SizesAmong qs.params)

theorem guards_recordError (e : TypeError) :
    Guards G qs (liftM (recordError e) : KindInfer Unit) fun _ => True :=
  .lift (respects_recordError e) fun h => ⟨existentials_recordError h, trivial⟩

theorem guards_recordWarning (w : Warning) :
    Guards G qs (liftM (recordWarning w) : KindInfer Unit) fun _ => True :=
  .lift (respects_recordWarning w) fun h => ⟨existentials_recordWarning h, trivial⟩

theorem returns_freshType {src : TypeSource} {c : Context} {s s' : State} {t : Ty}
    (h : Returns (freshType kd src) c s t s') : ∃ v, t = .free v := by
  unfold freshType freshVar at h
  simp only [bind_assoc, returns_get_bind, returns_set_bind, pure_bind, returns_pure] at h
  exact ⟨_, h.1⟩

/-- What follows gets a variable, whatever the goals are. -/
theorem guards_freshType_bind {α : Type} {P : α → Prop} {src : TypeSource} {f : Ty → KindInfer α}
    (h : ∀ v, Guards G qs (f (.free v)) P) : Guards G qs (liftM (freshType kd src) >>= f) P where
  step hb hs hwithin := by
    obtain ⟨t, s₁, ht, hb⟩ := kindReturns_lift_bind.mp hb
    obtain ⟨v, rfl⟩ := returns_freshType ht
    have hsame := (respects_freshType (R := SameScope) kd src).step ht
    exact (h v).step hb (hs.of_sameScope hsame (existentials_freshType ht ▸ hs.existentials))
      (hwithin.of_sameScope hsame)

theorem guards_freshType (kd : Kind) (src : TypeSource) :
    Guards G qs (liftM (freshType kd src) : KindInfer Ty) fun t => ∃ v, t = .free v :=
  .lift (respects_freshType kd src) fun h => ⟨existentials_freshType h, returns_freshType h⟩

theorem guards_emit (src : GoalSource) (ps : List Ty) :
    Guards G qs (emit src ps) fun _ => ∀ p ∈ ps, p.isJunction = false → G p where
  step h hs hwithin := by
    unfold emit currentRange at h
    simp only [kindReturns_lift_bind, kindReturns_modify, returns_read_bind, returns_pure] at h
    obtain ⟨r, _, ⟨-, rfl⟩, rfl, rfl⟩ := h
    refine ⟨hs, hwithin, fun _ _ hp _ => hp, _, rfl,
      fun hG _ p hp hjunction => hG ⟨src, r, p⟩ (List.mem_map_of_mem ?_)⟩
    rw [Ty.conjunctsList_eq_flatMap]
    exact List.mem_flatMap.mpr
      ⟨p, hp, by rw [Ty.conjuncts_eq_self hjunction]; exact List.mem_singleton_self p⟩

theorem guards_placeholder (e : TypeError) (kd hint : Kind) :
    Guards G qs (do recordError e; placeholder kd) (Sizing G qs hint) :=
  (guards_recordError e).bind fun _ => guards_freshType_bind fun v => .pure fun _ _ => .free v

/-- At a kind of sizes a type either is a size or is replaced. -/
theorem guards_atKind (kd : Kind) (r : Ty × Kind) :
    Guards G qs (atKind kd r) fun t => Sizing G qs kd r → SizingAt G qs kd t := by
  refine .ite ?_ fun hmatch => .pure fun hr hkd => hr (hkd.imp_left fun hkd => ⟨hkd.1, ?_⟩)
  · exact (guards_recordError _).bind fun _ => (guards_freshType ..).weaken
      fun _ ⟨v, hv⟩ _ _ _ => hv ▸ .free v
  · cases hknown : r.2.isKnown with
    | false =>
      cases hkind : r.2 <;> simp_all [Kind.isKnown]
      exact .inr rfl
    | true =>
      simp only [hkd.1, hknown, Bool.true_and, bne_iff_ne, ne_eq, not_not] at hmatch
      exact hmatch ▸ hkd.2

theorem guards_existential (ident : String) (kd : Kind) :
    Guards G qs (existential ident kd) fun t => ∃ v, t = .free v := by
  refine .getState_bind fun {s} hopen => ?_
  split
  · exact (guards_recordError _).bind fun _ => (guards_freshType ..).weaken fun _ h _ => h
  · rename_i innermost outer hscopes
    rw [hscopes] at hopen
    obtain ⟨hinner, houter⟩ := List.forall_mem_cons.mp hopen
    -- with or without a warning, a fresh variable enters the innermost scope
    have hnew : Guards G qs (do
        let t ← freshType kd (.existential ident)
        modifyThe State fun s => { s with existentials := ((ident, t) :: innermost) :: outer }
        return t) fun t => ∃ v, t = .free v :=
      guards_freshType_bind fun v => (Guards.setExistentials <| List.forall_mem_cons.mpr
        ⟨List.forall_mem_cons.mpr ⟨⟨v, rfl⟩, hinner⟩, houter⟩).bind fun _ => .pure fun _ => ⟨v, rfl⟩
    split
    · rename_i t hfound
      obtain ⟨scope, hscope, hlookup⟩ := List.exists_of_findSome?_eq_some hfound
      obtain ⟨before, after, rfl, -⟩ := List.lookup_eq_some_iff.mp hlookup
      exact .pure (hopen _ hscope (ident, t) (by simp))
    · split
      · exact (guards_recordWarning _).bind fun _ => hnew.weaken fun _ h _ => h
      · exact hnew

/-! ## Names -/

/-- A synonym that a head stands for is guarded and mentions none of the parameters `qs`, and a
literal is a natural number within the words. -/
def Head.Guarded (qs : FinalParams) : Head → Prop
  | .builtin (.num n) => 0 ≤ n ∧ n ≤ Word.maxValue
  | .synonym ts => ts.Guarded ∧ ts.body.ParamsIn qs.others
  | _ => True

/-- A parameter whose kind was asked for is a size among `qs` if this kind says so. -/
def Referent.Guarded (qs : FinalParams) (hint : Kind) : Referent → Prop
  | .param p => hint.isKnown = true ∧ p.kind.MaySize → SizesAmong qs.params p
  | .head h => h.Guarded qs
  | .appliedParam => True

theorem sizesAmong_of_others {p : Param} (h : p.id ∈ qs.others) : SizesAmong qs.params p :=
  fun q hq hid => absurd hid (h q hq)

theorem guards_resolve (n : Name) (arity : Nat) (hint : Kind) :
    Guards G qs (resolve n arity hint) (Referent.Guarded qs hint) where
  step {c k k' s s' r} h hs hwithin := by
    cases hparams : k.params.find? n.id with
    | some p =>
      unfold resolve at h
      rw [kindReturns_get_bind, hparams] at h
      dsimp only at h
      split at h
      · obtain ⟨rfl, rfl, rfl⟩ := kindReturns_pure.mp h
        exact ⟨hs, hwithin, .refl _, [], (List.append_nil _).symm, fun _ _ => trivial⟩
      · obtain ⟨⟨⟩, k₁, s₁, hinsert, h⟩ := kindReturns_bind.mp h
        obtain ⟨rfl, rfl⟩ := kindReturns_modify.mp hinsert
        obtain ⟨rfl, rfl, rfl⟩ := kindReturns_pure.mp h
        refine ⟨hs, hwithin, fun id p' hp' hknown => ?_, [], (List.append_nil _).symm,
          fun _ hk' ⟨hhint, hsize⟩ q hq hid => ?_⟩
        · rw [Table.find?_insert]
          split
          · rename_i hid
            obtain rfl : p' = p := Option.some.inj (hp'.symm.trans (hid ▸ hparams))
            rw [Kind.orElse_of_isKnown hknown]
          · exact hp'
        · have hknown := Kind.isKnown_orElse (k := p.kind) hhint
          rw [hk' n.id _ (Table.find?_insert_self ..) hknown q hq hid]
          exact ⟨hknown, hsize⟩
    | none =>
      replace h : KindReturns (outerReferent c s n arity) c k s r k' s' :=
        (exec_resolve hparams).symm.trans h
      obtain rfl := kindReturns_outerReferent h
      suffices hr : s' = s ∧ r.Guarded qs hint by
        obtain ⟨rfl, hr⟩ := hr
        exact ⟨hs, hwithin, .refl _, [], (List.append_nil _).symm, fun _ _ => hr⟩
      unfold outerReferent at h
      split at h
      · rename_i p hp
        obtain ⟨rfl, -, rfl⟩ := kindReturns_pure.mp h
        refine ⟨rfl, fun _ => sizesAmong_of_others ?_⟩
        rw [Option.ite_none_right_eq_some, Option.or_eq_some_iff] at hp
        obtain ⟨-, hp | ⟨-, hp⟩⟩ := hp
        · exact hwithin.typeVars _ _ hp
        · obtain ⟨mp, hmp, rfl⟩ := Option.map_eq_some_iff.mp hp
          exact hwithin.moduleParams _ _ hmp
      · split at h
        · rename_i ts hts
          obtain ⟨rfl, -, rfl⟩ := kindReturns_pure.mp h
          exact ⟨rfl, hs.synonyms _ _ hts, hwithin.synonyms _ _ hts⟩
        · split at h
          · obtain ⟨rfl, -, rfl⟩ := kindReturns_pure.mp h
            exact ⟨rfl, trivial⟩
          · split at h
            · obtain ⟨rfl, -, rfl⟩ := kindReturns_pure.mp h
              exact ⟨rfl, trivial⟩
            · exact absurd h not_kindReturns_throw

/-! ## Applications -/

/-- What the check of arguments has to return: as many arguments as the kind takes, with sizes where
it takes sizes. -/
structure ArgsFor (G : Ty → Prop) (qs : FinalParams) (kd : Kind) (n : Nat) (r : List Ty × Kind) :
    Prop where
  exists_kinds : ∃ ks, kd = Kind.arrows ks r.2 ∧ List.Forall₂ (SizingAt G qs) ks r.1
  isArrow : kd.arity = n → r.2.isArrow = false

/-- A function on sizes takes sizes. -/
theorem ArgsFor.op {f : SizeOp} {n : Nat} {r : List Ty × Kind} (h : ArgsFor G qs f.kind n r)
    (hn : f.kind.arity = n) :
    r.1.length = f.kind.arity ∧ ∀ a ∈ r.1, a.SizedBy G (SizesAmong qs.params) := by
  obtain ⟨ks, hkind, hargs⟩ := h.exists_kinds
  have hks : ks = List.replicate f.kind.arity .num :=
    Kind.arrows_inj_args (hkind.symm.trans f.kind_eq) (h.isArrow hn) rfl
  subst hks
  refine ⟨hargs.length_eq.symm.trans (List.length_replicate ..), fun a ha => ?_⟩
  obtain ⟨i, hi, rfl⟩ := List.getElem_of_mem ha
  have hi' := hi.trans_eq hargs.length_eq.symm
  have hnum : (List.replicate f.kind.arity Kind.num).get ⟨i, hi'⟩ = .num :=
    List.eq_of_mem_replicate (List.get_mem ..)
  refine hargs.get hi' hi (.inl ?_)
  rw [hnum]
  exact ⟨rfl, .inl rfl⟩

/-- A constructor of sizes with its arguments. -/
theorem sizing_builtin {con : Con} (hcon : Head.Guarded qs (.builtin con)) {n : Nat} {hint : Kind}
    {r : List Ty × Kind} (h : ArgsFor G qs con.kind n r) (hn : con.kind.arity = n)
    (hconditions : ∀ p ∈ (Head.conditions (.builtin con) r.1).2, p.isJunction = false → G p) :
    Sizing G qs hint (.con con r.1, r.2) := by
  intro hsize
  obtain ⟨ks, hkind, hargs⟩ := h.exists_kinds
  have hres : con.kind.afterArgs r.1.length = r.2 := by
    rw [hkind, ← hargs.length_eq, Kind.afterArgs_arrows]
  have hmay : con.kind.MaySize := by
    rw [hkind, Kind.maySize_arrows]
    rw [settleTy, Ty.bind, Ty.kindOf, Ty.bindList_eq_map, List.length_map, hres] at hsize
    exact hsize.elim And.right id
  obtain ⟨i, rfl⟩ | rfl | ⟨f, rfl⟩ | ⟨m, k, rfl, hk⟩ := Con.of_maySize hmay
  · exact .num hcon
  · exact .inf
  · obtain ⟨hlen, hargs⟩ := ArgsFor.op h hn
    exact .op hlen hargs fun p hp => hconditions p hp (Ty.isJunction_sideConditions p hp)
  · exact .abstract hk

/-- The argument for a parameter of a synonym stands at the kind of this parameter. -/
theorem sizingAt_of_find? {ps : List Param} {rest : List Kind} {args : List Ty}
    (h : List.Forall₂ (SizingAt G qs) (ps.map Param.kind ++ rest) args) {id : Int} {a : Ty}
    (ha : (Schema.assignment ps args).find? id = some a) :
    ∃ q ∈ ps, q.id = id ∧ SizingAt G qs q.kind a := by
  obtain ⟨e, he, heq⟩ := List.mem_map.mp (Table.mem_ofList (Table.mem_of_find? ha))
  obtain ⟨q, b⟩ := e
  obtain ⟨hid, rfl⟩ := Prod.mk.inj heq
  obtain ⟨i, hi, hget⟩ := List.getElem_of_mem he
  rw [List.getElem_zip, Prod.mk.injEq] at hget
  obtain ⟨rfl, rfl⟩ := hget
  rw [List.length_zip, lt_inf_iff] at hi
  refine ⟨_, List.getElem_mem hi.1, hid, ?_⟩
  have hat := h.get (hi.2.trans_eq h.length_eq.symm) hi.2
  rwa [List.get_eq_getElem, List.getElem_append_left (by simpa using hi.1), List.getElem_map] at hat

/-- What turns out to be a size after parameters have been replaced was a size before, or is one that
has been put in place of a parameter. -/
theorem maySize_of_settleTy {t : Ty} {m : Table Int Ty} (ht : t.ParamsIn qs.others)
    (hm : ∀ id a, m.find? id = some a → (settleTy qs.params a).kindOf.MaySize →
      a.SizedBy G (SizesAmong qs.params))
    (h : (settleTy qs.params (t.instantiate m)).kindOf.MaySize) :
    t.kindOf.MaySize ∨ (t.instantiate m).SizedBy G (SizesAmong qs.params) := by
  have hexpand : (t.instantiate m).expand = (t.expand.instantiate m).expand := Ty.expand_bind ..
  rw [settleTy, ← Ty.kindOf_expand_bind, hexpand, Ty.kindOf_expand_bind] at h
  rw [← Ty.kindOf_expand]
  cases hhead : t.expand with
  | free v =>
    rw [hhead] at hexpand
    exact .inr (.of_expand (hexpand ▸ .free v))
  | bound p =>
    have hreplaced : (Ty.bound p).instantiate m = (m.find? p.id).getD (.bound p) := rfl
    rw [hhead, hreplaced] at h hexpand
    refine .inr (.of_expand (hexpand ▸ .expand ?_))
    cases hfind : m.find? p.id with
    | none => exact .bound (sizesAmong_of_others (Ty.paramsIn_bound.mp (hhead ▸ ht.expand)))
    | some a =>
      rw [hfind] at h
      exact hm _ a hfind h
  | con c args =>
    rw [hhead, Ty.instantiate, Ty.bind, Ty.bind, Ty.kindOf, Ty.bindList_eq_map, Ty.bindList_eq_map,
      List.length_map, List.length_map] at h
    exact .inl h
  | record fs =>
    rw [hhead] at h
    exact .inl h
  | synonym n args body => exact absurd hhead Ty.expand_ne_synonym
  | newtype n ps fs args =>
    rw [hhead] at h
    exact .inl h

/-- A use of a guarded synonym has the conditions of the size that it stands for. -/
theorem sizing_synonym {ts : TypeSynonym} (hts : ts.Guarded)
    (hapart : ts.body.ParamsIn qs.others) {n : Nat} {hint : Kind} {r : List Ty × Kind}
    (h : ArgsFor G qs ts.kind n r) (hn : ts.kind.arity = n)
    (hconditions : ∀ p ∈ ts.props.map (Ty.instantiate (Schema.assignment ts.params r.1)),
      p.isJunction = false → G p) :
    Sizing G qs hint (Head.build (.synonym ts) r.1, r.2) := by
  obtain ⟨ks, hkind, hargs⟩ := h.exists_kinds
  obtain ⟨rest, rfl, hbody⟩ := Kind.exists_append_of_arrows hkind (h.isArrow hn)
  -- the body is a size, and so is what is put in place of its parameters
  have hsized (hmay : ts.body.kindOf.MaySize) :
      (ts.body.instantiate (Schema.assignment ts.params r.1)).SizedBy G (SizesAmong qs.params) := by
    refine ((hts hmay).within hapart).bind (fun p _ hp hjunction => ?_) .free fun p hp => ?_
    · exact hconditions _ (List.mem_map_of_mem hp) hjunction
    · cases hfind : (Schema.assignment ts.params r.1).find? p.id with
      | none => exact .bound (sizesAmong_of_others hp.2)
      | some a =>
        obtain ⟨q, hq, hid, ha⟩ := sizingAt_of_find? hargs hfind
        exact ha (.inl (hp.1 q hq hid))
  rintro (⟨-, hsize⟩ | hsize)
  · exact .synonym (hsized (by rwa [hbody, Kind.maySize_arrows]))
  · refine .synonym ((maySize_of_settleTy hapart (fun id a ha hmay => ?_) hsize).elim hsized id)
    obtain ⟨q, -, -, hat⟩ := sizingAt_of_find? hargs ha
    exact hat (.inr hmay)

/-- A declared type with its arguments. -/
theorem sizing_head {h : Head} (hh : h.Guarded qs) {n : Nat} {hint : Kind} {r : List Ty × Kind}
    (hargs : ArgsFor G qs h.kind n r) (hn : h.kind.arity = n)
    (hconditions : ∀ p ∈ (h.conditions r.1).2, p.isJunction = false → G p) :
    Sizing G qs hint (h.build r.1, r.2) := by
  cases h with
  | builtin c => exact sizing_builtin hh hargs hn hconditions
  | synonym ts => exact sizing_synonym hh.1 hh.2 hargs hn hconditions
  | newtype nt =>
    rintro (⟨-, hsize⟩ | hsize)
    · obtain ⟨ks, hkind, -⟩ := hargs.exists_kinds
      have hmay : (Head.newtype nt).kind.MaySize := by
        rw [hkind, Kind.maySize_arrows]
        exact hsize
      rw [Head.kind, Newtype.kind, Kind.maySize_arrows] at hmay
      rcases hmay with h | h <;> cases h
    · rcases hsize with h | h <;> cases h
  | primitive pt =>
    have hcon : Head.Guarded qs (.builtin (.abstract pt.name pt.kind)) := trivial
    exact sizing_builtin hcon hargs hn (List.forall_mem_nil _)

/-! ## Written types -/

/-- The literals are natural numbers within the words. -/
def NaturalLiterals (ns : List Int) : Prop := ∀ n ∈ ns, 0 ≤ n ∧ n ≤ Word.maxValue

theorem NaturalLiterals.builtin {con : Con} {args : List TypeExpr}
    (h : NaturalLiterals (TypeExpr.builtin con args).literals) :
    Head.Guarded qs (.builtin con) ∧ NaturalLiterals (literalsOfList args) := by
  cases con with
  | num n => exact List.forall_mem_cons.mp h
  | _ => exact ⟨trivial, h⟩

/-- A type of values is no size. -/
theorem sizing_value {hint : Kind} {t : Ty} (h : (settleTy qs.params t).kindOf = .type) :
    Sizing G qs hint (t, .type) := by
  rintro (⟨-, hsize⟩ | hsize)
  · rcases hsize with h | h <;> cases h
  · rw [h] at hsize
    rcases hsize with h | h <;> cases h

/-- A parameter that turns out to be a size. -/
theorem sizesAmong_of_settleTy {p : Param}
    (h : (settleTy qs.params (.bound p)).kindOf.MaySize) : SizesAmong qs.params p := by
  intro q hq hid
  obtain ⟨q', hfind⟩ : ∃ q', qs.params.find? (fun q => q.id == p.id) = some q' :=
    Option.isSome_iff_exists.mp (List.find?_isSome.mpr ⟨q, hq, by simpa using hid⟩)
  have hid' : q'.id = p.id := by simpa using List.find?_some hfind
  rw [settleTy, Ty.bind, Ty.kindOf, hfind] at h
  have hkind := qs.kind_eq q hq q' (List.mem_of_find?_eq_some hfind) (hid.trans hid'.symm)
  exact ⟨qs.isKnown q hq, hkind ▸ h⟩

mutual
theorem guards_infer : ∀ (t : TypeExpr) (hint : Kind), NaturalLiterals t.literals →
    Guards G qs (infer t hint) (Sizing G qs hint)
  | .located r t, hint, ht => by
    rw [infer]
    exact .located (guards_infer t hint ht)
  | .bit, _, _ => by
    rw [infer]
    exact .pure (sizing_value rfl)
  | .num n, _, ht | .char n, _, ht => by
    rw [infer]
    exact .pure fun _ => .num (ht n (List.mem_singleton_self n))
  | .seq len elem, _, ht => by
    rw [TypeExpr.literals, NaturalLiterals, List.forall_mem_append] at ht
    rw [infer]
    exact (guards_infer len _ ht.1).bind fun _ => (guards_atKind ..).bind fun _ =>
      (guards_infer elem _ ht.2).bind fun _ => (guards_atKind ..).bind fun _ =>
      .pure fun _ _ _ _ => sizing_value rfl
  | .arrow a b, _, ht => by
    rw [TypeExpr.literals, NaturalLiterals, List.forall_mem_append] at ht
    rw [infer]
    exact (guards_infer a _ ht.1).bind fun _ => (guards_atKind ..).bind fun _ =>
      (guards_infer b _ ht.2).bind fun _ => (guards_atKind ..).bind fun _ =>
      .pure fun _ _ _ _ => sizing_value rfl
  | .tuple ts, _, ht => by
    rw [infer]
    refine (guards_checkEach ts ht).bind fun us => .pure fun _ => sizing_value ?_
    rw [settleTy, Ty.tuple, Ty.bind, Ty.kindOf, Ty.bindList_eq_map, List.length_map, Con.kind]
    exact (congrArg _ (List.length_replicate ..).symm).trans (Kind.afterArgs_arrows ..)
  | .record fs, _, ht => by
    rw [infer]
    exact (guards_checkFields fs ht).bind fun _ => .pure fun _ => sizing_value rfl
  | .wildcard, hint, _ => by
    rw [infer]
    have hfresh : Guards G qs (do
        return (← freshType (hint.orElse .type) .wildcard, hint.orElse .type) :
          KindInfer (Ty × Kind)) (Sizing G qs hint) :=
      guards_freshType_bind fun v => .pure fun _ => .free v
    refine Guards.get.bind fun _ => .ite ?_ fun _ => hfresh.weaken fun _ h _ => h
    exact (guards_recordError _).bind fun _ => hfresh.weaken fun _ h _ _ => h
  | .existential ident, hint, _ => by
    rw [infer]
    refine (guards_existential ident _).bind fun t => .pure ?_
    rintro ⟨v, rfl⟩ -
    exact .free v
  | .builtin con args, hint, ht => by
    rw [infer]
    obtain ⟨hcon, ht⟩ := NaturalLiterals.builtin ht
    refine .ite (guards_placeholder ..) fun harity => ?_
    exact (guards_checkArgs args con.kind ht).bind fun r => (guards_emit ..).bind fun _ =>
      .pure fun hconditions hargs => sizing_builtin hcon hargs (not_not.mp harity) hconditions
  | .named n args, hint, ht => by
    rw [infer]
    refine (guards_resolve n _ hint).bind fun r => ?_
    split
    · exact .pure fun hp hsize => .bound (hsize.elim hp sizesAmong_of_settleTy)
    · exact (guards_placeholder ..).weaken fun _ h _ => h
    · refine .ite ((guards_placeholder ..).weaken fun _ h _ => h) fun harity => ?_
      exact (guards_checkArgs args _ ht).bind fun r => (guards_emit ..).bind fun _ =>
        .pure fun hconditions hargs hhead => sizing_head hhead hargs (not_not.mp harity) hconditions

theorem guards_checkEach : ∀ ts : List TypeExpr, NaturalLiterals (literalsOfList ts) →
    Guards G qs (Kinding.checkEach ts) fun _ => True
  | [], _ => by
    rw [Kinding.checkEach]
    exact .pure trivial
  | t :: ts, ht => by
    rw [literalsOfList, NaturalLiterals, List.forall_mem_append] at ht
    rw [Kinding.checkEach]
    exact (guards_infer t _ ht.1).bind fun _ => (guards_atKind ..).bind fun _ =>
      (guards_checkEach ts ht.2).bind fun _ => .pure fun _ _ _ => trivial

theorem guards_checkFields : ∀ fs : List (String × TypeExpr), NaturalLiterals (literalsOfFields fs) →
    Guards G qs (checkFields fs) fun _ => True
  | [], _ => by
    rw [checkFields]
    exact .pure trivial
  | (l, t) :: fs, ht => by
    rw [literalsOfFields, NaturalLiterals, List.forall_mem_append] at ht
    rw [checkFields]
    exact (guards_infer t _ ht.1).bind fun _ => (guards_atKind ..).bind fun _ =>
      (guards_checkFields fs ht.2).bind fun _ => .pure fun _ _ _ => trivial

theorem guards_checkArgs : ∀ (ts : List TypeExpr) (kd : Kind), NaturalLiterals (literalsOfList ts) →
    Guards G qs (checkArgs kd ts) (ArgsFor G qs kd ts.length)
  | [], kd, _ => by
    rw [checkArgs]
    exact .pure ⟨⟨[], rfl, .nil⟩, Kind.isArrow_of_arity⟩
  | t :: ts, .arrow dom cod, ht => by
    rw [literalsOfList, NaturalLiterals, List.forall_mem_append] at ht
    rw [checkArgs]
    refine (guards_infer t dom ht.1).bind fun _ => (guards_atKind ..).bind fun u =>
      (guards_checkArgs ts cod ht.2).bind fun r => .pure ?_
    rintro ⟨⟨ks, hkind, hargs⟩, harrow⟩ hu hsizing
    refine ⟨⟨dom :: ks, ?_, .cons (hu hsizing) hargs⟩, fun harity => harrow (Nat.succ.inj harity)⟩
    rw [hkind]
    rfl
  | _ :: _, .type, _ | _ :: _, .num, _ | _ :: _, .prop, _ | _ :: _, .unknown, _ => by
    rw [checkArgs]
    · exact .pure ⟨⟨[], rfl, .nil⟩, fun _ => rfl⟩
    · simp
end

theorem guards_check {t : TypeExpr} (kd : Kind) (ht : NaturalLiterals t.literals) :
    Guards G qs (check t kd) (SizingAt G qs kd) :=
  (guards_infer t kd ht).bind fun r => guards_atKind kd r

/-! ## Sizes -/

/-- No parameters. -/
def noParams : FinalParams := ⟨[], List.forall_mem_nil _, List.forall_mem_nil _⟩

theorem within_noParams (s : State) (E : External) : s.Within noParams.others E where
  typeVars _ _ _ := List.forall_mem_nil _
  moduleParams _ _ _ := List.forall_mem_nil _
  synonyms _ ts _ := ts.body.paramsIn_univ.mono fun _ _ => List.forall_mem_nil _

/-- The side conditions of a function on sizes are met exactly where it is defined, except that those
of the divisions let infinite divisors through. So a written type that is checked at the kind of sizes
evaluates at known values where none of the emitted goals is refuted, unless a division is by infinity
or what is computed leaves the words. -/
theorem check_evaluates (f : SizeOp) :
    (∀ (ts : List Ty) (ms : List Size) (xs : List ℕ∞), Ty.evalList ts = some ms →
      List.Forall₂ Size.Denotes ms xs → ts.length = f.kind.arity → f.WithinWords ms →
      ((∀ p ∈ sideConditions f ts, p.Decided true) ∧ ¬ f.DividesByInf ms ↔ (f.eval ms).isSome)) ∧
    ∀ {c : Context} {k k' : Kinding} {s s' : State} {t : TypeExpr} {u : Ty},
      KindReturns (check t .num) c k s u k' s' → s.Guarded c.external → NaturalLiterals t.literals →
      s'.Guarded c.external ∧ ∃ gs, k'.goals = k.goals ++ gs ∧ ∀ σ : Ty.Closing,
        (∀ g ∈ gs, ¬ (g.prop.close σ).Decided false) → (u.close σ).WithinWords →
        (u.close σ).NeverDividesByInf → (u.close σ).eval.isSome := by
  refine ⟨fun ts ms xs hts hxs => SizeOp.sideConditions_iff hts hxs,
    fun {c k k' s s' t u} h hs ht => ?_⟩
  have hguards (G : Ty → Prop) : Guards G noParams (check t .num) (SizingAt G noParams .num) :=
    guards_check .num ht
  have hwithin := within_noParams s c.external
  obtain ⟨hs', -, -, gs, hgs, -⟩ := (hguards fun _ => True).step h hs hwithin
  refine ⟨hs', gs, hgs, fun σ hG hw hdiv => ?_⟩
  obtain ⟨-, -, -, gs', hgs', hsized⟩ :=
    (hguards fun p => ¬ (p.close σ).Decided false).step h hs hwithin
  obtain rfl : gs = gs' := List.append_cancel_left (hgs.symm.trans hgs')
  have hsize := hsized hG (fun _ _ _ _ => List.forall_mem_nil _) (.inl ⟨rfl, .inl rfl⟩)
  obtain ⟨x, -, hx, -⟩ := hsize.exists_eval hw hdiv
  exact Option.isSome_of_eq_some hx

/-! ## Predecessors and quotients -/

/-- The predecessor of a size. -/
def predSynonym : TypeSynonym where
  name := { id := 6, ident := "Pred" }
  params := [{ id := 9, kind := .num }]
  props := [.geq (.bound { id := 9, kind := .num }) (.num 1), .fin (.num 1)]
  body := .op .sub [.bound { id := 9, kind := .num }, .num 1]

/-- A module that declares the synonym for predecessors. -/
def predState : State :=
  { (default : State) with
    scopes := [⟨.top, { Core.Module.empty { id := 0, ident := "Main" } with
      synonyms := [(6, predSynonym)] }⟩] }

theorem guarded_predSynonym : predSynonym.Guarded := by
  intro _
  refine .op rfl ?_ ?_
  · refine List.forall_mem_cons.mpr ⟨.bound ?_, List.forall_mem_singleton.mpr (.num (by decide))⟩
    exact List.forall_mem_singleton.mpr fun _ => ⟨rfl, .inl rfl⟩
  · exact fun p hp => hp

theorem guarded_predState : predState.Guarded {} where
  synonyms id ts h := by
    rcases Scope.mem_of_lookup h with hmem | ⟨sc, hsc, hmem⟩
    · cases hmem
    · obtain rfl := List.mem_singleton.mp hsc
      obtain rfl := (Prod.mk.inj (List.mem_singleton.mp hmem)).2
      exact guarded_predSynonym
  existentials := List.forall_mem_nil _

/-- Seven for all that is open. -/
def sevens : Ty.Closing where
  var _ := .finite 7
  param _ := .finite 7
  primitive _ _ := .finite 7
  natural_var _ := ⟨(7 : ℕ), .finite 7 (by decide)⟩
  natural_param _ := ⟨(7 : ℕ), .finite 7 (by decide)⟩
  natural_primitive _ _ := ⟨(7 : ℕ), .finite 7 (by decide)⟩

/-- The predecessor of a parameter. -/
def predOfParam : TypeExpr :=
  .named { id := 6, ident := "Pred" } [.named { id := 1, ident := "n" } []]

/-- The predecessor of seven has a value, as seven meets the condition that the synonym emits. -/
theorem check_evaluates_pred : ∃ u k' s',
    KindReturns (check predOfParam .num) kindingContext openParams predState u k' s' ∧
    (u.close sevens).eval.isSome := by
  obtain ⟨u, k', s', h, hu, hgoals⟩ : ∃ u k' s',
      KindReturns (check predOfParam .num) kindingContext openParams predState u k' s' ∧
      u.close sevens = .synonym predSynonym.name [.num 7] (.op .sub [.num 7, .num 1]) ∧
      k'.goals.map (fun g => g.prop.close sevens) = [.geq (.num 7) (.num 1), .fin (.num 1)] :=
    ⟨_, _, _, rfl, rfl, rfl⟩
  obtain ⟨-, gs, rfl, heval⟩ := (check_evaluates .sub).2 h guarded_predState (List.forall_mem_nil _)
  have hG : ∀ g ∈ k'.goals, (g.prop.close sevens).Decided true := by
    intro g hg
    have hmem : g.prop.close sevens ∈ [Ty.geq (.num 7) (.num 1), .fin (.num 1)] :=
      hgoals ▸ List.mem_map_of_mem hg
    rcases List.mem_pair.mp hmem with hp | hp <;> rw [hp]
    · exact Ty.decided_compare .geq (a := .num 7) (b := .num 1) rfl rfl
    · exact Ty.decided_fin (a := .num 1) (m := .finite 1) rfl
  have hparts : ∀ con args, (Ty.con con args).PartOf (u.close sevens) →
      con = .op .sub ∨ ∃ n, con = .num n := by
    intro con args hpart
    rw [hu] at hpart
    rcases hpart with _ | _ | ⟨_ | ⟨ha, hpart⟩⟩
    · exact .inl rfl
    · refine .inr ?_
      rcases List.mem_pair.mp ha with rfl | rfl
      all_goals
        rcases hpart with _ | ⟨ha, -⟩
        · exact ⟨_, rfl⟩
        · cases ha
  refine ⟨u, k', s', h, heval sevens (fun g hg hfalse => ?_) ?_ fun f args ms hpart _ => ?_⟩
  · cases hfalse.unique (hG g hg)
  · rw [hu]
    refine ⟨⟨trivial, trivial, trivial⟩, fun ms hms => ?_⟩
    cases hms
    trivial
  · obtain h | ⟨m, h⟩ := hparts _ _ hpart <;> cases h
    exact id

/-- Five divided by infinity has no value, though all of its side conditions are met. -/
theorem check_divides_by_inf : ∃ u k' s',
    KindReturns (check (.builtin (.op .div) [.num 5, .builtin .inf []]) .num) kindingContext
      openParams (default : State) u k' s' ∧
    (∀ g ∈ k'.goals, g.prop.Decided true) ∧ u = .op .div [.num 5, .inf] ∧ u.eval = none := by
  refine ⟨_, _, _, rfl, ?_, rfl, rfl⟩
  refine List.forall_mem_cons.mpr ⟨?_, List.forall_mem_singleton.mpr ?_⟩
  · exact Ty.decided_fin (a := .num 5) (m := .finite 5) rfl
  · exact Ty.decided_compare .geq (a := .inf) (b := .num 1) rfl rfl

end Kinding
end Infer
end SizedTypes
