import SizedTypes.Proofs.Infer.Completion

/-!
# Checks of written types come to an end

A written type in scope is checked without failing. A part of the wrong kind is reported, and a
fresh variable stands for it.
-/

set_option autoImplicit false

namespace SizedTypes

namespace Surface

mutual
/-- How many variables checking a written type draws at most: one for the type itself, and one in
place of each part that has the wrong kind. -/
def TypeExpr.varsDrawn : TypeExpr → Nat
  | .bit | .num _ | .char _ => 0
  | .wildcard | .existential _ => 1
  | .arrow a b | .seq a b => a.varsDrawn + 1 + (b.varsDrawn + 1)
  | .tuple ts => varsDrawnEach ts
  | .record fs => varsDrawnFields fs
  | .builtin _ args | .named _ args => varsDrawnEach args + 1
  | .located _ t => t.varsDrawn

def varsDrawnEach : List TypeExpr → Nat
  | [] => 0
  | t :: ts => t.varsDrawn + 1 + varsDrawnEach ts

def varsDrawnFields : List (String × TypeExpr) → Nat
  | [] => 0
  | (_, t) :: fs => t.varsDrawn + 1 + varsDrawnFields fs
end

end Surface

namespace Infer

open Surface (TypeExpr Visible typeFieldsInScope typesInScope varsDrawnEach varsDrawnFields)
open Subst (DeclaredIn)

variable {scopes : Int → List Int} {v : Visible} {c : Context} {s s' : State}

/-- What `Completes` says, of a check of written types. -/
structure KindCompletes (scopes : Int → List Int) (v : Visible) (n : Nat) {α : Type}
    (act : KindInfer α) (P : α → Prop) : Prop where
  run : ∀ k : Kinding, Completes scopes v n (act.run k) fun r => P r.1

namespace KindCompletes

variable {α β : Type} {n l : Nat} {P : α → Prop} {Q : β → Prop} {act : KindInfer α}

theorem pure {a : α} (h : P a) : KindCompletes scopes v 0 (Pure.pure a) P where
  run _ := .pure h

theorem bind {f : α → KindInfer β} (h : KindCompletes scopes v n act P)
    (h' : ∀ a, P a → KindCompletes scopes v l (f a) Q) :
    KindCompletes scopes v (n + l) (act >>= f) Q where
  run k := (h.run k).bind fun r hr => (h' r.1 hr).run r.2

theorem mono (h : KindCompletes scopes v n act P) (hle : n ≤ l) :
    KindCompletes scopes v l act P where
  run k := (h.run k).mono hle

theorem lift {act : Infer α} (h : Completes scopes v n act P) :
    KindCompletes scopes v n (liftM act : KindInfer α) P where
  run k := .mono (h.bind (l := 0) fun a ha => .pure (a := (a, k)) ha) le_rfl

theorem located {r : Range} (h : KindCompletes scopes v n act P) :
    KindCompletes scopes v n (Kinding.located r act) P where
  run k := (h.run k).withRange

theorem get_bind {f : Kinding → KindInfer α} (h : ∀ k, KindCompletes scopes v n (f k) P) :
    KindCompletes scopes v n (get >>= f) P where
  run k := (h k).run k

/-- What follows may use that the open existential variables are declared. -/
theorem getState_bind {f : State → KindInfer α} (h : ∀ {s : State},
    (∀ scope ∈ s.existentials, ∀ e ∈ scope, e.2.VarsIn (DeclaredIn scopes)) →
    KindCompletes scopes v n (f s) P) : KindCompletes scopes v n (getThe State >>= f) P where
  run k := ⟨fun hs => ((h hs.existentials).run k).step hs⟩

theorem setExistentials {ex : List (List (String × Ty))}
    (hex : ∀ scope ∈ ex, ∀ e ∈ scope, e.2.VarsIn (DeclaredIn scopes)) :
    KindCompletes scopes v 0
      (modifyThe State fun s => { s with existentials := ex } : KindInfer PUnit) fun _ => True where
  run k := ⟨fun {m _ s} hs => ⟨(⟨⟩, k), { s with existentials := ex }, rfl,
    { hs.anti (Nat.le_add_left m 0) with existentials := hex }, rfl, trivial⟩⟩

theorem modify (f : Kinding → Kinding) :
    KindCompletes scopes v 0 (modify f : KindInfer PUnit) fun _ => True where
  run _ := .pure trivial

end KindCompletes

namespace Kinding

theorem completes_emit (src : GoalSource) (ps : List Ty) :
    KindCompletes scopes v 0 (emit src ps) fun _ => True :=
  (KindCompletes.lift completes_currentRange).bind fun _ _ => .modify _

theorem completes_placeholder (e : TypeError) (kd : Kind) :
    KindCompletes scopes v 1 (do recordError e; placeholder kd) fun r =>
      r.1.VarsIn (DeclaredIn scopes) :=
  .mono ((KindCompletes.lift (completes_recordError e)).bind fun _ _ =>
    (KindCompletes.lift (completes_freshType ..)).bind fun _ ht => .pure ht) le_rfl

theorem completes_atKind (kd : Kind) {r : Ty × Kind} (hr : r.1.VarsIn (DeclaredIn scopes)) :
    KindCompletes scopes v 1 (atKind kd r) (Ty.VarsIn (DeclaredIn scopes)) := by
  unfold atKind
  split
  · exact (KindCompletes.lift (completes_recordError _)).bind fun _ _ =>
      .lift (completes_freshType ..)
  · exact .mono (.pure hr) (Nat.zero_le 1)

end Kinding

/-- A part of a type is put at the kind that its place has, and the rest goes on with it. -/
theorem KindCompletes.atKind {α : Type} {n l : Nat} {act : KindInfer (Ty × Kind)} {kd : Kind}
    {f : Ty → KindInfer α} {Q : α → Prop}
    (h : KindCompletes scopes v n act fun r => r.1.VarsIn (DeclaredIn scopes))
    (h' : ∀ t : Ty, t.VarsIn (DeclaredIn scopes) → KindCompletes scopes v l (f t) Q) :
    KindCompletes scopes v (n + 1 + l) (act >>= fun r => Kinding.atKind kd r >>= f) Q :=
  .mono (h.bind fun _ hr => (Kinding.completes_atKind kd hr).bind h') (Nat.add_assoc ..).ge

namespace Kinding

theorem completes_existential (ident : String) (kd : Kind) :
    KindCompletes scopes v 1 (existential ident kd) (Ty.VarsIn (DeclaredIn scopes)) := by
  refine .getState_bind fun {s} hopen => ?_
  split
  · exact (KindCompletes.lift (completes_recordError _)).bind fun _ _ =>
      .lift (completes_freshType ..)
  · rename_i innermost outer hscopes
    rw [hscopes] at hopen
    obtain ⟨hinner, houter⟩ := List.forall_mem_cons.mp hopen
    -- with or without a warning, a fresh variable enters the innermost scope
    have hnew : KindCompletes scopes v 1 (do
        let t ← freshType kd (.existential ident)
        modifyThe State fun s => { s with existentials := ((ident, t) :: innermost) :: outer }
        return t) (Ty.VarsIn (DeclaredIn scopes)) :=
      (KindCompletes.lift (completes_freshType ..)).bind fun t ht =>
        (KindCompletes.setExistentials <| List.forall_mem_cons.mpr
          ⟨List.forall_mem_cons.mpr ⟨ht, hinner⟩, houter⟩).bind fun _ _ => .pure ht
    split
    · rename_i t hfound
      obtain ⟨scope, hscope, hlookup⟩ := List.exists_of_findSome?_eq_some hfound
      obtain ⟨before, after, rfl, -⟩ := List.lookup_eq_some_iff.mp hlookup
      exact .mono (.pure (hopen _ hscope (ident, t) (by simp))) (Nat.zero_le 1)
    · split
      · exact (KindCompletes.lift (completes_recordWarning _)).bind fun _ _ => hnew
      · exact hnew

/-- What a head expands to has declared variables. -/
def Referent.VarsIn (Q : TyVar → Prop) : Referent → Prop
  | .head (.synonym ts) => ts.body.VarsIn Q
  | _ => True

/-- A name that is found refers to something. -/
theorem returns_outerReferent {n : Name} {arity : Nat} {m : Nat} (hs : Prepared scopes v m c s)
    (h : (arity = 0 ∧ v.param n.id = true) ∨ v.type n.id = true) (k : Kinding) :
    ∃ r : Referent, KindReturns (outerReferent c s n arity) c k s r k s ∧
      r.VarsIn (DeclaredIn scopes) := by
  have hfound := h.imp (And.imp_right (hs.params n.id)) (hs.types n.id)
  have hbound : ∀ e, ¬KindFails (outerReferent c s n arity) c k s e := fun e =>
    kindFails_outerReferent hfound
  unfold outerReferent at hbound ⊢
  split
  · exact ⟨_, kindReturns_pure.mpr ⟨rfl, rfl, rfl⟩, trivial⟩
  · split
    · rename_i ts hts
      exact ⟨_, kindReturns_pure.mpr ⟨rfl, rfl, rfl⟩, hs.synonyms _ ts hts⟩
    · split
      · exact ⟨_, kindReturns_pure.mpr ⟨rfl, rfl, rfl⟩, trivial⟩
      · split
        · exact ⟨_, kindReturns_pure.mpr ⟨rfl, rfl, rfl⟩, trivial⟩
        · rename_i hparam _ hsynonym _ hnewtype _ hprimType
          simp only [hparam, hsynonym, hnewtype, hprimType] at hbound
          exact absurd rfl (hbound (.unboundType n))

theorem completes_resolve {n : Name} {arity : Nat} (kd : Kind)
    (h : (arity = 0 ∧ v.param n.id = true) ∨ v.type n.id = true) :
    KindCompletes scopes v 0 (resolve n arity kd) (Referent.VarsIn (DeclaredIn scopes)) where
  run k := ⟨fun {m c s} hs => by
    have hs₀ : Prepared scopes v m c s := hs.anti (by omega)
    cases hparams : k.params.find? n.id with
    | some p =>
      by_cases harity : arity > 0
      · have hr : KindReturns (resolve n arity kd) c k s .appliedParam k s := by
          unfold resolve
          simp [hparams, harity]
        exact ⟨_, s, hr, hs₀, rfl, trivial⟩
      · let q : Param := { p with kind := p.kind.orElse kd }
        have hr : KindReturns (resolve n arity kd) c k s (.param q)
            { k with params := k.params.insert n.id q } s := by
          unfold resolve
          rw [kindReturns_get_bind, hparams]
          dsimp only
          rw [if_neg harity]
          exact kindReturns_bind.mpr ⟨⟨⟩, _, _, kindReturns_modify.mpr ⟨rfl, rfl⟩,
            kindReturns_pure.mpr ⟨rfl, rfl, rfl⟩⟩
        exact ⟨_, s, hr, hs₀, rfl, trivial⟩
    | none =>
      obtain ⟨r, hr, hvars⟩ := returns_outerReferent hs h k
      exact ⟨(r, k), s, (exec_resolve hparams).trans hr, hs₀, rfl, hvars⟩⟩

/-! ## Written types -/

theorem varsIn_build {Q : TyVar → Prop} {h : Head} (hh : Referent.VarsIn Q (.head h))
    {args : List Ty} (hargs : ∀ a ∈ args, a.VarsIn Q) : (h.build args).VarsIn Q := by
  cases h with
  | builtin con | primitive pt => exact Ty.varsIn_con.mpr hargs
  | synonym ts => exact Ty.VarsIn.instantiate hh (mem_assignment_varsIn hargs)
  | newtype nt => exact Ty.varsIn_newtype.mpr hargs

mutual
theorem completes_infer : ∀ (t : TypeExpr) (hint : Kind), t.inScope v [] = true →
    KindCompletes scopes v t.varsDrawn (infer t hint) fun r => r.1.VarsIn (DeclaredIn scopes)
  | .located r t, hint, ht => by
    rw [infer]
    exact .located (completes_infer t hint ht)
  | .bit, _, _ => by
    rw [infer]
    exact .pure Ty.varsIn_bit
  | .num _, _, _ | .char _, _, _ => by
    rw [infer]
    exact .pure (Ty.varsIn_num _)
  | .seq len elem, _, ht => by
    rw [TypeExpr.inScope, Bool.and_eq_true] at ht
    rw [infer]
    exact (completes_infer len _ ht.1).atKind fun n hn =>
      (completes_infer elem _ ht.2).atKind (l := 0) fun a ha => .pure (Ty.varsIn_seq.mpr ⟨hn, ha⟩)
  | .arrow a b, _, ht => by
    rw [TypeExpr.inScope, Bool.and_eq_true] at ht
    rw [infer]
    exact (completes_infer a _ ht.1).atKind fun a ha =>
      (completes_infer b _ ht.2).atKind (l := 0) fun b hb =>
        .pure (Ty.varsIn_arrow.mpr ⟨ha, hb⟩)
  | .tuple ts, _, ht => by
    rw [infer]
    exact .mono ((completes_checkEach ts ht).bind fun us hus => .pure (Ty.varsIn_tuple.mpr hus))
      (by simp only [TypeExpr.varsDrawn]; omega)
  | .record fs, _, ht => by
    rw [infer]
    exact .mono ((completes_checkFields fs ht).bind fun gs hgs => .pure
      (Ty.varsIn_record.mpr fun g hg => hgs g (Table.mem_ofList hg)))
        (by simp only [TypeExpr.varsDrawn]; omega)
  | .wildcard, hint, _ => by
    have hfresh : KindCompletes scopes v 1 (do
        return (← freshType (hint.orElse .type) .wildcard, hint.orElse .type) :
          KindInfer (Ty × Kind)) fun r => r.1.VarsIn (DeclaredIn scopes) :=
      .mono ((KindCompletes.lift (completes_freshType ..)).bind fun _ ht => .pure ht) le_rfl
    rw [infer]
    refine .get_bind fun _ => ?_
    dsimp only
    split
    · exact .mono ((KindCompletes.lift (completes_recordError _)).bind fun _ _ => hfresh) le_rfl
    · exact hfresh
  | .existential ident, hint, _ => by
    rw [infer]
    exact .mono ((completes_existential ..).bind fun _ ht => .pure ht)
      (by simp [TypeExpr.varsDrawn])
  | .builtin con args, hint, ht => by
    rw [infer]
    dsimp only
    split
    · refine .mono (completes_placeholder ..) ?_
      simp only [TypeExpr.varsDrawn]
      omega
    · refine .mono ((completes_checkArgs args _ ht).bind fun r hr => (completes_emit ..).bind
        fun _ _ => .pure (Ty.varsIn_con.mpr hr)) ?_
      simp only [TypeExpr.varsDrawn]
      omega
  | .named n args, hint, ht => by
    simp only [TypeExpr.inScope, Bool.and_eq_true, Bool.or_eq_true, List.contains_nil,
      Bool.false_eq_true, false_or] at ht
    rw [infer]
    refine .mono (n := 0 + (varsDrawnEach args + 1)) ((completes_resolve hint (ht.1.imp_left
      (And.imp_left (by simp)))).bind fun r hr => ?_) (by simp only [TypeExpr.varsDrawn]; omega)
    split
    · exact .mono (.pure (Ty.varsIn_bound _)) (Nat.zero_le _)
    · exact .mono (completes_placeholder ..) (Nat.le_add_left 1 _)
    · split
      · exact .mono (completes_placeholder ..) (Nat.le_add_left 1 _)
      · exact .mono ((completes_checkArgs args _ ht.2).bind fun r hargs => (completes_emit ..).bind
          fun _ _ => .pure (varsIn_build hr hargs)) (by omega)

theorem completes_checkEach : ∀ ts : List TypeExpr, typesInScope v [] ts = true →
    KindCompletes scopes v (varsDrawnEach ts) (Kinding.checkEach ts) fun us =>
      ∀ u ∈ us, u.VarsIn (DeclaredIn scopes)
  | [], _ => by
    rw [Kinding.checkEach]
    exact .pure (List.forall_mem_nil _)
  | t :: ts, ht => by
    rw [typesInScope, Bool.and_eq_true] at ht
    rw [Kinding.checkEach]
    exact (completes_infer t _ ht.1).atKind fun u hu => (completes_checkEach ts ht.2).bind
      (l := 0) fun us hus => .pure (List.forall_mem_cons.mpr ⟨hu, hus⟩)

theorem completes_checkFields : ∀ fs : List (String × TypeExpr), typeFieldsInScope v [] fs = true →
    KindCompletes scopes v (varsDrawnFields fs) (checkFields fs) fun gs =>
      ∀ g ∈ gs, g.2.VarsIn (DeclaredIn scopes)
  | [], _ => by
    rw [checkFields]
    exact .pure (List.forall_mem_nil _)
  | (l, t) :: fs, ht => by
    rw [typeFieldsInScope, Bool.and_eq_true] at ht
    rw [checkFields]
    exact (completes_infer t _ ht.1).atKind fun u hu => (completes_checkFields fs ht.2).bind
      (l := 0) fun gs hgs => .pure (List.forall_mem_cons.mpr ⟨hu, hgs⟩)

theorem completes_checkArgs : ∀ (ts : List TypeExpr) (kd : Kind), typesInScope v [] ts = true →
    KindCompletes scopes v (varsDrawnEach ts) (checkArgs kd ts) fun r =>
      ∀ a ∈ r.1, a.VarsIn (DeclaredIn scopes)
  | [], kd, _ => by
    rw [checkArgs]
    exact .pure (List.forall_mem_nil _)
  | t :: ts, .arrow dom cod, ht => by
    rw [typesInScope, Bool.and_eq_true] at ht
    rw [checkArgs]
    exact (completes_infer t _ ht.1).atKind fun u hu => (completes_checkArgs ts cod ht.2).bind
      (l := 0) fun r hr => .pure (List.forall_mem_cons.mpr ⟨hu, hr⟩)
  | _ :: _, .type, _ | _ :: _, .num, _ | _ :: _, .prop, _ | _ :: _, .unknown, _ => by
    rw [checkArgs]
    · exact .mono (.pure (List.forall_mem_nil _)) (Nat.zero_le _)
    · simp
end

end Kinding

end Infer
end SizedTypes
