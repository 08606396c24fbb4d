import SizedTypes.Infer.Resolve
import SizedTypes.Proofs.Core.Typing
import SizedTypes.Proofs.Ty.Lift
import SizedTypes.Proofs.Ty.Sizes

/-!
# Typing along routes

A route that fits the types between a value and the record that a selection reaches makes a
well-typed selection out of the value, and a well-typed update out of the value and a new part.
-/

set_option autoImplicit false

namespace SizedTypes

open SizedTypes.Core (DrawsFrom Env Picks Term Typed)

/-! ## Names that are not in scope -/

/-- The next `k` names of the supply, and those after them, are not in scope. -/
structure Supply.Spare (supply : Supply) (k : ℕ) (Γ : Env) : Prop where
  low : -9223372036854775808 ≤ supply.next
  high : supply.next + k ≤ Word.maxValue
  unused : ∀ i, supply.next ≤ i → Γ i = none

namespace Supply.Spare

variable {supply : Supply} {k : ℕ} {Γ : Env}

theorem fresh_none (h : supply.Spare k Γ) (ident : String) : Γ (supply.fresh ident).1.id = none :=
  h.unused _ le_rfl

theorem next_eq (h : supply.Spare (k + 1) Γ) (ident : String) :
    (supply.fresh ident).2.next = supply.next + 1 := by
  have hlow := h.low
  have hhigh := h.high
  exact Word.wrap_eq_self ⟨by omega, by omega⟩

/-- A name of the supply comes into scope. -/
theorem set (h : supply.Spare (k + 1) Γ) (ident : String) (sc : Schema) :
    (supply.fresh ident).2.Spare k (Γ.set (supply.fresh ident).1 sc) := by
  have hnext := h.next_eq ident
  have hlow := h.low
  have hhigh := h.high
  refine ⟨by omega, by omega, fun i hi => ?_⟩
  have hne : i ≠ (supply.fresh ident).1.id := by
    show i ≠ supply.next
    omega
  rw [Env.set_of_ne _ _ hne]
  exact h.unused i (by omega)

theorem mono {j : ℕ} (h : supply.Spare k Γ) (hjk : j ≤ k) : supply.Spare j Γ :=
  ⟨h.low, by have := h.high; omega, h.unused⟩

end Supply.Spare

/-! ## Routes that fit -/

/-- The step of a route through a layer, where `inner` is selected inside. -/
def Layer.toLift (inner : Ty) : Layer → Lift
  | seq len elem => .seq len elem inner
  | arrow arg _ => .arrow arg

namespace Resolver

/-- The route leads from values of type `rec` to their parts of type `t`. The types that it carries
have these types as their final forms. -/
inductive Spans (R : Shape → Shape → Prop) (zonk : Ty → Ty) (sel : Selector) (record : Ty) :
    List Lift → Ty → Ty → Prop
  | record {t : Ty} : R (zonk record).shape record.shape → Picks sel record.expand t →
      Spans R zonk sel record [] record t
  | seq {lifts : List Lift} {len elem inner t : Ty} : R (zonk len).shape len.shape →
      R (zonk elem).shape elem.shape → R (zonk inner).shape t.shape →
      Spans R zonk sel record lifts elem t →
      Spans R zonk sel record (.seq len elem inner :: lifts) (.seq len elem) (.seq len t)
  | arrow {lifts : List Lift} {arg res t : Ty} : R (zonk arg).shape arg.shape →
      Spans R zonk sel record lifts res t →
      Spans R zonk sel record (.arrow arg :: lifts) (.arrow arg res) (.arrow arg t)
  | shape {lifts : List Lift} {rec rec' t : Ty} : rec.shape = rec'.shape →
      Spans R zonk sel record lifts rec t → Spans R zonk sel record lifts rec' t

variable {R : Shape → Shape → Prop} {zonk : Ty → Ty} {sel : Selector} {record rec t : Ty}
  {lifts : List Lift}

theorem Spans.around {inner : Ty} {l : Layer} (hside : R (zonk l.side).shape l.side.shape)
    (hinside : R (zonk l.inside).shape l.inside.shape) (hinner : R (zonk inner).shape t.shape)
    (h : Spans R zonk sel record lifts l.inside t) :
    Spans R zonk sel record (l.toLift inner :: lifts) (l.around l.inside) (l.around t) := by
  cases l with
  | seq len elem => exact .seq hside hinside hinner h
  | arrow arg res => exact .arrow hside h

theorem seq_congr (hR : Shape.Congruence R) {n m a b : Ty} (hn : R n.shape m.shape)
    (ha : R a.shape b.shape) : R (Ty.seq n a).shape (Ty.seq m b).shape := by
  simpa [Ty.seq] using hR.node_two hn ha

theorem arrow_congr (hR : Shape.Congruence R) {a b c d : Ty} (ha : R a.shape c.shape)
    (hb : R b.shape d.shape) : R (Ty.arrow a b).shape (Ty.arrow c d).shape := by
  simpa [Ty.arrow] using hR.node_two ha hb

/-- Along a route that fits, a term of the type of the record becomes one of the type of the
part. -/
theorem Spans.typed_select (hR : Shape.Congruence R) (h : Spans R zonk sel record lifts rec t)
    {Γ : Env} {e : Term} {supply : Supply} (he : Typed R Γ e rec)
    (hspare : supply.Spare lifts.length Γ) :
    Typed R Γ (selectAlong zonk sel lifts e supply).1 t := by
  induction h generalizing Γ e supply with
  | record _ hpick =>
    exact .select (.conv he (hR.of_eq (Ty.shape_expand _).symm)) hpick
  | @seq lifts len elem inner t hlen helem hinner _ ih =>
    let x := supply.fresh "x"
    have heq : (selectAlong zonk sel (.seq len elem inner :: lifts) e supply).1 =
        .comp (zonk len) (zonk inner) (selectAlong zonk sel lifts (.var x.1) x.2).1
          [[.draw x.1 (zonk len) (zonk elem) e]] := rfl
    rw [heq]
    have hx : Typed R (Γ.set x.1 (.mono (zonk elem))) (.var x.1) elem :=
      .conv (Core.typed_var (Env.set_self ..)) helem
    have hresult := ih hx (hspare.set "x" _)
    have hsource : Typed R Γ e (.seq (zonk len) (zonk elem)) :=
      .conv he (seq_congr hR (hR.symm hlen) (hR.symm helem))
    have hdraws : ∀ m ∈ [.draw x.1 (zonk len) (zonk elem) e], DrawsFrom R Γ m := fun m hm =>
      ⟨_, _, _, _, List.mem_singleton.mp hm, hsource⟩
    exact .conv (.parallel hdraws (.conv hresult (hR.symm hinner)) (hR.refl _))
      (seq_congr hR hlen hinner)
  | @arrow lifts arg res t harg _ ih =>
    let x := supply.fresh "x"
    have heq : (selectAlong zonk sel (.arrow arg :: lifts) e supply).1 =
        .abs x.1 (zonk arg) (selectAlong zonk sel lifts (.app e (.var x.1)) x.2).1 := rfl
    rw [heq]
    have hx : Typed R (Γ.set x.1 (.mono (zonk arg))) (.var x.1) arg :=
      .conv (Core.typed_var (Env.set_self ..)) harg
    have hle : Γ.Le (Γ.set x.1 (.mono (zonk arg))) := Env.le_set (hspare.fresh_none "x")
    have hfun := he.mono hle
    exact .conv (.abs (ih (.app hfun hx) (hspare.set "x" _))) (arrow_congr hR harg (hR.refl _))
  | shape hshape _ ih => exact ih (.conv he (hR.of_eq hshape.symm)) hspare

/-- Along a route that fits, a term of the type of the record with one of the type of the part
becomes an updated record. -/
theorem Spans.typed_update (hR : Shape.SizeEquality R) (h : Spans R zonk sel record lifts rec t)
    {Γ : Env} {e v : Term} {supply : Supply} (he : Typed R Γ e rec) (hv : Typed R Γ v t)
    (hspare : supply.Spare (2 * lifts.length) Γ) :
    Typed R Γ (updateAlong zonk sel record lifts e v supply).1 rec := by
  induction h generalizing Γ e v supply with
  | record hrecord hpick =>
    have hexpand := hR.of_eq (Ty.shape_expand record)
    exact .conv (.update (.conv he (hR.symm hexpand)) hv hpick (hR.trans hrecord (hR.symm hexpand)))
      hexpand
  | @seq lifts len elem inner t hlen helem hinner _ ih =>
    let x := supply.fresh "x"
    let y := x.2.fresh "y"
    have heq : (updateAlong zonk sel record (.seq len elem inner :: lifts) e v supply).1 =
        .comp (zonk len) (zonk elem)
          (updateAlong zonk sel record lifts (.var x.1) (.var y.1) y.2).1
          [[.draw x.1 (zonk len) (zonk elem) e], [.draw y.1 (zonk len) (zonk inner) v]] := rfl
    rw [heq]
    let Γx := Γ.set x.1 (.mono (zonk elem))
    let Γxy := Γx.set y.1 (.mono (zonk inner))
    have hsparex : x.2.Spare (2 * lifts.length + 1) Γx := hspare.set "x" _
    have hle : Γx.Le Γxy := Env.le_set (hsparex.fresh_none "y")
    have hx : Typed R Γxy (.var x.1) elem :=
      .conv ((Core.typed_var (Env.set_self ..)).mono hle) helem
    have hy : Typed R Γxy (.var y.1) t := .conv (Core.typed_var (Env.set_self ..)) hinner
    have hresult := ih hx hy (hsparex.set "y" _)
    have hsource : Typed R Γ e (.seq (zonk len) (zonk elem)) :=
      .conv he (seq_congr hR.toCongruence (hR.symm hlen) (hR.symm helem))
    have hparts : Typed R Γ v (.seq (zonk len) (zonk inner)) :=
      .conv hv (seq_congr hR.toCongruence (hR.symm hlen) (hR.symm hinner))
    have hdraws : ∀ m ∈ [.draw x.1 (zonk len) (zonk elem) e, .draw y.1 (zonk len) (zonk inner) v],
        DrawsFrom R Γ m := by
      intro m hm
      rcases List.mem_pair.mp hm with rfl | rfl
      · exact ⟨_, _, _, _, rfl, hsource⟩
      · exact ⟨_, _, _, _, rfl, hparts⟩
    exact .conv (.parallel hdraws (.conv hresult (hR.symm helem)) (hR.min_self _))
      (seq_congr hR.toCongruence hlen helem)
  | @arrow lifts arg res t harg _ ih =>
    let x := supply.fresh "x"
    have heq : (updateAlong zonk sel record (.arrow arg :: lifts) e v supply).1 =
        .abs x.1 (zonk arg)
          (updateAlong zonk sel record lifts (.app e (.var x.1)) (.app v (.var x.1)) x.2).1 := rfl
    rw [heq]
    have hx : Typed R (Γ.set x.1 (.mono (zonk arg))) (.var x.1) arg :=
      .conv (Core.typed_var (Env.set_self ..)) harg
    have hle : Γ.Le (Γ.set x.1 (.mono (zonk arg))) := Env.le_set (hspare.fresh_none "x")
    have hbody := ih (.app (he.mono hle) hx) (.app (hv.mono hle) hx)
      ((hspare.set (k := 2 * lifts.length + 1) "x" _).mono (Nat.le_succ _))
    exact .conv (.abs hbody) (arrow_congr hR.toCongruence harg (hR.refl _))
  | shape hshape _ ih =>
    exact .conv (ih (.conv he (hR.of_eq hshape.symm)) hv hspare) (hR.of_eq hshape)

end Resolver
end SizedTypes
