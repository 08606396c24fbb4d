import Mathlib
import SizedTypes.Infer.Expr
import SizedTypes.Proofs.Infer.Functions

/-!
# Elaborated expressions are well-typed

By induction over plain expressions: if no error is recorded, every reading that accepts the run
types the elaborated term at the expected type.
-/

set_option autoImplicit false

namespace SizedTypes.Infer

open Surface (Expr Pattern)
open SizedTypes.Core (Env HasType Term)

variable {W : Setting} {E : External} {N : Int} {prims : List (String × Name)} {c : Context}
  {s s' : State}

/-! ## Applications -/

/-- What is expected of the head `slots.length` arguments before the end of an application: it
takes these arguments to the type `t`. No application is under way without arguments. -/
structure Spine (W : Setting) (n : Nat) (head : Ty) (slots : List (Ty × Nat)) (t : Ty) : Prop where
  length : slots = [] ∨ slots.length = n
  head : head = .arrows (slots.reverse.map Prod.fst) t
  slots : ∀ slot ∈ slots, slot.1.WellFormed W
  result : t.WellFormed W

theorem spine_nil {n : Nat} {t : Ty} (ht : t.WellFormed W) : Spine W n t [] t :=
  ⟨Or.inl rfl, rfl, List.forall_mem_nil _, ht⟩

/-- The head of an application that is none itself. -/
theorem Spine.eq {head t : Ty} {slots : List (Ty × Nat)} (h : Spine W 0 head slots t) :
    slots = [] ∧ head = t := by
  have hnil : slots = [] := h.length.elim id List.length_eq_zero_iff.mp
  refine ⟨hnil, ?_⟩
  rw [h.head, hnil]
  rfl

theorem Spine.wellFormed {n : Nat} {head t : Ty} {slots : List (Ty × Nat)}
    (h : Spine W n head slots t) : head.WellFormed W := by
  rw [h.head]
  have hargs : ∀ u ∈ slots.reverse.map Prod.fst, u.WellFormed W := by
    intro u hu
    obtain ⟨slot, hslot, rfl⟩ := List.mem_map.mp hu
    exact h.slots slot (List.mem_reverse.mp hslot)
  generalize slots.reverse.map Prod.fst = us at hargs ⊢
  induction us with
  | nil => exact h.result
  | cons u us ih =>
    have hus := ih fun v hv => hargs v (List.mem_cons_of_mem _ hv)
    exact .con rfl (by simpa using ⟨hargs u (by simp), hus⟩)

theorem returns_openSpine {k : Nat} {exp : Expected} {slots : List (Ty × Nat)} {t : Ty}
    {r : Expected × (Ty × Nat) × List (Ty × Nat)} (h : Returns (openSpine k exp slots) c s r s')
    (hs : s.WellFormed W E) (hspine : Spine W (k + 1) exp.type slots t) :
    Extends W E 0 s s' ∧ r.2.1.1.WellFormed W ∧
      Spine W k r.1.type r.2.2 (.arrow r.2.1.1 t) := by
  unfold openSpine at h
  match slots with
  | slot :: rest =>
    rw [returns_pure] at h
    obtain ⟨rfl, rfl⟩ := h
    have hslot := hspine.slots slot (by simp)
    refine ⟨.refl _, hslot, Or.inr ?_, ?_, fun p hp => hspine.slots p (by simp [hp]), ?_⟩
    · simpa using hspine.length
    · rw [hspine.head]
      simp [Ty.arrows, List.foldr_append]
    · exact .con rfl (by simp [hslot, hspine.result])
  | [] =>
    simp only [returns_bind, returns_pure] at h
    obtain ⟨init, s₁, hinit, last, _, hlast, rfl, rfl⟩ := h
    obtain ⟨hext₁, hlen, hwf⟩ := returns_freshTypes (W := W) (E := E) hinit
    obtain ⟨hext₂, hwf'⟩ := returns_freshType (W := W) (E := E) hlast
    have hslot := hwf' (hext₁.wellFormed hs)
    refine ⟨hext₁.trans hext₂, hslot, Or.inr ?_, ?_, fun p hp => ?_, ?_⟩
    · simpa using hlen
    · have hexp : exp.type = t := hspine.head
      simp [hexp, Ty.arrows, List.foldr_append]
    · have hp' := List.mem_reverse.mp hp
      exact hwf hs _ (List.fst_mem_of_mem_zipIdx hp')
    · exact .con rfl (by simp [hslot, hspine.result])

/-! ## The recursion -/

/-- What checking the expression `e` comes to. -/
def Checks (W : Setting) (E : External) (N : Int) (prims : List (String × Name)) (e : Expr) :
    Prop :=
  ∀ {c : Context} {exp : Expected} {slots : List (Ty × Nat)} {t : Ty} {s s' : State} {out : Term},
    Returns (checkExpr e exp slots) c s out s' → c.external = E → c.prims = prims →
    s.WellFormed W E → Spine W e.spineLength exp.type slots t →
    Elaborates W E N e.drawn t s s' out

/-- Expressions that are checked one after the other. -/
theorem returns_checkEach {es : List Expr} {exps : List Expected} {outs : List Term}
    (hes : ∀ e ∈ es, Checks W E N prims e) (h : Returns (checkEach es exps) c s outs s')
    (hc : c.external = E) (hprims : c.prims = prims) (hs : s.WellFormed W E)
    (hlen : es.length = exps.length) (hexps : ∀ exp ∈ exps, exp.type.WellFormed W) :
    Extends W E (Expr.drawnEach es) s s' ∧ outs.length = exps.length ∧
      ∀ (V : Reading W) (Γ : Env), V.Accepts s s' → Room N (Expr.drawnEach es) s →
        V.Agrees (· < N) E s Γ → ∀ p ∈ outs.zip (exps.map Expected.type), V.Typed Γ p.1 p.2 := by
  induction es generalizing exps outs s with
  | nil =>
    obtain rfl := List.length_eq_zero_iff.mp hlen.symm
    rw [checkEach, returns_pure] at h
    · obtain ⟨rfl, rfl⟩ := h
      exact ⟨.refl _, rfl, fun _ _ _ _ _ => List.forall_mem_nil _⟩
    · simp
  | cons e es ih =>
    cases exps with
    | nil => simp at hlen
    | cons exp exps =>
      simp only [checkEach, returns_bind, returns_pure] at h
      obtain ⟨out, s₁, hout, outs', _, houts, rfl, rfl⟩ := h
      have hterm := hes e (by simp) hout hc hprims hs (spine_nil (hexps exp (by simp)))
      obtain ⟨hext, hlens, htyped⟩ := ih (fun e he => hes e (by simp [he])) houts
        (hterm.run.wellFormed hs) (by simpa using hlen) fun exp he => hexps exp (by simp [he])
      refine ⟨hterm.run.trans hext, by simp [hlens], fun V Γ hV hroom hagrees => ?_⟩
      refine List.forall_mem_cons.mpr ⟨?_, ?_⟩
      · exact hterm.typed V Γ (hV.left hterm.run hext) hroom.left hagrees
      · exact htyped V Γ (hV.right hterm.run hext) (hroom.right hterm.run)
          (hagrees.extends hterm.run)

/-- The fields of a record, each at the type that its label has. -/
theorem returns_checkRecordFields {fs : List (String × Expr)} {fields : Table String Ty}
    {outs : List (String × Term)} (hfs : ∀ f ∈ fs, Checks W E N prims f.2)
    (h : Returns (checkRecordFields fs fields) c s outs s') (hc : c.external = E)
    (hprims : c.prims = prims) (hs : s.WellFormed W E)
    (hfields : ∀ f ∈ fs, ((fields.find? f.1).getD default).WellFormed W) :
    Extends W E (Expr.drawnFields fs) s s' ∧ outs.map Prod.fst = fs.map Prod.fst ∧
      ∀ (V : Reading W) (Γ : Env), V.Accepts s s' → Room N (Expr.drawnFields fs) s →
        V.Agrees (· < N) E s Γ →
        ∀ f ∈ outs, V.Typed Γ f.2 ((fields.find? f.1).getD default) := by
  induction fs generalizing outs s with
  | nil =>
    rw [checkRecordFields, returns_pure] at h
    obtain ⟨rfl, rfl⟩ := h
    exact ⟨.refl _, rfl, fun _ _ _ _ _ => List.forall_mem_nil _⟩
  | cons f fs ih =>
    obtain ⟨l, e⟩ := f
    simp only [checkRecordFields, returns_bind, returns_pure] at h
    obtain ⟨out, s₁, hout, outs', _, houts, rfl, rfl⟩ := h
    have hterm := hfs (l, e) (by simp) hout hc hprims hs (spine_nil (hfields (l, e) (by simp)))
    obtain ⟨hext, hlabels, htyped⟩ := ih (fun f hf => hfs f (by simp [hf])) houts
      (hterm.run.wellFormed hs) fun f hf => hfields f (by simp [hf])
    refine ⟨hterm.run.trans hext, by simp [hlabels], fun V Γ hV hroom hagrees => ?_⟩
    refine List.forall_mem_cons.mpr ⟨?_, ?_⟩
    · exact hterm.typed V Γ (hV.left hterm.run hext) hroom.left hagrees
    · exact htyped V Γ (hV.right hterm.run hext) (hroom.right hterm.run)
        (hagrees.extends hterm.run)

/-- The primitives of literals and patterns were named before a run. -/
def PrimsBelow (N : Int) (prims : List (String × Name)) : Prop :=
  ∀ ident ∈ ["number", "fraction", "splitAt"], ∀ n, prims.lookup ident = some n → n.id < N

/-- A literal is a call of a primitive. -/
theorem elaborates_of_call {t : Ty} {out : Term} (hprims : PrimsBelow N c.prims)
    (h : Extends W E 0 s s' ∧ ∀ (V : Reading W) (P : Int → Prop) (Γ : Env), V.Accepts s s' →
      PrimsIn P c → V.Agrees P E s Γ → V.Typed Γ out t) : Elaborates W E N 0 t s s' out := by
  refine ⟨h.1, fun V Γ hV _ hagrees => h.2 V (· < N) Γ hV (fun ident hident => ?_) hagrees⟩
  refine hprims ident ?_
  rcases List.mem_pair.mp hident with rfl | rfl
  · simp
  · simp

theorem checks_tuple {es : List Expr} (hes : ∀ e ∈ es, Checks W E N prims e) :
    Checks W E N prims (.tuple es) := by
  intro c exp slots t s s' out h hc hprims hs hspine
  obtain ⟨rfl, rfl⟩ := hspine.eq
  simp only [checkExpr, returns_bind, returns_pure] at h
  obtain ⟨ts, s₁, htuple, outs, _, houts, rfl, rfl⟩ := h
  obtain ⟨hext₁, hlen, hwf, hsame⟩ := returns_expectTuple htuple hs hspine.wellFormed
  obtain ⟨hext₂, hlens, htyped⟩ := returns_checkEach hes houts hc hprims (hext₁.wellFormed hs)
    (by simp [hlen]) fun exp hexp => by
      obtain ⟨u, hu, rfl⟩ := List.mem_map.mp hexp
      exact hwf _ (List.fst_mem_of_mem_zipIdx hu)
  have hall := hext₁.trans hext₂
  rw [Nat.zero_add] at hall
  refine ⟨hall, fun V Γ hV hroom hagrees => ?_⟩
  rw [Expr.drawn, ← Nat.zero_add (Expr.drawnEach es)] at hroom
  have helems := htyped V Γ (hV.right hext₁ hext₂) (hroom.right hext₁) (hagrees.extends hext₁)
  have htypes : (ts.zipIdx.map fun t => (⟨t.1, .tupleField t.2⟩ : Expected)).map Expected.type =
      ts := by
    simp [Function.comp_def]
  rw [htypes] at helems
  have htuple := Reading.Typed.tuple (by simpa using hlens) helems
  exact htuple.conv (hsame V (hV.left hext₁ hext₂)).symm

theorem checks_record {fs : List (String × Expr)} (hnodup : (fs.map Prod.fst).Nodup)
    (hfs : ∀ f ∈ fs, Checks W E N prims f.2) : Checks W E N prims (.record fs) := by
  intro c exp slots t s s' out h hc hprims hs hspine
  obtain ⟨rfl, rfl⟩ := hspine.eq
  simp only [checkExpr, returns_bind, returns_pure] at h
  obtain ⟨fields, s₁, hrecord, outs, _, houts, rfl, rfl⟩ := h
  obtain ⟨hext₁, hlabels, hwf, hsame⟩ := returns_expectRecord hrecord hs hspine.wellFormed
  have hfind : ∀ f ∈ fs, ((fields.find? f.1).getD default).WellFormed W := by
    intro f hf
    obtain ⟨e, he, heq⟩ := List.mem_map.mp (hlabels.1 f.1 (List.mem_map_of_mem hf))
    obtain ⟨u, hu⟩ := Table.exists_find?_of_mem he
    rw [← heq, hu]
    exact hwf.of_find? hu
  obtain ⟨hext₂, hkeys, htyped⟩ := returns_checkRecordFields hfs houts hc hprims
    (hext₁.wellFormed hs) hfind
  have hall := hext₁.trans hext₂
  rw [Nat.zero_add] at hall
  refine ⟨hall, fun V Γ hV hroom hagrees => ?_⟩
  rw [Expr.drawn, ← Nat.zero_add (Expr.drawnFields fs)] at hroom
  have hfields := htyped V Γ (hV.right hext₁ hext₂) (hroom.right hext₁) (hagrees.extends hext₁)
  refine Reading.Typed.conv (.record ?_ (by rwa [hkeys]) (fun l => ?_) fun f hf u hu => ?_)
    (hsame V (hV.left hext₁ hext₂)).symm
  · cases hwf with
    | record hsorted _ => exact hsorted
  · rw [hkeys]
    exact ⟨hlabels.2 hnodup l, hlabels.1 l⟩
  · simpa only [hu, Option.getD_some] using hfields f hf

theorem checks_list {es : List Expr} (hes : ∀ e ∈ es, Checks W E N prims e) :
    Checks W E N prims (.list es) := by
  intro c exp slots t s s' out h hc hprims hs hspine
  obtain ⟨rfl, rfl⟩ := hspine.eq
  simp only [checkExpr, returns_bind, returns_pure] at h
  obtain ⟨⟨n, elem⟩, s₁, hseq, ⟨⟩, s₂, hunify, outs, _, houts, rfl, rfl⟩ := h
  obtain ⟨hext₁, hn, helem, hsame₁⟩ := returns_expectSeq hseq hs hspine.wellFormed
  have hs₁ := hext₁.wellFormed hs
  obtain ⟨hext₂, hsame₂⟩ := returns_unifyFrom hunify hs₁ hn (wellFormed_num _)
  obtain ⟨hext₃, hlens, htyped⟩ := returns_checkEach hes houts hc hprims (hext₂.wellFormed hs₁)
    (by simp) fun exp hexp => by
      rw [List.eq_of_mem_replicate hexp]
      exact helem
  have hext := hext₁.trans hext₂
  have hall := hext.trans hext₃
  rw [Nat.zero_add] at hall
  refine ⟨hall, fun V Γ hV hroom hagrees => ?_⟩
  rw [Expr.drawn, ← Nat.zero_add (Expr.drawnEach es)] at hroom
  have helems := htyped V Γ (hV.right hext hext₃) (hroom.right hext) (hagrees.extends hext)
  rw [List.length_replicate] at hlens
  rw [List.map_replicate, ← hlens] at helems
  have hlist : V.Typed Γ (.list outs elem) (.seq (.num outs.length) elem) := by
    refine .list fun o ho => ?_
    obtain ⟨i, hi, rfl⟩ := List.mem_iff_getElem.mp ho
    exact helems (outs[i], elem) (List.mem_iff_getElem.mpr ⟨i, by simpa using hi, by simp⟩)
  have hV₂ := hV.left hext hext₃
  have hlen := hsame₂ V (hV₂.right hext₁ hext₂)
  rw [← hlens] at hlen
  have hsame := (hsame₁ V (hV₂.left hext₁ hext₂)).trans (hlen.seq (V.same_refl elem))
  exact hlist.conv hsame.symm

theorem checks_app {f a : Expr} (hf : Checks W E N prims f) (ha : Checks W E N prims a) :
    Checks W E N prims (.app f a) := by
  intro c exp slots t s s' out h hc hprims hs hspine
  simp only [checkExpr, returns_bind, returns_pure] at h
  obtain ⟨⟨head, ⟨u, i⟩, rest⟩, s₁, hopen, fn, s₂, hfn, arg, _, harg, rfl, rfl⟩ := h
  obtain ⟨hext, hu, hspine'⟩ := returns_openSpine hopen hs hspine
  have hs₁ := hext.wellFormed hs
  have hfun := hf hfn hc hprims hs₁ hspine'
  have harg' := ha harg hc hprims (hfun.run.wellFormed hs₁) (spine_nil hu)
  have hrun := hfun.run.trans harg'.run
  have hall := hext.trans hrun
  rw [Nat.zero_add] at hall
  refine ⟨hall, fun V Γ hV hroom hagrees => ?_⟩
  rw [Expr.drawn, ← Nat.zero_add (f.drawn + a.drawn)] at hroom
  have hV₁ := hV.right hext hrun
  have hroom₁ := hroom.right hext
  have hagrees₁ := hagrees.extends hext
  refine .app (hfun.typed V Γ (hV₁.left hfun.run harg'.run) hroom₁.left hagrees₁) ?_
  exact harg'.typed V Γ (hV₁.right hfun.run harg'.run) (hroom₁.right hfun.run)
    (hagrees₁.extends hfun.run)

theorem checks_ifThenElse {e₁ e₂ e₃ : Expr} (h₁ : Checks W E N prims e₁)
    (h₂ : Checks W E N prims e₂) (h₃ : Checks W E N prims e₃) :
    Checks W E N prims (.ifThenElse e₁ e₂ e₃) := by
  intro c exp slots t s s' out h hc hprims hs hspine
  obtain ⟨rfl, rfl⟩ := hspine.eq
  simp only [checkExpr, returns_bind, returns_pure] at h
  obtain ⟨out₁, s₁, hout₁, out₂, s₂, hout₂, out₃, _, hout₃, rfl, rfl⟩ := h
  have hexp := spine_nil (n := 0) hspine.wellFormed
  have hterm₁ := h₁ hout₁ hc hprims hs (spine_nil (.con rfl (List.forall_mem_nil _)))
  have hs₁ := hterm₁.run.wellFormed hs
  have hterm₂ := h₂ hout₂ hc hprims hs₁ (spine_nil hspine.wellFormed)
  have hrun := hterm₁.run.trans hterm₂.run
  have hterm₃ := h₃ hout₃ hc hprims (hterm₂.run.wellFormed hs₁) (spine_nil hspine.wellFormed)
  refine ⟨hrun.trans hterm₃.run, fun V Γ hV hroom hagrees => ?_⟩
  have hV₂ := hV.left hrun hterm₃.run
  refine .ifThenElse ?_ ?_ ?_
  · exact hterm₁.typed V Γ (hV₂.left hterm₁.run hterm₂.run) hroom.left.left hagrees
  · exact hterm₂.typed V Γ (hV₂.right hterm₁.run hterm₂.run) (hroom.left.right hterm₁.run)
      (hagrees.extends hterm₁.run)
  · exact hterm₃.typed V Γ (hV.right hrun hterm₃.run) (hroom.right hrun) (hagrees.extends hrun)

theorem checks_typed {e : Expr} {te : Surface.TypeExpr} (he : Checks W E N prims e) :
    Checks W E N prims (.typed e te) := by
  intro c exp slots t s s' out h hc hprims hs hspine
  obtain ⟨rfl, rfl⟩ := hspine.eq
  simp only [checkExpr, returns_bind, returns_pure] at h
  obtain ⟨u, s₁, hu, out', s₂, hout, ⟨⟩, _, hunify, rfl, rfl⟩ := h
  obtain ⟨hext₁, hwf⟩ := returns_checkType hu hc hs
  have hs₁ := hext₁.wellFormed hs
  have hterm := he hout hc hprims hs₁ (spine_nil hwf)
  obtain ⟨hext₂, hsame⟩ := returns_unifyFrom hunify (hterm.run.wellFormed hs₁) hspine.wellFormed hwf
  have hrun := hext₁.trans hterm.run
  have hall := hrun.trans hext₂
  rw [Nat.zero_add] at hall
  refine ⟨hall, fun V Γ hV hroom hagrees => ?_⟩
  rw [Expr.drawn, ← Nat.zero_add e.drawn] at hroom
  have htyped := hterm.typed V Γ ((hV.left hrun hext₂).right hext₁ hterm.run) (hroom.right hext₁)
    (hagrees.extends hext₁)
  exact htyped.conv (hsame V (hV.right hrun hext₂)).symm

theorem checks_located {r : Range} {e : Expr} (he : Checks W E N prims e) :
    Checks W E N prims (.located r e) := by
  intro c exp slots t s s' out h hc hprims hs hspine
  obtain ⟨rfl, rfl⟩ := hspine.eq
  rw [checkExpr, withRange, returns_withReader, returns_bind] at h
  obtain ⟨out', s₁, hout, h⟩ := h
  simp only [returns_read_bind, returns_pure] at h
  obtain ⟨rfl, rfl⟩ := h
  have hterm := he hout hc hprims hs (spine_nil hspine.wellFormed)
  refine ⟨hterm.run, fun V Γ hV hroom hagrees => ?_⟩
  have htyped := hterm.typed V Γ hV hroom hagrees
  split
  · exact htyped.located
  · exact htyped

theorem checks_of_plain {e : Expr} (he : e.Plain N prims) (hbelow : PrimsBelow N prims) :
    Checks W E N prims e := by
  induction he with
  | var hn =>
    intro c exp slots t s s' out h hc hprims hs hspine
    obtain ⟨rfl, rfl⟩ := hspine.eq
    rw [checkExpr] at h
    obtain ⟨hext, htyped⟩ := returns_checkVar h hc hs hspine.wellFormed
    exact ⟨hext, fun V Γ hV _ hagrees => htyped V (· < N) Γ hV hn hagrees⟩
  | num =>
    intro c exp slots t s s' out h hc hprims hs hspine
    obtain ⟨rfl, rfl⟩ := hspine.eq
    rw [checkExpr] at h
    exact elaborates_of_call (hprims ▸ hbelow) (returns_checkNum h hc hs hspine.wellFormed)
  | frac =>
    intro c exp slots t s s' out h hc hprims hs hspine
    obtain ⟨rfl, rfl⟩ := hspine.eq
    rw [checkExpr] at h
    exact elaborates_of_call (hprims ▸ hbelow) (returns_checkFrac h hc hs hspine.wellFormed)
  | char =>
    intro c exp slots t s s' out h hc hprims hs hspine
    obtain ⟨rfl, rfl⟩ := hspine.eq
    rw [checkExpr] at h
    exact elaborates_of_call (hprims ▸ hbelow) (returns_checkChar h hc hs hspine.wellFormed)
  | string =>
    intro c exp slots t s s' out h hc hprims hs hspine
    obtain ⟨rfl, rfl⟩ := hspine.eq
    rw [checkExpr] at h
    exact elaborates_of_call (hprims ▸ hbelow) (returns_checkString h hc hs hspine.wellFormed)
  | tuple _ ih => exact checks_tuple ih
  | record hnodup _ ih => exact checks_record hnodup ih
  | list _ ih => exact checks_list ih
  | app _ _ ihf iha => exact checks_app ihf iha
  | ifThenElse _ _ _ ihc iht ihe => exact checks_ifThenElse ihc iht ihe
  | typed _ ih => exact checks_typed ih
  | lambda hbinders _ ih =>
    intro c exp slots t s s' out h hc hprims hs hspine
    obtain ⟨rfl, rfl⟩ := hspine.eq
    rw [checkExpr] at h
    subst hprims
    refine returns_checkLambda (fun x hx => hbelow "splitAt" (by simp) x hx) hbinders ?_ h hc hs
      hspine.wellFormed
    exact fun exp s s' out h hs hexp => ih h hc rfl hs (spine_nil hexp)
  | located _ ih => exact checks_located ih

/-! ## Runs without errors -/

/-- The equalities of sizes that a run has put off, under its last substitution. -/
def Deferred (s s' : State) (a b : Shape) : Prop :=
  ∃ g ∈ newGoals s s', ∃ l r : Ty, g.prop = .equal l r ∧ (s'.subst.apply l).shape = a ∧
    (s'.subst.apply r).shape = b

/-- The reading that a run ends with. -/
def lastReading (s : State) (hs' : s'.WellFormed W E) : Reading W where
  rel := Shape.Conv (Deferred s s')
  image := s'.subst.image
  type := s'.subst.apply
  congruence := Shape.conv_congruence _
  shape_type := s'.subst.shape_apply
  inScope _ _ := hs'.subst.scope_of_mem_params

theorem accepts_lastReading (hs' : s'.WellFormed W E) (herrors : s'.errors = s.errors) :
    (lastReading s hs').Accepts s s' where
  errors := herrors
  solves := hs'.subst.triangular.solves
  equates g hg l r hprop := by
    rw [Reading.same_iff]
    exact .eq ⟨g, hg, l, r, hprop, rfl, rfl⟩

/-- The schemas that variables are declared with, under a substitution. -/
def State.environment (s : State) (E : External) (θ : Subst) : Env := fun i =>
  match s.typeOf E i with
  | some (.known sc) => some (θ.applySchema sc)
  | _ => none

/-- If a plain expression is elaborated without errors, the term has the expected type, both under
the substitution that the run ends with and up to the equalities of sizes that it has put off. -/
theorem hasType_of_checkExpr {e : Expr} {exp : Expected} {out : Term}
    (hplain : e.Plain s.supply.next c.prims) (hprims : PrimsBelow s.supply.next c.prims)
    (hroom : Room s.supply.next e.drawn s) (hs : s.WellFormed W c.external)
    (hexp : exp.type.WellFormed W) (h : Returns (checkExpr e exp []) c s out s')
    (herrors : s'.errors = s.errors) :
    HasType (Shape.Conv (Deferred s s')) (s.environment c.external s'.subst)
      (out.substitute s'.subst.apply fun _ _ => none) (s'.subst.apply exp.type) := by
  have hterm := checks_of_plain hplain hprims h rfl rfl hs (spine_nil hexp)
  have hs' := hterm.run.wellFormed hs
  refine hterm.typed (lastReading s hs') _ (accepts_lastReading hs' herrors) hroom ?_
  intro i _ sc hsc
  refine ⟨s'.subst.applySchema sc, ?_, Reading.reads_mapTypes sc⟩
  rw [State.environment, hsc]

/-! A function of a pair, checked against an unknown type where `number` is the only variable. -/

/-- No parameters in scope and no synonyms. -/
def bareSetting : Setting where
  scope _ := False
  fixed _ := False
  synonym _ := { name := default, body := .bit }
  closed _ := rfl
  mentions _ _ h := nomatch h

def numberSchema : Schema :=
  let val : Param := { id := 1, kind := .num, name := some { id := 1, ident := "val" } }
  let rep : Param := { id := 2, kind := .type, name := some { id := 2, ident := "rep" } }
  { params := [val, rep], props := [.cls .literal [.bound val, .bound rep]], body := .bound rep }

def numberContext : Context :=
  { options := {}, solver := Solver.localRules, range := .empty
    prims := [("number", { id := 10, ident := "number" })]
    external := { vars := [(10, numberSchema)] } }

def numberState : State := { supply := .default, nextTypeVar := 1, nextGoal := 0 }

/-- `\(x, y) -> (y, 5)`. -/
def secondAndFive : Expr :=
  .lambda [.tuple [.var { id := 3, ident := "x" }, .var { id := 4, ident := "y" }]]
    (.tuple [.var { id := 4, ident := "y" }, .num 5 10 1])

def unknownType : Expected := ⟨.free ⟨0, .type, [], none⟩, .wildcard⟩

def secondAndFiveChecks : Bool :=
  match (checkExpr secondAndFive unknownType []).exec numberContext numberState with
  | (.ok _, s') => s'.errors.isEmpty
  | _ => false

theorem plain_secondAndFive :
    secondAndFive.Plain numberState.supply.next numberContext.prims := by
  refine .lambda ⟨by decide, by decide, by decide⟩ (.tuple fun e he => ?_)
  rcases List.mem_pair.mp he with rfl | rfl
  · exact .var (by decide)
  · exact .num

theorem wellFormed_numberState : numberState.WellFormed bareSetting numberContext.external where
  subst := .empty
  params _ h := nomatch h
  existentials _ h := nomatch h
  synonyms _ _ h := nomatch h
  vars i v h := by
    have hvar : i = 10 ∧ VarType.known numberSchema = v := by
      simpa [State.typeOf, numberState, numberContext, Table.find?] using h
    refine ⟨numberSchema, hvar.2.symm, .bound, fun _ _ hfixed => hfixed, Or.inr ?_⟩
    exact fun _ _ hscope => hscope
  sorted := .nil

theorem hasType_secondAndFive : ∃ out s',
    Returns (checkExpr secondAndFive unknownType []) numberContext numberState out s' ∧
    HasType (Shape.Conv (Deferred numberState s'))
      (numberState.environment numberContext.external s'.subst)
      (out.substitute s'.subst.apply fun _ _ => none) (s'.subst.apply unknownType.type) := by
  have h : secondAndFiveChecks = true := by cbv
  unfold secondAndFiveChecks at h
  split at h
  · rename_i out s' heq
    refine ⟨out, s', heq, ?_⟩
    refine hasType_of_checkExpr plain_secondAndFive ?_ ⟨le_rfl, by decide, by decide⟩
      wellFormed_numberState (.free (List.forall_mem_nil _)) heq (List.isEmpty_iff.mp h)
    intro ident hident n hn
    obtain ⟨before, after, heq, -⟩ := List.lookup_eq_some_iff.mp hn
    have hmem : (ident, n) ∈ numberContext.prims := heq ▸ by simp
    obtain ⟨-, rfl⟩ := Prod.mk.inj (List.mem_singleton.mp hmem)
    decide
  · cases h

end SizedTypes.Infer
