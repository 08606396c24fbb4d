import Mathlib.Data.List.Basic
import Mathlib.Logic.Relation
import SizedTypes.Surface.Expr

/-!
# References

Which expressions an expression is made of, constructor by constructor, and the references of a
binding: the variables anywhere in its body. Names are resolved, so a reference is matched by id,
whatever binds the variable on the way to it.
-/

set_option autoImplicit false

namespace SizedTypes.Surface

open Relation (ReflTransGen)

/-- `x` is the body of a binding that a declaration makes, in a submodule at any depth. -/
inductive Decl.HasBody : Decl → Expr → Prop
  | group {recursive : Bool} {bs : List Bind} {b : Bind} {x : Expr} :
      b ∈ bs → b.body = some x → HasBody (.group recursive bs) x
  | submodule {n : Name} {ds : List Decl} {r : Range} {d : Decl} {x : Expr} :
      d ∈ ds → HasBody d x → HasBody (.submodule n ds r) x

/-- `x` is what a qualifier draws from or what it defines. -/
inductive Match.HasBody : Match → Expr → Prop
  | draw {p : Pattern} {x : Expr} : HasBody (.draw p x) x
  | define {b : Bind} {x : Expr} : b.body = some x → HasBody (.define b) x

/-- `x.PartOf e` says that `x` is an immediate part of `e`. -/
inductive Expr.PartOf : Expr → Expr → Prop
  | elem {x : Expr} {es : List Expr} : x ∈ es → PartOf x (.tuple es)
  | item {x : Expr} {es : List Expr} : x ∈ es → PartOf x (.list es)
  | field {l : String} {x : Expr} {fs : List (String × Expr)} : (l, x) ∈ fs → PartOf x (.record fs)
  | selected {x : Expr} {sel : Selector} : PartOf x (.select x sel)
  | updated {x : Expr} {fs : List (List Selector × UpdateHow × Expr)} : PartOf x (.update x fs)
  | change {path : List Selector} {how : UpdateHow} {x r : Expr}
      {fs : List (List Selector × UpdateHow × Expr)} : (path, how, x) ∈ fs → PartOf x (.update r fs)
  | changer {path : List Selector} {how : UpdateHow} {x : Expr}
      {fs : List (List Selector × UpdateHow × Expr)} : (path, how, x) ∈ fs → PartOf x (.updater fs)
  | from {x : Expr} : PartOf x (.from x)
  | first {x next : Expr} : PartOf x (.fromThen x next)
  | next {first x : Expr} : PartOf x (.fromThen first x)
  | result {x : Expr} {arms : List (List Match)} : PartOf x (.comp x arms)
  | drawn {x result : Expr} {arms : List (List Match)} {arm : List Match} {m : Match} :
      arm ∈ arms → m ∈ arm → m.HasBody x → PartOf x (.comp result arms)
  | fn {x a : Expr} : PartOf x (.app x a)
  | arg {f x : Expr} : PartOf x (.app f x)
  | typeFn {x : Expr} {args : List TypeArg} : PartOf x (.typeApp x args)
  | cond {x yes no : Expr} : PartOf x (.ifThenElse x yes no)
  | yes {c x no : Expr} : PartOf x (.ifThenElse c x no)
  | no {c yes x : Expr} : PartOf x (.ifThenElse c yes x)
  | body {x : Expr} {ds : List Decl} : PartOf x (.block x ds)
  | local {x body : Expr} {ds : List Decl} {d : Decl} : d ∈ ds → d.HasBody x →
      PartOf x (.block body ds)
  | typed {x : Expr} {t : TypeExpr} : PartOf x (.typed x t)
  | lambda {ps : List Pattern} {x : Expr} : PartOf x (.lambda ps x)
  | located {r : Range} {x : Expr} : PartOf x (.located r x)

/-- `x.OccursIn e` says that `x` is `e` or a part of it at any depth. -/
def Expr.OccursIn : Expr → Expr → Prop := ReflTransGen Expr.PartOf

/-- The name of `b'` occurs as a variable in the body of `b`. -/
def Bind.RefersTo (b b' : Bind) : Prop :=
  ∃ body, b.body = some body ∧ ∃ n : Name, n.id = b'.name.id ∧ (Expr.var n).OccursIn body

/-! ## The traversal -/

theorem subtermsList_eq (es : List Expr) : subtermsList es = es.flatMap Expr.subterms := by
  induction es with
  | nil => rfl
  | cons e es ih => rw [subtermsList, ih, List.flatMap_cons]

theorem subtermsFields_eq (fs : List (String × Expr)) :
    subtermsFields fs = fs.flatMap fun f => f.2.subterms := by
  induction fs with
  | nil => rfl
  | cons f fs ih => rw [subtermsFields, ih, List.flatMap_cons]

theorem subtermsUpdates_eq (fs : List (List Selector × UpdateHow × Expr)) :
    subtermsUpdates fs = fs.flatMap fun f => f.2.2.subterms := by
  induction fs with
  | nil => rfl
  | cons f fs ih => rw [subtermsUpdates, ih, List.flatMap_cons]

theorem subtermsArms_eq (arms : List (List Match)) :
    subtermsArms arms = arms.flatMap subtermsMatches := by
  induction arms with
  | nil => rfl
  | cons arm arms ih => rw [subtermsArms, ih, List.flatMap_cons]

theorem subtermsBinds_eq (bs : List Bind) : subtermsBinds bs = bs.flatMap Bind.subterms := by
  induction bs with
  | nil => rfl
  | cons b bs ih => rw [subtermsBinds, ih, List.flatMap_cons]

variable {x y e : Expr}

theorem Bind.mem_subterms {b : Bind} : x ∈ b.subterms ↔ ∃ e, b.body = some e ∧ x ∈ e.subterms := by
  obtain ⟨n, ps, body, sig, mono, prim, r⟩ := b
  cases body with
  | none => simp [Bind.subterms, Bind.body]
  | some e => simp [Bind.subterms, Bind.body]

theorem mem_subtermsMatches {arm : List Match} :
    x ∈ subtermsMatches arm ↔ ∃ m ∈ arm, ∃ e, m.HasBody e ∧ x ∈ e.subterms := by
  induction arm with
  | nil => simp [subtermsMatches]
  | cons m ms ih =>
    rw [List.exists_mem_cons_iff, ← ih]
    cases m with
    | draw p e =>
      have hbody : ∀ y, (Match.draw p e).HasBody y ↔ y = e :=
        fun y => ⟨fun h => by cases h; rfl, fun h => h ▸ .draw⟩
      simp only [subtermsMatches, List.mem_append, hbody, exists_eq_left]
    | define b =>
      have hbody : ∀ y, (Match.define b).HasBody y ↔ b.body = some y :=
        fun y => ⟨fun h => by cases h; assumption, .define⟩
      simp only [subtermsMatches, List.mem_append, hbody, Bind.mem_subterms]

theorem Decl.hasBody_group {recursive : Bool} {bs : List Bind} :
    (Decl.group recursive bs).HasBody x ↔ ∃ b ∈ bs, b.body = some x :=
  ⟨fun h => by cases h with | group hb hbody => exact ⟨_, hb, hbody⟩,
    fun ⟨_, hb, hbody⟩ => .group hb hbody⟩

theorem Decl.hasBody_submodule {n : Name} {ds : List Decl} {r : Range} :
    (Decl.submodule n ds r).HasBody x ↔ ∃ d ∈ ds, d.HasBody x :=
  ⟨fun h => by cases h with | submodule hd hbody => exact ⟨_, hd, hbody⟩,
    fun ⟨_, hd, hbody⟩ => .submodule hd hbody⟩

theorem mem_subtermsDecls : (ds : List Decl) →
    (x ∈ subtermsDecls ds ↔ ∃ d ∈ ds, ∃ e, d.HasBody e ∧ x ∈ e.subterms)
  | [] => by simp [subtermsDecls]
  | .group recursive bs :: ds => by
    rw [subtermsDecls, List.mem_append, mem_subtermsDecls ds, List.exists_mem_cons_iff,
      subtermsBinds_eq, List.mem_flatMap]
    simp only [Decl.hasBody_group, Bind.mem_subterms]
    grind
  | .submodule n inner r :: ds => by
    rw [subtermsDecls, List.mem_append, mem_subtermsDecls ds, mem_subtermsDecls inner,
      List.exists_mem_cons_iff]
    simp only [Decl.hasBody_submodule]
    grind
  | .synonym .. :: ds | .newtype .. :: ds | .primType .. :: ds | .paramType .. :: ds
  | .paramProps .. :: ds | .paramFun .. :: ds => by
    change x ∈ subtermsDecls ds ↔ _
    rw [mem_subtermsDecls ds, List.exists_mem_cons_iff]
    refine (or_iff_right ?_).symm
    rintro ⟨e, hbody, -⟩
    cases hbody

/-- What a traversal meets below an expression it meets in the parts of this. -/
theorem Expr.mem_subterms_iff :
    x ∈ e.subterms ↔ x = e ∨ ∃ y : Expr, y.PartOf e ∧ x ∈ y.subterms := by
  constructor
  · intro h
    cases e <;> simp only [Expr.subterms, List.mem_cons, List.mem_append,
      subtermsList_eq, subtermsFields_eq, subtermsUpdates_eq, subtermsArms_eq, mem_subtermsMatches,
      mem_subtermsDecls, List.mem_flatMap] at h <;> grind [Expr.PartOf]
  · rintro (rfl | ⟨y, hpart, hx⟩)
    · cases x <;> simp [Expr.subterms]
    · cases hpart <;> simp only [Expr.subterms, List.mem_cons, List.mem_append,
        subtermsList_eq, subtermsFields_eq, subtermsUpdates_eq, subtermsArms_eq,
        mem_subtermsMatches, mem_subtermsDecls, List.mem_flatMap] <;> grind

theorem Bind.sizeOf_body_lt {b : Bind} (h : b.body = some x) : sizeOf x < sizeOf b := by
  obtain ⟨n, ps, body, sig, mono, prim, r⟩ := b
  obtain rfl : body = some x := h
  simp
  omega

theorem Match.HasBody.sizeOf_lt {m : Match} (h : m.HasBody x) : sizeOf x < sizeOf m := by
  cases h with
  | draw =>
    rw [Match.draw.sizeOf_spec]
    omega
  | define hbody =>
    have := Bind.sizeOf_body_lt hbody
    simp
    omega

theorem Decl.HasBody.sizeOf_lt {d : Decl} (h : d.HasBody x) : sizeOf x < sizeOf d := by
  induction h with
  | group hb hbody =>
    have h₁ := List.sizeOf_lt_of_mem hb
    have h₂ := Bind.sizeOf_body_lt hbody
    simp
    omega
  | submodule hd _ ih =>
    have := List.sizeOf_lt_of_mem hd
    simp
    omega

theorem Expr.PartOf.sizeOf_lt (h : x.PartOf e) : sizeOf x < sizeOf e := by
  cases h with
  | elem hx | item hx =>
    have := List.sizeOf_lt_of_mem hx
    simp
    omega
  | field hx | change hx | changer hx =>
    have := List.sizeOf_lt_of_mem hx
    simp at this ⊢
    omega
  | drawn harm hm hbody =>
    have h₁ := List.sizeOf_lt_of_mem harm
    have h₂ := List.sizeOf_lt_of_mem hm
    have h₃ := hbody.sizeOf_lt
    simp
    omega
  | «local» hd hbody =>
    have h₁ := List.sizeOf_lt_of_mem hd
    have h₂ := hbody.sizeOf_lt
    simp
    omega
  | _ =>
    simp
    try omega

theorem Expr.OccursIn.mem_subterms (h : x.OccursIn e) : x ∈ e.subterms := by
  induction h with
  | refl => exact Expr.mem_subterms_iff.mpr (Or.inl rfl)
  | tail _ hpart ih => exact Expr.mem_subterms_iff.mpr (Or.inr ⟨_, hpart, ih⟩)

theorem Expr.occursIn_of_mem_subterms {e : Expr} (h : x ∈ e.subterms) : x.OccursIn e := by
  rcases Expr.mem_subterms_iff.mp h with rfl | ⟨y, hpart, hx⟩
  · exact .refl
  · exact (Expr.occursIn_of_mem_subterms hx).tail hpart
termination_by sizeOf e
decreasing_by exact hpart.sizeOf_lt

/-- The traversal meets exactly what occurs in an expression. -/
theorem Expr.mem_subterms : x ∈ e.subterms ↔ x.OccursIn e :=
  ⟨Expr.occursIn_of_mem_subterms, Expr.OccursIn.mem_subterms⟩

theorem mem_varIds {id : Int} {es : List Expr} :
    id ∈ varIds es ↔ ∃ n : Name, n.id = id ∧ Expr.var n ∈ es := by
  rw [varIds, List.mem_filterMap]
  constructor
  · rintro ⟨e, he, hid⟩
    cases e <;> simp at hid
    exact ⟨_, hid, he⟩
  · rintro ⟨n, rfl, hn⟩
    exact ⟨_, hn, rfl⟩

/-- The traversal of a body finds the references of a binding. -/
theorem Bind.refersTo_iff {b b' : Bind} :
    b.RefersTo b' ↔ b'.name.id ∈ varIds b.subterms := by
  simp only [Bind.RefersTo, mem_varIds, Bind.mem_subterms, Expr.mem_subterms]
  grind

end SizedTypes.Surface
