import SizedTypes.Proofs.Ty.Shape
import SizedTypes.Proofs.Ty.WellFormed

/-!
# Well-kinded types

Every constructor stands with all of its arguments, each of the kind that it takes, and every
variable, parameter and abstract type has one kind throughout. A substitution that respects kinds
keeps types well-kinded and their kinds, and types that are the same have the same kind.

In a saturated type every constructor, synonym and newtype stands with exactly the arguments that
its kind demands, and no kind is left open. Other than for well-kinded types, the occurrences of one
variable need not agree on its kind.
-/

set_option autoImplicit false

namespace SizedTypes

/-- The kinds of variables, parameters and abstract types, by id. -/
structure KindEnv where
  var : Int → Kind
  param : Int → Kind
  abstract : Int → Kind

/-- An abstract type has its declared kind. -/
def Con.Declared (Γ : KindEnv) : Con → Prop
  | .abstract n k => k = Γ.abstract n.id
  | _ => True

theorem Con.kind_eq_of_key {Γ : KindEnv} {c d : Con} (hc : c.Declared Γ) (hd : d.Declared Γ)
    (h : c.key = d.key) : c.kind = d.kind := by
  cases c <;> cases d <;> simp_all [Con.key, Con.Declared, Con.kind]

namespace Kind

theorem afterArgs_arrows (ks : List Kind) (res : Kind) :
    (arrows ks res).afterArgs ks.length = res := by
  induction ks with
  | nil => cases res <;> rfl
  | cons k ks ih => exact ih

/-- A kind determines its result. -/
theorem arrows_inj {ks ks' : List Kind} {res res' : Kind} (h : arrows ks res = arrows ks' res')
    (hres : res.isArrow = false) (hres' : res'.isArrow = false) : res = res' := by
  induction ks generalizing ks' with
  | nil =>
    cases ks' with
    | nil => exact h
    | cons k' ks' =>
      obtain rfl : res = arrow k' (arrows ks' res') := h
      simp [isArrow] at hres
  | cons k ks ih =>
    cases ks' with
    | nil =>
      obtain rfl : arrow k (arrows ks res) = res' := h
      simp [isArrow] at hres'
    | cons k' ks' => exact ih (Kind.arrow.inj h).2

end Kind

theorem SizeOp.exists_kind_eq (f : SizeOp) : ∃ ks, f.kind = Kind.arrows ks .num := by
  cases f with
  | width => exact ⟨[.num], rfl⟩
  | lengthFromThenTo => exact ⟨[.num, .num, .num], rfl⟩
  | _ => exact ⟨[.num, .num], rfl⟩

namespace Ty

/-- A type whose constructors are applied to all of their arguments, at the right kinds. The
arguments of a synonym are kept for messages only. -/
inductive WellKinded (Γ : KindEnv) : Ty → Prop
  | free {v : TyVar} : v.kind = Γ.var v.id → WellKinded Γ (.free v)
  | bound {p : Param} : p.kind = Γ.param p.id → WellKinded Γ (.bound p)
  | con {c : Con} {args : List Ty} (res : Kind) : c.Declared Γ →
      (∀ a ∈ args, WellKinded Γ a) → c.kind = Kind.arrows (args.map kindOf) res →
      res.isArrow = false → WellKinded Γ (.con c args)
  | record {fs : List (String × Ty)} : (∀ f ∈ fs, WellKinded Γ f.2) →
      (∀ f ∈ fs, f.2.kindOf = .type) → WellKinded Γ (.record fs)
  | synonym {n : Name} {args : List Ty} {body : Ty} : WellKinded Γ body →
      WellKinded Γ (.synonym n args body)
  | newtype {n : Name} {ps : List Param} {fs : List (String × Ty)} {args : List Ty} :
      (∀ a ∈ args, WellKinded Γ a) → ps.map Param.kind = args.map kindOf →
      WellKinded Γ (.newtype n ps fs args)

theorem kindOf_expand : ∀ t : Ty, t.expand.kindOf = t.kindOf
  | .free _ | .bound _ | .con _ _ | .record _ | .newtype _ _ _ _ => rfl
  | .synonym _ _ body => kindOf_expand body

theorem WellKinded.expand {Γ : KindEnv} : ∀ {t : Ty}, t.WellKinded Γ → t.expand.WellKinded Γ
  | .free _, h | .bound _, h | .con _ _, h | .record _, h | .newtype _ _ _ _, h => h
  | .synonym _ _ _, .synonym h => h.expand

theorem kindOf_bind {f : TyVar → Ty} {g : Param → Ty} (hg : ∀ p, (g p).kindOf = p.kind) {t : Ty}
    (hf : ∀ v ∈ t.vars, (f v).kindOf = v.kind) : (t.bind f g).kindOf = t.kindOf := by
  induction t using Ty.induct with
  | free v => exact hf v (List.mem_singleton_self v)
  | bound p => exact hg p
  | con c args _ => rw [bind, kindOf, kindOf, bindList_eq_map, List.length_map]
  | record fs _ => rfl
  | newtype n ps fs args _ => rfl
  | synonym n args body _ ih => exact ih hf

/-- A substitution of variables that respects kinds keeps types well-kinded. -/
theorem WellKinded.bind {Γ : KindEnv} {f : TyVar → Ty} {t : Ty} (h : t.WellKinded Γ)
    (hf : ∀ v ∈ t.vars, (f v).WellKinded Γ ∧ (f v).kindOf = v.kind) :
    (t.bind f .bound).WellKinded Γ := by
  induction h with
  | @free v _ => exact (hf v (List.mem_singleton_self v)).1
  | bound hp => exact .bound hp
  | @con c args res hc _ hkind hres ih =>
    have hargs : ∀ a ∈ args, ∀ v ∈ a.vars, (f v).WellKinded Γ ∧ (f v).kindOf = v.kind := by
      intro a ha v hv
      refine hf v ?_
      rw [vars, varsList_eq_flatMap]
      exact List.mem_flatMap_of_mem ha hv
    rw [Ty.bind, bindList_eq_map]
    refine .con res hc ?_ ?_ hres
    · intro a ha
      obtain ⟨a', ha', rfl⟩ := List.mem_map.mp ha
      exact ih a' ha' (hargs a' ha')
    · rw [hkind, List.map_map]
      congr 1
      refine List.map_congr_left fun a ha => ?_
      exact (kindOf_bind (fun _ => rfl) fun v hv => (hargs a ha v hv).2).symm
  | @record fs _ hkind ih =>
    have hfs : ∀ e ∈ fs, ∀ v ∈ e.2.vars, (f v).WellKinded Γ ∧ (f v).kindOf = v.kind := by
      intro e he v hv
      refine hf v ?_
      rw [vars, varsFields_eq_flatMap]
      exact List.mem_flatMap_of_mem he hv
    rw [Ty.bind, bindFields_eq_map]
    refine .record ?_ ?_
    · intro e he
      obtain ⟨e', he', rfl⟩ := List.mem_map.mp he
      exact ih e' he' (hfs e' he')
    · intro e he
      obtain ⟨e', he', rfl⟩ := List.mem_map.mp he
      rw [← hkind e' he']
      exact kindOf_bind (fun _ => rfl) fun v hv => (hfs e' he' v hv).2
  | synonym _ ih => exact .synonym (ih hf)
  | @newtype n ps fs args _ hkind ih =>
    have hargs : ∀ a ∈ args, ∀ v ∈ a.vars, (f v).WellKinded Γ ∧ (f v).kindOf = v.kind := by
      intro a ha v hv
      refine hf v ?_
      rw [vars, varsList_eq_flatMap]
      exact List.mem_flatMap_of_mem ha hv
    rw [Ty.bind, bindList_eq_map]
    refine .newtype ?_ ?_
    · intro a ha
      obtain ⟨a', ha', rfl⟩ := List.mem_map.mp ha
      exact ih a' ha' (hargs a' ha')
    · rw [hkind, List.map_map]
      refine List.map_congr_left fun a ha => ?_
      exact (kindOf_bind (fun _ => rfl) fun v hv => (hargs a ha v hv).2).symm

theorem WellKinded.kind_of_mem_vars {Γ : KindEnv} {t : Ty} (h : t.WellKinded Γ) {v : TyVar}
    (hv : v ∈ t.vars) : v.kind = Γ.var v.id := by
  induction h with
  | free hk =>
    rw [vars, List.mem_singleton] at hv
    exact hv ▸ hk
  | bound _ => simp [vars] at hv
  | con _ _ _ _ _ ih =>
    rw [vars, varsList_eq_flatMap, List.mem_flatMap] at hv
    obtain ⟨a, ha, hv⟩ := hv
    exact ih a ha hv
  | record _ _ ih =>
    rw [vars, varsFields_eq_flatMap, List.mem_flatMap] at hv
    obtain ⟨f, hf, hv⟩ := hv
    exact ih f hf hv
  | synonym _ ih => exact ih hv
  | newtype _ _ ih =>
    rw [vars, varsList_eq_flatMap, List.mem_flatMap] at hv
    obtain ⟨a, ha, hv⟩ := hv
    exact ih a ha hv

theorem WellKinded.bind_var {Γ : KindEnv} {f : TyVar → Ty} {t : Ty} (h : t.WellKinded Γ)
    (hf : ∀ v ∈ t.vars, v.kind = Γ.var v.id → (f v).WellKinded Γ ∧ (f v).kindOf = v.kind) :
    (t.bind f .bound).WellKinded Γ :=
  h.bind fun v hv => hf v hv (h.kind_of_mem_vars hv)

theorem WellKinded.kindOf_op {Γ : KindEnv} {f : SizeOp} {args : List Ty}
    (h : (Ty.con (.op f) args).WellKinded Γ) : (Ty.con (.op f) args).kindOf = .num := by
  cases h with
  | @con _ _ res _ _ hkind hres =>
    obtain ⟨ks, hks⟩ := f.exists_kind_eq
    have hnum : res = .num := Kind.arrows_inj ((hkind.symm.trans hks)) hres rfl
    rw [kindOf, hkind, ← List.length_map (f := kindOf), Kind.afterArgs_arrows, hnum]

/-- Well-kinded types that are the same have the same kind. -/
theorem WellKinded.kindOf_eq {Γ : KindEnv} {a b : Ty} (ha : a.WellKinded Γ) (hb : b.WellKinded Γ)
    (h : a.shape = b.shape) : a.kindOf = b.kindOf := by
  rw [← kindOf_expand a, ← kindOf_expand b]
  rw [← shape_expand a, ← shape_expand b] at h
  have hna : ∀ n args body, a.expand ≠ .synonym n args body := fun _ _ _ => expand_ne_synonym
  have hnb : ∀ n args body, b.expand ≠ .synonym n args body := fun _ _ _ => expand_ne_synonym
  replace ha := ha.expand
  replace hb := hb.expand
  generalize a.expand = a at *
  generalize b.expand = b at *
  cases ha with
  | @synonym n args body _ => exact absurd rfl (hna n args body)
  | free hv =>
    cases hb with
    | @synonym n args body _ => exact absurd rfl (hnb n args body)
    | free hw => simp_all [kindOf]
    | _ => simp at h
  | bound hp =>
    cases hb with
    | @synonym n args body _ => exact absurd rfl (hnb n args body)
    | bound hq => simp_all [kindOf]
    | _ => simp at h
  | @con c as _ hc =>
    cases hb with
    | @synonym n args body _ => exact absurd rfl (hnb n args body)
    | @con d bs _ hd =>
      simp only [shape_con, Shape.node.injEq, ShapeHead.con.injEq] at h
      have hlen : as.length = bs.length := by simpa using congrArg List.length h.2
      rw [kindOf, kindOf, Con.kind_eq_of_key hc hd h.1, hlen]
    | _ => simp at h
  | record _ _ =>
    cases hb with
    | @synonym n args body _ => exact absurd rfl (hnb n args body)
    | record _ _ => rfl
    | _ => simp at h
  | newtype _ _ =>
    cases hb with
    | @synonym n args body _ => exact absurd rfl (hnb n args body)
    | newtype _ _ => rfl
    | _ => simp at h

end Ty

/-! ## Saturated types -/

namespace Kind

/-- The kinds of the arguments and that of the result are known. -/
def isDeclared : Kind → Bool
  | arrow dom cod => dom.isKnown && cod.isDeclared
  | k => k.isKnown

theorem isKnown_of_isDeclared {k : Kind} (h : k.isDeclared = true) : k.isKnown = true := by
  cases k <;> first | rfl | exact h

theorem isDeclared_arrows {ks : List Kind} {res : Kind} (hks : ∀ k ∈ ks, k.isKnown = true)
    (hres : res.isDeclared = true) : (arrows ks res).isDeclared = true := by
  induction ks with
  | nil => exact hres
  | cons k ks ih =>
    obtain ⟨hk, hks⟩ := List.forall_mem_cons.mp hks
    exact Bool.and_eq_true_iff.mpr ⟨hk, ih hks⟩

theorem isDeclared_of_isArrow {k : Kind} (hk : k.isKnown = true) (harrow : k.isArrow = false) :
    k.isDeclared = true := by
  cases k <;> first | exact hk | cases harrow

theorem orElse_of_isKnown {k : Kind} (h : k.isKnown = true) (other : Kind) :
    k.orElse other = k := if_pos h

theorem isKnown_orElse {k other : Kind} (h : other.isKnown = true) :
    (k.orElse other).isKnown = true := by
  unfold orElse
  split
  · assumption
  · exact h

theorem isArrow_of_arity {k : Kind} (h : k.arity = 0) : k.isArrow = false := by
  cases k <;> first | rfl | cases h

/-- A kind determines those of the arguments. -/
theorem arrows_inj_args {ks ks' : List Kind} {res res' : Kind} (h : arrows ks res = arrows ks' res')
    (hres : res.isArrow = false) (hres' : res'.isArrow = false) : ks = ks' := by
  induction ks generalizing ks' with
  | nil =>
    cases ks' with
    | nil => rfl
    | cons k' ks' =>
      obtain rfl : res = arrow k' (arrows ks' res') := h
      cases hres
  | cons k ks ih =>
    cases ks' with
    | nil =>
      obtain rfl : arrow k (arrows ks res) = res' := h
      cases hres'
    | cons k' ks' =>
      obtain ⟨rfl, htail⟩ := Kind.arrow.inj h
      rw [ih htail]

end Kind

/-- A parameter whose kind is known. -/
def Param.Kinded (p : Param) : Prop := p.kind.isKnown = true

namespace Ty

/-- A type in which all constructors, synonyms and newtypes are applied to exactly the arguments that
they take. `syn` has the kinds of the parameters of synonyms, by id, and `P` holds of the parameters
that occur. -/
inductive Saturated (syn : Int → List Kind) (P : Param → Prop) : Ty → Prop
  | free {v : TyVar} : v.kind.isKnown = true → Saturated syn P (.free v)
  | bound {p : Param} : p.Kinded → P p → Saturated syn P (.bound p)
  | con {c : Con} {args : List Ty} (res : Kind) : (∀ a ∈ args, Saturated syn P a) →
      c.kind = Kind.arrows (args.map kindOf) res → res.isKnown = true → res.isArrow = false →
      Saturated syn P (.con c args)
  | record {fs : List (String × Ty)} : (∀ f ∈ fs, Saturated syn P f.2) →
      (∀ f ∈ fs, f.2.kindOf = .type) → Saturated syn P (.record fs)
  | synonym {n : Name} {args : List Ty} {body : Ty} : Saturated syn P body →
      (∀ a ∈ args, Saturated syn P a) → args.map kindOf = syn n.id →
      Saturated syn P (.synonym n args body)
  | newtype {n : Name} {ps : List Param} {fs : List (String × Ty)} {args : List Ty} :
      (∀ a ∈ args, Saturated syn P a) → args.map kindOf = ps.map Param.kind →
      Saturated syn P (.newtype n ps fs args)

namespace Saturated

variable {syn : Int → List Kind} {P Q : Param → Prop}

theorem isKnown_kindOf {t : Ty} (h : t.Saturated syn P) : t.kindOf.isKnown = true := by
  induction h with
  | free hv => exact hv
  | bound hp _ => exact hp
  | @con c args res _ hkind hres _ _ =>
    have hlen : args.length = (args.map kindOf).length := (List.length_map _).symm
    rw [kindOf, hkind, hlen, Kind.afterArgs_arrows]
    exact hres
  | record _ _ _ => rfl
  | synonym _ _ _ ih _ => exact ih
  | newtype _ _ _ => rfl

/-- Types of the right kinds can be put in place of parameters. -/
theorem bind {g : Param → Ty} {t : Ty} (h : t.Saturated syn P)
    (hg : ∀ p, p.Kinded → P p → (g p).Saturated syn Q ∧ (g p).kindOf = p.kind) :
    (t.bind .free g).Saturated syn Q ∧ (t.bind .free g).kindOf = t.kindOf := by
  -- the arguments of an application keep their kinds, so that it stays saturated
  have hlist : ∀ args : List Ty,
      (∀ a ∈ args, (a.bind .free g).Saturated syn Q ∧ (a.bind .free g).kindOf = a.kindOf) →
      (∀ a ∈ bindList .free g args, a.Saturated syn Q) ∧
        (bindList .free g args).map kindOf = args.map kindOf := by
    intro args hargs
    rw [bindList_eq_map, List.map_map]
    exact ⟨List.forall_mem_map.mpr fun a ha => (hargs a ha).1,
      List.map_congr_left fun a ha => (hargs a ha).2⟩
  induction h with
  | free hv => exact ⟨.free hv, rfl⟩
  | bound hp hP => exact hg _ hp hP
  | @con c args res _ hkind hres harrow ih =>
    obtain ⟨hargs, hkinds⟩ := hlist args ih
    refine ⟨.con res hargs (hkinds.symm ▸ hkind) hres harrow, ?_⟩
    rw [Ty.bind, kindOf, kindOf, ← List.length_map (f := kindOf), hkinds, List.length_map]
  | @record fs _ hkind ih =>
    rw [Ty.bind, bindFields_eq_map]
    refine ⟨.record ?_ ?_, rfl⟩
    · exact List.forall_mem_map.mpr fun f hf => (ih f hf).1
    · exact List.forall_mem_map.mpr fun f hf => (ih f hf).2.trans (hkind f hf)
  | @synonym n args body _ _ hkinds ihbody ihargs =>
    obtain ⟨hargs, hkinds'⟩ := hlist args ihargs
    exact ⟨.synonym ihbody.1 hargs (hkinds'.trans hkinds), ihbody.2⟩
  | @newtype n ps fs args _ hkinds ih =>
    obtain ⟨hargs, hkinds'⟩ := hlist args ih
    exact ⟨.newtype hargs (hkinds'.trans hkinds), rfl⟩

/-- The body of a synonym at arguments of the right kinds, where the other parameters that it
mentions stay. -/
theorem instantiate {ps : List Param} {args : List Ty} {t : Ty}
    (h : t.Saturated syn fun p => ∀ q ∈ ps, q.id = p.id → q.kind = p.kind)
    (hargs : ∀ a ∈ args, a.Saturated syn fun _ => True) (hkinds : args.map kindOf = ps.map Param.kind) :
    (t.instantiate (Schema.assignment ps args)).Saturated syn (fun _ => True) ∧
      (t.instantiate (Schema.assignment ps args)).kindOf = t.kindOf := by
  refine h.bind fun p hp hdeclared => ?_
  cases hfind : (Schema.assignment ps args).find? p.id with
  | none => exact ⟨.bound hp True.intro, rfl⟩
  | some a =>
    obtain ⟨e, he, heq⟩ := List.mem_map.mp (Table.mem_ofList (Table.mem_of_find? hfind))
    obtain ⟨q, b⟩ := e
    obtain ⟨hid, rfl⟩ := Prod.mk.inj heq
    obtain ⟨hq, hb⟩ := List.of_mem_zip he
    have hkind : b.kindOf = q.kind := by
      obtain ⟨i, hi, hget⟩ := List.getElem_of_mem he
      rw [List.getElem_zip, Prod.mk.injEq] at hget
      have hat := congrArg (fun ks => ks[i]?) hkinds
      simp only [List.length_zip, lt_inf_iff] at hi
      simpa [hi.1, hi.2, hget.1, hget.2] using hat
    exact ⟨hargs b hb, hkind.trans (hdeclared q hq hid)⟩

end Saturated
end Ty
end SizedTypes
