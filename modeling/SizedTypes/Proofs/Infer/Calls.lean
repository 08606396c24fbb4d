import SizedTypes.Infer.Literals
import SizedTypes.Proofs.Infer.Kinding

/-!
# Uses of variables, primitives and literals are well-typed

A use instantiates the schema of its variable at types for all parameters, so it has the type of
the instance, and an accepted run makes that the expected type.
-/

set_option autoImplicit false

namespace SizedTypes

open SizedTypes.Core (Env Term)

theorem length_freshArgs (given : Table Int Ty) (scope : List Param)
    (source : Nat → Param → Option TypeSource) (i : Nat) (ps : List Param) (next : Int) :
    (freshArgs given scope source i ps next).1.length = ps.length := by
  induction ps generalizing i next with
  | nil => rfl
  | cons p ps ih =>
    rw [freshArgs]
    split
    · exact congrArg (· + 1) (ih ..)
    · exact congrArg (· + 1) (ih ..)

/-- As many ids are drawn as parameters are not given. -/
theorem next_freshArgs (given : Table Int Ty) (scope : List Param)
    (source : Nat → Param → Option TypeSource) (i : Nat) (ps : List Param) (next : Int) :
    (freshArgs given scope source i ps next).2 =
      Word.next^[ps.countP fun p => !given.has p.id] next := by
  induction ps generalizing i next with
  | nil => rfl
  | cons p ps ih =>
    rw [freshArgs, List.countP_cons]
    split
    · rename_i t hfind
      simpa [Table.has, hfind] using ih (i + 1) next
    · rename_i hfind
      simpa [Table.has, hfind, Function.iterate_succ_apply] using ih (i + 1) (Word.next next)

theorem wellFormed_freshArgs {W : Setting} {given : Table Int Ty} {scope : List Param}
    {source : Nat → Param → Option TypeSource} {i : Nat} {ps : List Param} {next : Int}
    (hgiven : ∀ j t, given.find? j = some t → t.WellFormed W) (hscope : ∀ p ∈ scope, W.scope p.id) :
    ∀ t ∈ (freshArgs given scope source i ps next).1, t.WellFormed W := by
  induction ps generalizing i next with
  | nil => exact List.forall_mem_nil _
  | cons p ps ih =>
    rw [freshArgs]
    split
    · rename_i t ht
      exact List.forall_mem_cons.mpr ⟨hgiven _ t ht, ih⟩
    · refine List.forall_mem_cons.mpr ⟨.free fun j hj => ?_, ih⟩
      obtain ⟨q, hq, rfl⟩ := List.mem_map.mp (List.mem_eraseDups.mp hj)
      exact hscope q hq

theorem Schema.WellFormed.applySchema {W : Setting} {sc : Schema} (h : sc.WellFormed W) {θ : Subst}
    (hθ : θ.WellFormed W) : (θ.applySchema sc).WellFormed W where
  body := hθ.apply h.body
  params := h.params
  hygienic := by
    refine h.hygienic.imp_left fun hclosed => ?_
    have hunbound : ∀ i ∈ sc.body.varIds, θ.lookup i = none := by
      rw [hclosed]
      exact List.forall_mem_nil _
    show (θ.apply sc.body).varIds = []
    rw [Ty.varIds, Subst.vars_apply_eq_self hunbound]
    exact hclosed

namespace Infer

variable {W : Setting} {E : External} {c : Context} {s s' : State}

theorem returns_lookupVar {n : Name} {v : VarType} (h : Returns (lookupVar n) c s v s') :
    s' = s ∧ s.typeOf c.external n.id = some v := by
  unfold lookupVar at h
  rw [returns_get_bind] at h
  split at h
  · rename_i v' hv
    rw [returns_pure] at h
    obtain ⟨rfl, rfl⟩ := h
    exact ⟨rfl, by rw [State.typeOf, hv, Option.some_or]⟩
  · rename_i hnone
    rw [returns_read_bind] at h
    split at h
    · rename_i sc hsc
      rw [returns_pure] at h
      obtain ⟨rfl, rfl⟩ := h
      exact ⟨rfl, by rw [State.typeOf, hnone, hsc]; rfl⟩
    · exact absurd h not_returns_throw

theorem returns_instantiate {sc : Schema} {given : Table Int Ty} {source : Nat → Param → TypeSource}
    {inst : Instance} (h : Returns (instantiate sc given source) c s inst s')
    (hs : s.WellFormed W E) (hgiven : ∀ j t, given.find? j = some t → t.WellFormed W) :
    Extends W E 0 s s' ∧ inst.args.length = sc.params.length ∧
      (∀ t ∈ inst.args, t.WellFormed W) ∧ inst.props.length = sc.props.length ∧
      inst.body = (sc.instantiate inst.args).2 := by
  unfold instantiate at h
  simp only [returns_get_bind, returns_set_bind, returns_pure] at h
  obtain ⟨rfl, rfl⟩ := h
  exact ⟨.of_fields rfl rfl rfl rfl rfl rfl rfl List.prefix_rfl List.prefix_rfl,
    length_freshArgs .., wellFormed_freshArgs hgiven hs.params, List.length_map .., rfl⟩

theorem wellFormed_instantiate {sc : Schema} {args : List Ty} (hsc : sc.WellFormed W)
    (hargs : ∀ t ∈ args, t.WellFormed W) : (sc.instantiate args).2.WellFormed W := by
  refine hsc.body.instantiate fun i u hu => ?_
  obtain ⟨e, he, heq⟩ := List.mem_map.mp (Table.mem_ofList (Table.mem_of_find? hu))
  obtain ⟨rfl, rfl⟩ := Prod.mk.inj heq
  obtain ⟨hp, ha⟩ := List.of_mem_zip he
  exact ⟨hargs _ ha, hsc.params _ hp⟩

/-- What a use of the variable `n` at its schema so far comes to. -/
theorem returns_use {n : Name} {schema : Schema} {given : Table Int Ty}
    {source : Nat → Param → TypeSource} {src : GoalSource} {exp : Expected} {out : Term}
    (h : Returns (do
      let inst ← instantiate (s.subst.applySchema schema) given source
      addGoals src inst.props
      unifyExact exp inst.body
      return (Term.var n).instantiated inst.args inst.props.length) c s out s')
    (hs : s.WellFormed W E) (hexp : exp.type.WellFormed W) (hsc : schema.WellFormed W)
    (hgiven : ∀ j t, given.find? j = some t → t.WellFormed W) :
    Extends W E 0 s s' ∧ ∀ (V : Reading W) (Γ : Env) (sc' : Schema), V.Accepts s s' →
      Γ n.id = some sc' → V.Reads sc' schema → V.Typed Γ out exp.type := by
  simp only [returns_bind, returns_pure] at h
  obtain ⟨inst, s₁, hinst, ⟨⟩, s₂, hgoals, ⟨⟩, s₃, hunify, rfl, rfl⟩ := h
  have hsc₁ := hsc.applySchema hs.subst
  obtain ⟨hext₁, hlen, hargs, hprops, hbody⟩ := returns_instantiate hinst hs hgiven
  obtain ⟨hext₂, -⟩ := returns_addGoals (W := W) (E := E) hgoals
  have hs₂ := hext₂.wellFormed (hext₁.wellFormed hs)
  rw [hbody] at hunify
  obtain ⟨hext₃, hsame⟩ := returns_unifyFrom hunify hs₂ hexp (wellFormed_instantiate hsc₁ hargs)
  have hext := (hext₁.trans hext₂).trans hext₃
  refine ⟨hext, fun V Γ sc' hV hn hreads => ?_⟩
  have hsolves := (hV.left (Extends.refl (W := W) (E := E) s) hext).solves
  have htyped := Reading.Typed.use hn (hreads.applySchema hsolves) hsc₁ hlen
  rw [hprops]
  exact htyped.conv (hsame V (hV.right (hext₁.trans hext₂) hext₃)).symm

theorem returns_checkVar {n : Name} {exp : Expected} {out : Term}
    (h : Returns (checkVar n [] exp) c s out s') (hc : c.external = E) (hs : s.WellFormed W E)
    (hexp : exp.type.WellFormed W) :
    Extends W E 0 s s' ∧ ∀ (V : Reading W) (P : Int → Prop) (Γ : Env), V.Accepts s s' → P n.id →
      V.Agrees P E s Γ → V.Typed Γ out exp.type := by
  unfold checkVar at h
  rw [returns_bind] at h
  obtain ⟨v, s₁, hlookup, h⟩ := h
  obtain ⟨rfl, hv⟩ := returns_lookupVar hlookup
  rw [hc] at hv
  obtain ⟨schema, rfl, hsc⟩ := hs.vars n.id v hv
  simp only [returns_get_bind, typeArgs, positionalArgs, List.all_nil, if_true, pure_bind] at h
  obtain ⟨hext, htyped⟩ := returns_use h hs hexp hsc (by simp [Table.find?])
  refine ⟨hext, fun V P Γ hV hn hagrees => ?_⟩
  obtain ⟨sc', hsc', hreads⟩ := hagrees n.id hn schema hv
  exact htyped V Γ sc' hV hsc' hreads

theorem returns_checkPrim {src : GoalSource} {ident : String} {args : List (String × Ty)}
    {exp : Expected} {out : Term} (h : Returns (checkPrim src ident args exp) c s out s')
    (hc : c.external = E) (hs : s.WellFormed W E) (hexp : exp.type.WellFormed W)
    (hargs : ∀ a ∈ args, a.2.WellFormed W) :
    Extends W E 0 s s' ∧ ∃ n, c.prims.lookup ident = some n ∧
      ∀ (V : Reading W) (P : Int → Prop) (Γ : Env), V.Accepts s s' → P n.id → V.Agrees P E s Γ →
        V.Typed Γ out exp.type := by
  unfold checkPrim prim at h
  simp only [bind_assoc, returns_read_bind] at h
  split at h
  · rename_i n hn
    rw [pure_bind, returns_bind] at h
    obtain ⟨v, s₁, hlookup, h⟩ := h
    obtain ⟨rfl, hv⟩ := returns_lookupVar hlookup
    rw [hc] at hv
    obtain ⟨schema, rfl, hsc⟩ := hs.vars n.id v hv
    simp only [pure_bind, returns_get_bind] at h
    split at h
    · simp at h
    · obtain ⟨hext, htyped⟩ := returns_use h hs hexp hsc fun j t hj => by
        -- every given type is one of the arguments
        obtain ⟨p, -, hp⟩ := List.mem_filterMap.mp (Table.mem_ofList (Table.mem_of_find? hj))
        obtain ⟨u, hu, heq⟩ := Option.map_eq_some_iff.mp hp
        obtain ⟨-, rfl⟩ := Prod.mk.inj heq
        obtain ⟨l, -, hl⟩ := Option.bind_eq_some_iff.mp hu
        obtain ⟨before, after, rfl, -⟩ := List.lookup_eq_some_iff.mp hl
        exact hargs (l, u) (by simp)
      refine ⟨hext, n, hn, fun V P Γ hV hlt hagrees => ?_⟩
      obtain ⟨sc', hsc', hreads⟩ := hagrees n.id hlt schema hv
      exact htyped V Γ sc' hV hsc' hreads
  · simp at h

/-! ## Literals -/

/-- The ids of the primitives of literals satisfy `P`. -/
def PrimsIn (P : Int → Prop) (c : Context) : Prop :=
  ∀ ident ∈ ["number", "fraction"], ∀ n, c.prims.lookup ident = some n → P n.id

theorem wellFormed_num (n : Int) : (Ty.num n).WellFormed W := .con rfl (List.forall_mem_nil _)

theorem wellFormed_word {n : Ty} (h : n.WellFormed W) : (Ty.word n).WellFormed W := by
  have hbit : Ty.bit.WellFormed W := .con rfl (List.forall_mem_nil _)
  exact .con rfl (by simp [h, hbit])

theorem wellFormed_charType : charType.WellFormed W := wellFormed_word (wellFormed_num 8)

theorem returns_checkNumber {val rep : Ty} {exp : Expected} {out : Term}
    (h : Returns (checkNumber val rep exp) c s out s') (hc : c.external = E)
    (hs : s.WellFormed W E) (hexp : exp.type.WellFormed W) (hval : val.WellFormed W)
    (hrep : rep.WellFormed W) :
    Extends W E 0 s s' ∧ ∀ (V : Reading W) (P : Int → Prop) (Γ : Env), V.Accepts s s' →
      PrimsIn P c → V.Agrees P E s Γ → V.Typed Γ out exp.type := by
  obtain ⟨hext, n, hn, htyped⟩ := returns_checkPrim h hc hs hexp (by simp [hval, hrep])
  exact ⟨hext, fun V P Γ hV hprims => htyped V P Γ hV (hprims "number" (by simp) n hn)⟩

theorem returns_checkNum {value base digits : Int} {exp : Expected} {out : Term}
    (h : Returns (checkNum value base digits exp) c s out s') (hc : c.external = E)
    (hs : s.WellFormed W E) (hexp : exp.type.WellFormed W) :
    Extends W E 0 s s' ∧ ∀ (V : Reading W) (P : Int → Prop) (Γ : Env), V.Accepts s s' →
      PrimsIn P c → V.Agrees P E s Γ → V.Typed Γ out exp.type := by
  refine returns_checkNumber h hc hs hexp (wellFormed_num value) ?_
  split
  · exact wellFormed_word (wellFormed_num _)
  · exact hexp

theorem returns_checkFrac {num den : Int} {exp : Expected} {out : Term}
    (h : Returns (checkFrac num den exp) c s out s') (hc : c.external = E)
    (hs : s.WellFormed W E) (hexp : exp.type.WellFormed W) :
    Extends W E 0 s s' ∧ ∀ (V : Reading W) (P : Int → Prop) (Γ : Env), V.Accepts s s' →
      PrimsIn P c → V.Agrees P E s Γ → V.Typed Γ out exp.type := by
  obtain ⟨hext, n, hn, htyped⟩ := returns_checkPrim h hc hs hexp (by simp [wellFormed_num, hexp])
  exact ⟨hext, fun V P Γ hV hprims => htyped V P Γ hV (hprims "fraction" (by simp) n hn)⟩

theorem returns_checkChar {code : Int} {exp : Expected} {out : Term}
    (h : Returns (checkChar code exp) c s out s') (hc : c.external = E)
    (hs : s.WellFormed W E) (hexp : exp.type.WellFormed W) :
    Extends W E 0 s s' ∧ ∀ (V : Reading W) (P : Int → Prop) (Γ : Env), V.Accepts s s' →
      PrimsIn P c → V.Agrees P E s Γ → V.Typed Γ out exp.type :=
  returns_checkNumber h hc hs hexp (wellFormed_num code) wellFormed_charType

/-- The characters of a string, one after the other. -/
theorem returns_checkChars {cs : List Char} {outs : List Term}
    (h : Returns (cs.mapM fun ch => checkChar ch.toNat ⟨charType, .seqElement⟩) c s outs s')
    (hc : c.external = E) (hs : s.WellFormed W E) :
    Extends W E 0 s s' ∧ outs.length = cs.length ∧
      ∀ (V : Reading W) (P : Int → Prop) (Γ : Env), V.Accepts s s' → PrimsIn P c → V.Agrees P E s Γ →
        ∀ out ∈ outs, V.Typed Γ out charType := by
  induction cs generalizing s outs with
  | nil =>
    rw [returns_mapM_nil] at h
    obtain ⟨rfl, rfl⟩ := h
    exact ⟨.refl _, rfl, fun _ _ _ _ _ _ _ ho => nomatch ho⟩
  | cons ch cs ih =>
    rw [returns_mapM_cons] at h
    obtain ⟨out, s₁, outs', hch, hcs, rfl⟩ := h
    obtain ⟨hext, htyped⟩ := returns_checkChar hch hc hs wellFormed_charType
    obtain ⟨hexts, hlen, htypeds⟩ := ih hcs (hext.wellFormed hs)
    refine ⟨hext.trans hexts, congrArg (· + 1) hlen, fun V P Γ hV hprims hagrees => ?_⟩
    exact List.forall_mem_cons.mpr ⟨htyped V P Γ (hV.left hext hexts) hprims hagrees,
      htypeds V P Γ (hV.right hext hexts) hprims (hagrees.extends hext)⟩

theorem returns_checkString {str : String} {exp : Expected} {out : Term}
    (h : Returns (checkString str exp) c s out s') (hc : c.external = E)
    (hs : s.WellFormed W E) (hexp : exp.type.WellFormed W) :
    Extends W E 0 s s' ∧ ∀ (V : Reading W) (P : Int → Prop) (Γ : Env), V.Accepts s s' →
      PrimsIn P c → V.Agrees P E s Γ → V.Typed Γ out exp.type := by
  unfold checkString at h
  simp only [returns_bind, returns_pure] at h
  obtain ⟨⟨⟩, s₁, hunify, outs, s₂, hchars, rfl, rfl⟩ := h
  have hseq : (Ty.seq (.num str.length) charType).WellFormed W :=
    .con rfl (by simp [wellFormed_num, wellFormed_charType])
  obtain ⟨hext₁, hsame⟩ := returns_unifyFrom hunify hs hexp hseq
  obtain ⟨hext₂, hlen, htyped⟩ := returns_checkChars hchars hc (hext₁.wellFormed hs)
  refine ⟨hext₁.trans hext₂, fun V P Γ hV hprims hagrees => ?_⟩
  have hchars := htyped V P Γ (hV.right hext₁ hext₂) hprims (hagrees.extends hext₁)
  have hlist := Reading.Typed.list hchars
  rw [hlen, String.length_toList] at hlist
  exact hlist.conv (hsame V (hV.left hext₁ hext₂)).symm

end Infer
end SizedTypes
