import SizedTypes.Surface.Expr

/-!
# Programs with fewer local declarations

`e.Cut e'` says that `e'` is `e` with the declarations of some blocks, at any depth, cut off after
some point. The declarations of a module itself are all kept.
-/

set_option autoImplicit false

namespace SizedTypes.Surface

mutual
inductive Expr.Cut : Expr → Expr → Prop
  | same {e : Expr} : Expr.Cut e e
  | tuple {es es' : List Expr} : CutEach es es' → Expr.Cut (.tuple es) (.tuple es')
  | record {fs fs' : List (String × Expr)} : CutFields fs fs' → Expr.Cut (.record fs) (.record fs')
  | select {e e' : Expr} {sel : Selector} : Expr.Cut e e' →
      Expr.Cut (.select e sel) (.select e' sel)
  | update {e e' : Expr} {fs fs' : List (List Selector × UpdateHow × Expr)} : Expr.Cut e e' →
      CutUpdates fs fs' → Expr.Cut (.update e fs) (.update e' fs')
  | updater {fs fs' : List (List Selector × UpdateHow × Expr)} : CutUpdates fs fs' →
      Expr.Cut (.updater fs) (.updater fs')
  | list {es es' : List Expr} : CutEach es es' → Expr.Cut (.list es) (.list es')
  | from {first first' : Expr} : Expr.Cut first first' → Expr.Cut (.from first) (.from first')
  | fromThen {first next first' next' : Expr} : Expr.Cut first first' → Expr.Cut next next' →
      Expr.Cut (.fromThen first next) (.fromThen first' next')
  | comp {result result' : Expr} {arms arms' : List (List Match)} : Expr.Cut result result' →
      CutArms arms arms' → Expr.Cut (.comp result arms) (.comp result' arms')
  | app {f a f' a' : Expr} : Expr.Cut f f' → Expr.Cut a a' → Expr.Cut (.app f a) (.app f' a')
  | ifThenElse {c t e c' t' e' : Expr} : Expr.Cut c c' → Expr.Cut t t' → Expr.Cut e e' →
      Expr.Cut (.ifThenElse c t e) (.ifThenElse c' t' e')
  | block {body body' : Expr} {ds ds' : List Decl} : Expr.Cut body body' → CutDecls true ds ds' →
      Expr.Cut (.block body ds) (.block body' ds')
  | typed {e e' : Expr} {t : TypeExpr} : Expr.Cut e e' → Expr.Cut (.typed e t) (.typed e' t)
  | lambda {ps : List Pattern} {body body' : Expr} : Expr.Cut body body' →
      Expr.Cut (.lambda ps body) (.lambda ps body')
  | located {r : Range} {e e' : Expr} : Expr.Cut e e' → Expr.Cut (.located r e) (.located r e')

inductive CutEach : List Expr → List Expr → Prop
  | nil : CutEach [] []
  | cons {e e' : Expr} {es es' : List Expr} : Expr.Cut e e' → CutEach es es' →
      CutEach (e :: es) (e' :: es')

inductive CutFields : List (String × Expr) → List (String × Expr) → Prop
  | nil : CutFields [] []
  | cons {l : String} {e e' : Expr} {fs fs' : List (String × Expr)} : Expr.Cut e e' →
      CutFields fs fs' → CutFields ((l, e) :: fs) ((l, e') :: fs')

inductive CutUpdates : List (List Selector × UpdateHow × Expr) →
    List (List Selector × UpdateHow × Expr) → Prop
  | nil : CutUpdates [] []
  | cons {path : List Selector} {how : UpdateHow} {e e' : Expr}
      {fs fs' : List (List Selector × UpdateHow × Expr)} : Expr.Cut e e' → CutUpdates fs fs' →
      CutUpdates ((path, how, e) :: fs) ((path, how, e') :: fs')

inductive CutArms : List (List Match) → List (List Match) → Prop
  | nil : CutArms [] []
  | cons {ms ms' : List Match} {arms arms' : List (List Match)} : CutMatches ms ms' →
      CutArms arms arms' → CutArms (ms :: arms) (ms' :: arms')

inductive CutMatches : List Match → List Match → Prop
  | nil : CutMatches [] []
  | draw {p : Pattern} {e e' : Expr} {ms ms' : List Match} : Expr.Cut e e' → CutMatches ms ms' →
      CutMatches (.draw p e :: ms) (.draw p e' :: ms')
  | define {b b' : Bind} {ms ms' : List Match} : Bind.Cut b b' → CutMatches ms ms' →
      CutMatches (.define b :: ms) (.define b' :: ms')

inductive Bind.Cut : Bind → Bind → Prop
  | same {b : Bind} : Bind.Cut b b
  | body {n : Name} {ps : List Pattern} {e e' : Expr} {sig : Option Signature} {mono prim : Bool}
      {r : Range} : Expr.Cut e e' →
      Bind.Cut (.mk n ps (some e) sig mono prim r) (.mk n ps (some e') sig mono prim r)

inductive CutBinds : List Bind → List Bind → Prop
  | nil : CutBinds [] []
  | cons {b b' : Bind} {bs bs' : List Bind} : Bind.Cut b b' → CutBinds bs bs' →
      CutBinds (b :: bs) (b' :: bs')

/-- Only `inBlock` may the declarations themselves stop early. -/
inductive CutDecl : (inBlock : Bool) → Decl → Decl → Prop
  | same {inBlock : Bool} {d : Decl} : CutDecl inBlock d d
  | group {inBlock recursive : Bool} {bs bs' : List Bind} : CutBinds bs bs' →
      CutDecl inBlock (.group recursive bs) (.group recursive bs')
  | submodule {inBlock : Bool} {n : Name} {ds ds' : List Decl} {r : Range} :
      CutDecls inBlock ds ds' → CutDecl inBlock (.submodule n ds r) (.submodule n ds' r)

inductive CutDecls : (inBlock : Bool) → List Decl → List Decl → Prop
  | nil {inBlock : Bool} : CutDecls inBlock [] []
  | cons {inBlock : Bool} {d d' : Decl} {ds ds' : List Decl} : CutDecl inBlock d d' →
      CutDecls inBlock ds ds' → CutDecls inBlock (d :: ds) (d' :: ds')
  | stop {ds : List Decl} : CutDecls true ds []
end

/-! ## Nothing cut off -/

theorem CutEach.refl (es : List Expr) : CutEach es es := by
  induction es with
  | nil => exact .nil
  | cons e es ih => exact .cons .same ih

theorem CutFields.refl (fs : List (String × Expr)) : CutFields fs fs := by
  induction fs with
  | nil => exact .nil
  | cons f fs ih => exact .cons .same ih

theorem CutUpdates.refl (fs : List (List Selector × UpdateHow × Expr)) : CutUpdates fs fs := by
  induction fs with
  | nil => exact .nil
  | cons f fs ih => exact .cons .same ih

theorem CutMatches.refl (ms : List Match) : CutMatches ms ms := by
  induction ms with
  | nil => exact .nil
  | cons m ms ih =>
    cases m with
    | draw p e => exact .draw .same ih
    | define b => exact .define .same ih

theorem CutArms.refl (arms : List (List Match)) : CutArms arms arms := by
  induction arms with
  | nil => exact .nil
  | cons ms arms ih => exact .cons (.refl ms) ih

theorem CutBinds.refl (bs : List Bind) : CutBinds bs bs := by
  induction bs with
  | nil => exact .nil
  | cons b bs ih => exact .cons .same ih

theorem CutDecls.refl (inBlock : Bool) (ds : List Decl) : CutDecls inBlock ds ds := by
  induction ds with
  | nil => exact .nil
  | cons d ds ih => exact .cons .same ih

/-! ## What a cut keeps -/

theorem Expr.Cut.range_eq {e e' : Expr} (h : e.Cut e') : e'.range = e.range := by
  cases h <;> rfl

theorem Expr.Cut.spineLength_eq : ∀ {e e' : Expr}, e.Cut e' → e'.spineLength = e.spineLength
  | .app f a, _, h => by
    cases h with
    | same => rfl
    | app hf ha => exact congrArg (· + 1) hf.spineLength_eq
  | .var _, _, h | .num .., _, h | .frac .., _, h | .char _, _, h | .string _, _, h
  | .tuple _, _, h | .record _, _, h | .select .., _, h | .update .., _, h | .updater _, _, h
  | .list _, _, h | .enumeration _, _, h | .from _, _, h | .fromThen .., _, h | .comp .., _, h
  | .typeApp .., _, h | .ifThenElse .., _, h | .block .., _, h | .typed .., _, h
  | .typeValue _, _, h | .lambda .., _, h | .located .., _, h => by cases h <;> rfl

theorem CutEach.length_eq : ∀ {es es' : List Expr}, CutEach es es' → es'.length = es.length
  | [], _, .nil => rfl
  | _ :: _, _, .cons _ h => congrArg (· + 1) h.length_eq

theorem CutFields.labels_eq : ∀ {fs fs' : List (String × Expr)}, CutFields fs fs' →
    fs'.map Prod.fst = fs.map Prod.fst
  | [], _, .nil => rfl
  | _ :: _, _, .cons _ h => congrArg (List.cons _) h.labels_eq

/-- What does not depend on the body of a binding stays the same. -/
theorem CutBinds.map_eq {β : Type} (f : Bind → β) (hf : ∀ {b b'}, Bind.Cut b b' → f b' = f b) :
    ∀ {bs bs' : List Bind}, CutBinds bs bs' → bs'.map f = bs.map f
  | [], _, .nil => rfl
  | _ :: _, _, .cons h hbs => by rw [List.map_cons, List.map_cons, hf h, hbs.map_eq f hf]

/-! ## Programs without blocks -/

/-- No expression is a block. -/
def Blockless (es : List Expr) : Prop := ∀ e ∈ es, e.form ≠ "Where"

@[simp] theorem blockless_cons {e : Expr} {es : List Expr} :
    Blockless (e :: es) ↔ e.form ≠ "Where" ∧ Blockless es := List.forall_mem_cons

@[simp] theorem blockless_append {es es' : List Expr} :
    Blockless (es ++ es') ↔ Blockless es ∧ Blockless es' := List.forall_mem_append

mutual
theorem Expr.Cut.eq_of_blockless : ∀ {e e' : Expr}, e.Cut e' → Blockless e.subterms → e' = e
  | _, _, .same, _ => rfl
  | _, _, .tuple h, hb => by
    simp only [Expr.subterms, blockless_cons] at hb
    rw [h.eq_of_blockless hb.2]
  | _, _, .record h, hb => by
    simp only [Expr.subterms, blockless_cons] at hb
    rw [h.eq_of_blockless hb.2]
  | _, _, .select h, hb => by
    simp only [Expr.subterms, blockless_cons] at hb
    rw [h.eq_of_blockless hb.2]
  | _, _, .update h hfs, hb => by
    simp only [Expr.subterms, blockless_cons, blockless_append] at hb
    rw [h.eq_of_blockless hb.2.1, hfs.eq_of_blockless hb.2.2]
  | _, _, .updater h, hb => by
    simp only [Expr.subterms, blockless_cons] at hb
    rw [h.eq_of_blockless hb.2]
  | _, _, .list h, hb => by
    simp only [Expr.subterms, blockless_cons] at hb
    rw [h.eq_of_blockless hb.2]
  | _, _, .from h, hb => by
    simp only [Expr.subterms, blockless_cons] at hb
    rw [h.eq_of_blockless hb.2]
  | _, _, .fromThen h h', hb => by
    simp only [Expr.subterms, blockless_cons, blockless_append] at hb
    rw [h.eq_of_blockless hb.2.1, h'.eq_of_blockless hb.2.2]
  | _, _, .comp h harms, hb => by
    simp only [Expr.subterms, blockless_cons, blockless_append] at hb
    rw [h.eq_of_blockless hb.2.1, harms.eq_of_blockless hb.2.2]
  | _, _, .app hf ha, hb => by
    simp only [Expr.subterms, blockless_cons, blockless_append] at hb
    rw [hf.eq_of_blockless hb.2.1, ha.eq_of_blockless hb.2.2]
  | _, _, .ifThenElse hc ht he, hb => by
    simp only [Expr.subterms, blockless_cons, blockless_append] at hb
    rw [hc.eq_of_blockless hb.2.1, ht.eq_of_blockless hb.2.2.1, he.eq_of_blockless hb.2.2.2]
  | _, _, .block _ _, hb => by
    simp only [Expr.subterms, blockless_cons] at hb
    exact absurd rfl hb.1
  | _, _, .typed h, hb => by
    simp only [Expr.subterms, blockless_cons] at hb
    rw [h.eq_of_blockless hb.2]
  | _, _, .lambda h, hb => by
    simp only [Expr.subterms, blockless_cons] at hb
    rw [h.eq_of_blockless hb.2]
  | _, _, .located h, hb => by
    simp only [Expr.subterms, blockless_cons] at hb
    rw [h.eq_of_blockless hb.2]

theorem CutEach.eq_of_blockless : ∀ {es es' : List Expr}, CutEach es es' →
    Blockless (subtermsList es) → es' = es
  | _, _, .nil, _ => rfl
  | _, _, .cons h hes, hb => by
    simp only [subtermsList, blockless_append] at hb
    rw [h.eq_of_blockless hb.1, hes.eq_of_blockless hb.2]

theorem CutFields.eq_of_blockless : ∀ {fs fs' : List (String × Expr)}, CutFields fs fs' →
    Blockless (subtermsFields fs) → fs' = fs
  | _, _, .nil, _ => rfl
  | _, _, .cons h hfs, hb => by
    simp only [subtermsFields, blockless_append] at hb
    rw [h.eq_of_blockless hb.1, hfs.eq_of_blockless hb.2]

theorem CutUpdates.eq_of_blockless : ∀ {fs fs' : List (List Selector × UpdateHow × Expr)},
    CutUpdates fs fs' → Blockless (subtermsUpdates fs) → fs' = fs
  | _, _, .nil, _ => rfl
  | _, _, .cons h hfs, hb => by
    simp only [subtermsUpdates, blockless_append] at hb
    rw [h.eq_of_blockless hb.1, hfs.eq_of_blockless hb.2]

theorem CutArms.eq_of_blockless : ∀ {arms arms' : List (List Match)}, CutArms arms arms' →
    Blockless (subtermsArms arms) → arms' = arms
  | _, _, .nil, _ => rfl
  | _, _, .cons h harms, hb => by
    simp only [subtermsArms, blockless_append] at hb
    rw [h.eq_of_blockless hb.1, harms.eq_of_blockless hb.2]

theorem CutMatches.eq_of_blockless : ∀ {ms ms' : List Match}, CutMatches ms ms' →
    Blockless (subtermsMatches ms) → ms' = ms
  | _, _, .nil, _ => rfl
  | _, _, .draw h hms, hb => by
    simp only [subtermsMatches, blockless_append] at hb
    rw [h.eq_of_blockless hb.1, hms.eq_of_blockless hb.2]
  | _, _, .define h hms, hb => by
    simp only [subtermsMatches, blockless_append] at hb
    rw [h.eq_of_blockless hb.1, hms.eq_of_blockless hb.2]

theorem Bind.Cut.eq_of_blockless : ∀ {b b' : Bind}, b.Cut b' → Blockless b.subterms → b' = b
  | _, _, .same, _ => rfl
  | _, _, .body h, hb => by
    rw [Bind.subterms] at hb
    rw [h.eq_of_blockless hb]

theorem CutBinds.eq_of_blockless : ∀ {bs bs' : List Bind}, CutBinds bs bs' →
    Blockless (subtermsBinds bs) → bs' = bs
  | _, _, .nil, _ => rfl
  | _, _, .cons h hbs, hb => by
    simp only [subtermsBinds, blockless_append] at hb
    rw [h.eq_of_blockless hb.1, hbs.eq_of_blockless hb.2]

theorem CutDecls.eq_of_blockless : ∀ {ds ds' : List Decl}, CutDecls false ds ds' →
    Blockless (subtermsDecls ds) → ds' = ds
  | _, _, .nil, _ => rfl
  | _, _, .cons .same hds, hb => by
    rename_i d ds _
    have hrest : Blockless (subtermsDecls ds) := by
      cases d <;> simp_all [subtermsDecls]
    rw [hds.eq_of_blockless hrest]
  | _, _, .cons (.group h) hds, hb => by
    simp only [subtermsDecls, blockless_append] at hb
    rw [h.eq_of_blockless hb.1, hds.eq_of_blockless hb.2]
  | _, _, .cons (.submodule h) hds, hb => by
    simp only [subtermsDecls, blockless_append] at hb
    rw [h.eq_of_blockless hb.1, hds.eq_of_blockless hb.2]
end

end SizedTypes.Surface
