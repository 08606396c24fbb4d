import SizedTypes.Infer.Expr
import SizedTypes.Proofs.Infer.Calls
import SizedTypes.Proofs.Infer.Params.Goals
import SizedTypes.Proofs.Infer.Params.Types

/-!
# The parameters of uses and bindings

A use of a variable draws a variable for each parameter that is not given. The types of literals,
of pattern variables and of bindings have no parameters but those that are around.
-/

set_option autoImplicit false

namespace SizedTypes.Infer

open Surface (Bind Enumeration Pattern TypeArg TypeExpr UpdateHow)
open SizedTypes.Core (Decl Term)

variable {K K' : Set Int}

/-! ## Instances -/

/-- An instance draws as many ids as parameters are not given. -/
theorem freshArgs_spec {given : Table Int Ty} (hgiven : ∀ e ∈ given, e.2.ParamsIn K)
    (scope : List Param) (source : Nat → Param → Option TypeSource) (i : Nat) (ps : List Param)
    (next : Int) : (∀ t ∈ (freshArgs given scope source i ps next).1, t.ParamsIn K) ∧
      (freshArgs given scope source i ps next).2 =
        Word.next^[ps.countP fun p => !given.has p.id] next := by
  refine ⟨?_, next_freshArgs ..⟩
  induction ps generalizing i next with
  | nil => exact List.forall_mem_nil _
  | cons p ps ih =>
    rw [freshArgs]
    split
    · rename_i t hfind
      exact List.forall_mem_cons.mpr ⟨hgiven _ (Table.mem_of_find? hfind), ih (i + 1) next⟩
    · exact List.forall_mem_cons.mpr ⟨.free, ih (i + 1) (Word.next next)⟩

/-- The parts of an instance have their parameters among `K`. -/
structure Instance.ParamsIn (K : Set Int) (inst : Instance) : Prop where
  props : ∀ p ∈ inst.props, p.ParamsIn K
  body : inst.body.ParamsIn K

theorem draws_instantiate {sc : Schema} (hsc : sc.ParamsIn K) {given : Table Int Ty}
    (hgiven : ∀ e ∈ given, e.2.ParamsIn K) (source : Nat → Param → TypeSource) :
    Draws K (instantiate sc given source) Instance.ParamsIn where
  step {_ s _ _} h _ hs := by
    unfold instantiate at h
    simp only [Schema.freshInstance, returns_get_bind, returns_set_bind, returns_pure] at h
    obtain ⟨rfl, rfl⟩ := h
    have hK : K ⊆ K ∪ drawn s.nextTypeVar (sc.params.countP fun p => !given.has p.id) :=
      Set.subset_union_left
    obtain ⟨hargs, hnext⟩ := freshArgs_spec hgiven s.params (fun i p => some (source i p)) 0
      sc.params s.nextTypeVar
    obtain ⟨hprops, hbody⟩ := hsc.instantiate hargs
    exact ⟨_, ⟨rfl, hnext⟩, { hs.mono hK with }, fun p hp => (hprops p hp).mono hK, hbody.mono hK⟩

/-! ## Explicit type arguments -/

theorem draws_positionalArgs (callee : Name) (params : List Param) (i : Nat) (args : List TypeArg)
    {given : Table Int Ty} (hgiven : ∀ e ∈ given, e.2.ParamsIn K) :
    Draws K (positionalArgs callee params i args given) fun K' m => ∀ e ∈ m, e.2.ParamsIn K' := by
  induction args generalizing K i given with
  | nil => exact .pure hgiven
  | cons a as ih =>
    unfold positionalArgs
    split
    · exact (draws_recordError _).bind fun hK _ _ => .pure fun e he => (hgiven e he).mono hK
    · exact (draws_checkType ..).bind fun hK _ ht =>
        ih _ (Table.forall_mem_insert ht fun e he => (hgiven e he).mono hK)

theorem draws_namedArgs (callee : Name) (params : List Param) (args : List TypeArg)
    {given : Table Int Ty} (hgiven : ∀ e ∈ given, e.2.ParamsIn K) :
    Draws K (namedArgs callee params args given) fun K' m => ∀ e ∈ m, e.2.ParamsIn K' := by
  induction args generalizing K given with
  | nil => exact .pure hgiven
  | cons a as ih =>
    unfold namedArgs
    dsimp only
    split
    · exact (draws_recordError _).bind fun hK _ _ => ih fun e he => (hgiven e he).mono hK
    · exact (draws_checkType ..).bind fun hK _ ht =>
        ih (Table.forall_mem_insert ht fun e he => (hgiven e he).mono hK)

theorem draws_typeArgs (callee : Name) (sc : Schema) (args : List TypeArg) :
    Draws K (typeArgs callee sc args) fun K' m => ∀ e ∈ m, e.2.ParamsIn K' :=
  .ite (draws_positionalArgs _ _ _ _ (List.forall_mem_nil _))
    (.ite (draws_namedArgs _ _ _ (List.forall_mem_nil _))
      ((draws_recordError _).bind fun _ _ _ => .pure (List.forall_mem_nil _)))

/-! ## Uses and literals -/

/-- A known schema under the bindings so far, instantiated and used at the expected type. -/
theorem draws_use (src : GoalSource) {α : Type} {sc : Schema} (hsc : sc.ParamsIn K)
    {given : Table Int Ty} (hgiven : ∀ e ∈ given, e.2.ParamsIn K)
    (source : Nat → Param → TypeSource) {exp : Expected} (hexp : exp.type.ParamsIn K)
    (out : Instance → α) : Draws K (do
      let inst ← instantiate sc given source
      addGoals src inst.props
      unifyExact exp inst.body
      return out inst) fun _ _ => True :=
  (draws_instantiate hsc hgiven source).bind fun hK _ hinst =>
    (draws_addGoals _ hinst.props).bind fun hK' _ _ =>
    (draws_unifyExact _ (hexp.mono (hK.trans hK')) (hinst.body.mono hK')).bind fun _ _ _ =>
    .pure trivial

theorem draws_checkVar (n : Name) (args : List TypeArg) {exp : Expected}
    (hexp : exp.type.ParamsIn K) : Draws K (checkVar n args exp) fun _ _ => True := by
  refine (draws_lookupVar n).bind fun hK v hv => ?_
  split
  · rename_i token name t
    have hrest : ∀ {K'' : Set Int}, K ⊆ K'' → t.ParamsIn K'' → Draws K'' (do
        unifyExact exp t
        return Term.groupVar name token) fun _ _ => True := fun hK ht =>
      (draws_unifyExact _ (hexp.mono hK) ht).bind fun _ _ _ => .pure trivial
    split
    · exact hrest hK hv
    · exact (draws_checkType ..).bind fun hK₁ _ _ => (draws_recordError _).bind fun hK₂ _ _ =>
        hrest (hK.trans (hK₁.trans hK₂)) (Ty.ParamsIn.mono hv (hK₁.trans hK₂))
  · refine .get_bind fun s hs => (draws_typeArgs ..).bind fun hK' given hgiven => ?_
    exact draws_use _ ((hs.subst.applySchema hv).mono hK') hgiven _ (hexp.mono (hK.trans hK')) _

theorem draws_checkPrim (src : GoalSource) (ident : String) {args : List (String × Ty)}
    (hargs : ∀ a ∈ args, a.2.ParamsIn K) {exp : Expected} (hexp : exp.type.ParamsIn K) :
    Draws K (checkPrim src ident args exp) fun _ _ => True := by
  refine (draws_prim ident).bind fun hK n _ => (draws_lookupVar n).bind fun hK' v hv => ?_
  have hK := hK.trans hK'
  split
  · refine Draws.bind (P := Schema.ParamsIn) (.pure hv) fun hK' sc hsc => .get_bind fun s hs => ?_
    have hK := hK.trans hK'
    dsimp only
    split
    · exact .throw_bind
    · refine draws_use _ (hs.subst.applySchema hsc) (fun e he => ?_) _ (hexp.mono hK) _
      obtain ⟨p, hp, heq⟩ := List.mem_filterMap.mp (Table.mem_ofList he)
      obtain ⟨t, ht, rfl⟩ := Option.map_eq_some_iff.mp heq
      obtain ⟨l, -, hlookup⟩ := Option.bind_eq_some_iff.mp ht
      obtain ⟨before, after, hsplit, -⟩ := List.lookup_eq_some_iff.mp hlookup
      exact (hargs (l, t) (by simp [hsplit])).mono hK
  · exact .throw_bind

theorem draws_checkNumber {val rep : Ty} (hval : val.ParamsIn K) (hrep : rep.ParamsIn K)
    {exp : Expected} (hexp : exp.type.ParamsIn K) :
    Draws K (checkNumber val rep exp) fun _ _ => True :=
  draws_checkPrim _ _ (by simp [hval, hrep]) hexp

theorem draws_checkNum (value base digits : Int) {exp : Expected} (hexp : exp.type.ParamsIn K) :
    Draws K (checkNum value base digits exp) fun _ _ => True := by
  unfold checkNum
  split
  · exact draws_checkNumber (Ty.paramsIn_num _) (Ty.paramsIn_word.mpr (Ty.paramsIn_num _)) hexp
  · exact draws_checkNumber (Ty.paramsIn_num _) hexp hexp

theorem draws_checkFrac (num den : Int) {exp : Expected} (hexp : exp.type.ParamsIn K) :
    Draws K (checkFrac num den exp) fun _ _ => True :=
  draws_checkPrim _ _ (by simp [hexp]) hexp

theorem paramsIn_charType : charType.ParamsIn K := Ty.paramsIn_word.mpr (Ty.paramsIn_num _)

theorem draws_checkChar (code : Int) {exp : Expected} (hexp : exp.type.ParamsIn K) :
    Draws K (checkChar code exp) fun _ _ => True :=
  draws_checkNumber (Ty.paramsIn_num _) paramsIn_charType hexp

theorem draws_checkString (str : String) {exp : Expected} (hexp : exp.type.ParamsIn K) :
    Draws K (checkString str exp) fun _ _ => True :=
  (draws_unifyExact _ hexp (Ty.paramsIn_seq.mpr ⟨Ty.paramsIn_num _, paramsIn_charType⟩)).bind
    fun _ _ _ => (Draws.mapM (Q := fun _ _ => True) (fun _ _ _ => trivial) fun _ _ _ =>
      draws_checkChar _ paramsIn_charType).bind fun _ _ _ => .pure trivial

theorem draws_checkBound (label : String) (t : Option TypeExpr) :
    Draws K (checkBound label t) fun K' bs => ∀ b ∈ bs, b.2.ParamsIn K' := by
  cases t with
  | none => exact .pure (List.forall_mem_nil _)
  | some t => exact (draws_checkType ..).bind fun _ _ ht => .pure (List.forall_mem_singleton.mpr ht)

theorem draws_checkEnumeration (e : Enumeration) {exp : Expected} (hexp : exp.type.ParamsIn K) :
    Draws K (checkEnumeration e exp) fun _ _ => True := by
  have hrest : ∀ {K' : Set Int} {elem : List (String × Ty)}, K ⊆ K' →
      (∀ b ∈ elem, b.2.ParamsIn K') → Draws K' (do
        let first ← checkBound "first" e.first
        let rest ← (enumerationPrim e).2.mapM fun b => checkBound b.1 b.2
        checkPrim .enumeration (enumerationPrim e).1 (first ++ elem ++ rest.flatten) exp)
      fun _ _ => True := by
    intro K' elem hK helem
    refine (draws_checkBound ..).bind fun hK₁ first hfirst => ?_
    refine (Draws.mapM (Q := fun K' bs => ∀ b ∈ bs, b.2.ParamsIn K')
      (fun hK _ h b hb => (h b hb).mono hK) fun _ _ _ => draws_checkBound ..).bind
      fun hK₂ rest hrest => ?_
    refine draws_checkPrim _ _ (List.forall_mem_append.mpr ⟨List.forall_mem_append.mpr
      ⟨fun b hb => (hfirst b hb).mono hK₂, fun b hb => (helem b hb).mono (hK₁.trans hK₂)⟩,
      fun b hb => ?_⟩) (hexp.mono (hK.trans (hK₁.trans hK₂)))
    obtain ⟨bs, hbs, hb⟩ := List.mem_flatten.mp hb
    exact hrest bs hbs b hb
  unfold checkEnumeration
  cases e.elem with
  | none =>
    exact Draws.bind (P := fun K' bs => ∀ b ∈ bs, b.2.ParamsIn K') (.pure (by simp))
      fun hK _ h => hrest hK h
  | some t =>
    refine (draws_checkType t .type).bind fun hK u hu => ?_
    exact Draws.bind (P := fun K' bs => ∀ b ∈ bs, b.2.ParamsIn K')
      (.pure (by simpa using hu)) fun hK' _ h => hrest (hK.trans hK') h

/-! ## Patterns -/

/-- The types of the variables of a pattern have their parameters among `K`. -/
def Matched.ParamsIn (K : Set Int) (m : Matched) : Prop := ∀ v ∈ m.vars, v.2.ParamsIn K

theorem Matched.ParamsIn.mono {m : Matched} (h : m.ParamsIn K) (hK : K ⊆ K') : m.ParamsIn K' :=
  fun v hv => (h v hv).mono hK

theorem draws_monoDecl (n : Name) {t : Ty} (ht : t.ParamsIn K) (e : Term) :
    Draws K (monoDecl n t e) fun K' d => d.schema.ParamsIn K' :=
  draws_currentRange.bind fun hK _ _ => .pure (Schema.paramsIn_mono.mpr (ht.mono hK))

theorem draws_part {whole part : Matched} (hwhole : whole.ParamsIn K) (sel : Selector) {t : Ty}
    (ht : t.ParamsIn K) (hpart : part.ParamsIn K) :
    Draws K (whole.part sel t part) Matched.ParamsIn :=
  (draws_monoDecl _ ht _).bind fun hK _ _ =>
    .pure (List.forall_mem_append.mpr ⟨hwhole.mono hK, hpart.mono hK⟩)

theorem draws_checkSplit {exp : Expected} (hexp : exp.type.ParamsIn K) :
    Draws K (checkSplit exp) fun K' r =>
      r.2.1.ParamsIn K' ∧ r.2.2.1.ParamsIn K' ∧ r.2.2.2.ParamsIn K' := by
  refine (draws_freshType ..).bind fun hK₁ front hfront => (draws_freshType ..).bind
    fun hK₂ back hback => (draws_freshType ..).bind fun {K'} hK₃ elem helem => ?_
  have hexp := hexp.mono ((hK₁.trans hK₂).trans hK₃)
  have hfront := hfront.mono (hK₂.trans hK₃)
  have hback := hback.mono hK₃
  have hsum : (Ty.op .add [front, back]).ParamsIn K' :=
    Ty.paramsIn_op.mpr (by simp [hfront, hback])
  refine (draws_unifyFrom _ exp hexp (Ty.paramsIn_seq.mpr ⟨hsum, helem⟩)).bind fun hK₄ _ _ => ?_
  refine (draws_addGoals _ (List.forall_mem_singleton.mpr
    (Ty.paramsIn_fin.mpr (hfront.mono hK₄)))).bind fun hK₅ _ _ => ?_
  have hK := hK₄.trans hK₅
  have hleft := Ty.paramsIn_seq.mpr ⟨hfront.mono hK, helem.mono hK⟩
  have hright := Ty.paramsIn_seq.mpr ⟨hback.mono hK, helem.mono hK⟩
  have hpair := Ty.paramsIn_tuple.mpr (List.forall_mem_cons.mpr
    ⟨hleft, List.forall_mem_singleton.mpr hright⟩)
  refine (draws_checkPrim _ _ (by simp [hfront.mono hK, hback.mono hK, helem.mono hK])
    (Ty.paramsIn_arrow.mpr ⟨hexp.mono hK, hpair⟩)).bind fun hK₆ _ _ => ?_
  refine (draws_freshName _).bind fun hK₇ _ _ => (draws_freshName _).bind fun hK₈ _ _ => ?_
  have hK := (hK₆.trans hK₇).trans hK₈
  refine (draws_monoDecl _ (hpair.mono hK) _).bind fun hK₉ _ _ => .pure ?_
  exact ⟨List.forall_mem_nil _, hleft.mono (hK.trans hK₉), hright.mono (hK.trans hK₉)⟩

/-- The type of the part that an expected type says. -/
theorem paramsIn_getField {fields : Table String Ty} (h : ∀ f ∈ fields, f.2.ParamsIn K)
    (l : String) : ((Table.find? l fields).getD default).ParamsIn K := by
  cases hfind : Table.find? l fields with
  | none => exact .free
  | some t => exact h _ (Table.mem_of_find? hfind)

mutual
theorem draws_checkPattern {K : Set Int} : ∀ (p : Pattern) {exp : Expected},
    exp.type.ParamsIn K → Draws K (checkPattern p exp) Matched.ParamsIn
  | .located r p, exp, hexp => by
    rw [checkPattern]
    exact (draws_checkPattern p hexp).withRange
  | .var n, exp, hexp => by
    rw [checkPattern]
    exact .pure (List.forall_mem_singleton.mpr hexp)
  | .wildcard, exp, _ => by
    rw [checkPattern]
    exact (draws_freshName _).bind fun _ _ _ => .pure (List.forall_mem_nil _)
  | .typed p t, exp, hexp => by
    rw [checkPattern]
    exact (draws_checkType ..).bind fun hK _ ht =>
      (draws_unifyExact _ (hexp.mono hK) ht).bind fun hK' _ _ => draws_checkPattern p (ht.mono hK')
  | .tuple ps, exp, hexp => by
    rw [checkPattern]
    refine (draws_expectTuple _ hexp).bind fun _ ts hts => (draws_freshName _).bind
      fun hK _ _ => draws_checkParts ps (fun sl hsl => ?_) (List.forall_mem_nil _)
    obtain ⟨t, ht, rfl⟩ := List.mem_map.mp hsl
    exact (hts _ (List.fst_mem_of_mem_zipIdx ht)).mono hK
  | .record fs, exp, hexp => by
    rw [checkPattern]
    exact (draws_expectRecord _ hexp).bind fun _ fields hfields => (draws_freshName _).bind
      fun hK _ _ => draws_checkFieldParts fs (fun f hf => (hfields f hf).mono hK)
        (List.forall_mem_nil _)
  | .list ps, exp, hexp => by
    rw [checkPattern]
    refine (draws_expectSeq hexp).bind fun _ r hr => ?_
    refine (draws_unifyFrom _ ⟨_, _⟩ hr.1 (Ty.paramsIn_num _)).bind fun hK _ _ => ?_
    refine (draws_freshName _).bind fun hK' _ _ => draws_checkParts ps (fun sl hsl => ?_)
      (List.forall_mem_nil _)
    obtain ⟨i, -, rfl⟩ := List.mem_map.mp hsl
    exact hr.2.mono (hK.trans hK')
  | .split left right, exp, hexp => by
    rw [checkPattern]
    refine (draws_checkSplit hexp).bind fun _ r hr => ?_
    obtain ⟨hparts, hl, hr⟩ := hr
    refine (draws_checkPattern left hl).bind fun hK₁ l hleft => ?_
    refine (draws_part (hparts.mono hK₁) _ (hl.mono hK₁) hleft).bind fun hK₂ parts hparts => ?_
    have hr := hr.mono (hK₁.trans hK₂)
    refine (draws_checkPattern right hr).bind fun hK₃ r hright => ?_
    exact (draws_part (hparts.mono hK₃) _ (hr.mono hK₃) hright).bind fun _ _ h => .pure h

theorem draws_checkParts {K : Set Int} : ∀ (ps : List Pattern) {slots : List (Selector × Expected)}
    {whole : Matched}, (∀ sl ∈ slots, sl.2.type.ParamsIn K) → whole.ParamsIn K →
    Draws K (checkParts ps slots whole) Matched.ParamsIn
  | p :: ps, (sel, exp) :: slots, whole, hslots, hwhole => by
    obtain ⟨hexp, hslots⟩ := List.forall_mem_cons.mp hslots
    rw [checkParts]
    refine (draws_checkPattern p hexp).bind fun hK m hm => ?_
    refine (draws_part (hwhole.mono hK) _ (hexp.mono hK) hm).bind fun hK' whole hwhole => ?_
    exact draws_checkParts ps (fun sl hsl => (hslots sl hsl).mono (hK.trans hK')) hwhole
  | [], _, whole, _, hwhole => by
    simp only [checkParts]
    exact .pure hwhole
  | _ :: _, [], whole, _, hwhole => by
    simp only [checkParts]
    exact .pure hwhole

theorem draws_checkFieldParts {K : Set Int} : ∀ (fs : List (String × Pattern))
    {fields : Table String Ty} {whole : Matched}, (∀ f ∈ fields, f.2.ParamsIn K) →
    whole.ParamsIn K → Draws K (checkFieldParts fs fields whole) Matched.ParamsIn
  | [], _, whole, _, hwhole => by
    rw [checkFieldParts]
    exact .pure hwhole
  | (l, p) :: fs, fields, whole, hfields, hwhole => by
    have ht := paramsIn_getField hfields l
    rw [checkFieldParts]
    refine (draws_checkPattern p ht).bind fun hK m hm => ?_
    refine (draws_part (hwhole.mono hK) _ (ht.mono hK) hm).bind fun hK' whole hwhole => ?_
    exact draws_checkFieldParts fs (fun f hf => (hfields f hf).mono (hK.trans hK')) hwhole
end

/-! ## Applications and comprehensions -/

theorem draws_openSpine (k : Nat) {exp : Expected} (hexp : exp.type.ParamsIn K)
    {slots : List (Ty × Nat)} (hslots : ∀ sl ∈ slots, sl.1.ParamsIn K) :
    Draws K (openSpine k exp slots) fun K' r =>
      r.1.type.ParamsIn K' ∧ r.2.1.1.ParamsIn K' ∧ ∀ sl ∈ r.2.2, sl.1.ParamsIn K' := by
  unfold openSpine
  split
  · obtain ⟨hslot, hrest⟩ := List.forall_mem_cons.mp hslots
    exact .pure ⟨hexp, hslot, hrest⟩
  · refine (Draws.mapM (Q := Ty.ParamsIn) (fun hK _ h => h.mono hK)
      fun _ _ _ => draws_freshType ..).bind fun hK init hinit => ?_
    refine (draws_freshType ..).bind fun hK' last hlast => .pure ⟨?_, hlast, fun sl hsl => ?_⟩
    · have hinit : ∀ t ∈ init, t.ParamsIn _ := fun t ht => (hinit t ht).mono hK'
      exact Ty.paramsIn_arrows (List.forall_mem_append.mpr ⟨hinit,
        List.forall_mem_singleton.mpr hlast⟩) (hexp.mono (hK.trans hK'))
    · exact (hinit _ (List.fst_mem_of_mem_zipIdx (List.mem_reverse.mp hsl))).mono hK'

theorem draws_checkRepeated (seen : List Int) (vs : List (Name × Ty)) :
    Draws K (checkRepeated seen vs) fun _ _ => True := by
  induction vs generalizing K seen with
  | nil => exact .pure trivial
  | cons v vs ih => exact .ite ((draws_recordError _).bind fun _ _ _ => ih _) (ih _)

/-- The types that an arm gives have their parameters among `K`. -/
structure Arm.ParamsIn (K : Set Int) (arm : Arm) : Prop where
  len : ∀ t, arm.len = some t → t.ParamsIn K
  vars : ∀ v ∈ arm.vars, v.2.ParamsIn K

theorem Arm.ParamsIn.mono {arm : Arm} (h : arm.ParamsIn K) (hK : K ⊆ K') : arm.ParamsIn K' :=
  ⟨fun t ht => (h.len t ht).mono hK, fun v hv => (h.vars v hv).mono hK⟩

theorem draws_declareMonos {vs : List (Name × Ty)} (hvs : ∀ v ∈ vs, v.2.ParamsIn K) :
    Draws K (vs.forM fun v => declareMono v.1 v.2) fun _ _ => True :=
  .forM (I := fun K' v => v.2.ParamsIn K') (fun hK _ h => h.mono hK) hvs
    fun _ h => draws_declareMono _ h

theorem draws_armDraw {arm : Arm} (harm : arm.ParamsIn K) {n : Ty} (hn : n.ParamsIn K) (elem : Ty)
    (e : Term) {m : Matched} (hm : m.ParamsIn K) : Draws K (arm.draw n elem e m) Arm.ParamsIn := by
  refine (draws_declareMonos hm).bind fun hK _ _ => .pure ?_
  refine ⟨fun t ht => ?_, List.forall_mem_append.mpr ⟨(harm.mono hK).vars, hm.mono hK⟩⟩
  dsimp only at ht
  split at ht
  · cases ht
    exact hn.mono hK
  · rename_i len hlen
    cases ht
    have hlen := harm.len _ hlen
    exact Ty.paramsIn_op.mpr (by simp [hlen.mono hK, hn.mono hK])

theorem draws_armDefine {arm : Arm} (harm : arm.ParamsIn K) {d : Decl} (hd : d.schema.ParamsIn K) :
    Draws K (arm.define d) Arm.ParamsIn :=
  (draws_declare d.name (v := .known d.schema) hd).bind fun hK _ _ => .pure ⟨(harm.mono hK).len,
    List.forall_mem_append.mpr ⟨(harm.mono hK).vars,
      List.forall_mem_singleton.mpr (hd.body.mono hK)⟩⟩

theorem paramsIn_compLength {arms : List Arm} (h : ∀ arm ∈ arms, arm.ParamsIn K) :
    (compLength arms).ParamsIn K := by
  have hlens : ∀ t ∈ arms.map fun arm => arm.len.getD (.num 1), t.ParamsIn K := by
    refine List.forall_mem_map.mpr fun arm harm => ?_
    cases hlen : arm.len with
    | none => exact Ty.paramsIn_num 1
    | some t => exact (h arm harm).len t hlen
  unfold compLength
  split
  · exact Ty.paramsIn_num 1
  · rename_i len lens heq
    rw [heq] at hlens
    obtain ⟨hlen, hrest⟩ := List.forall_mem_cons.mp hlens
    clear heq hlens
    induction lens generalizing len with
    | nil => exact hlen
    | cons l lens ih =>
      obtain ⟨hl, hrest⟩ := List.forall_mem_cons.mp hrest
      exact ih _ (Ty.paramsIn_op.mpr (by simp [hlen, hl])) hrest

/-! ## Functions and bindings -/

/-- A way to check a body brings in no parameters, from `K` on. -/
def DrawsBody (K : Set Int) (body : Checker) : Prop :=
  ∀ {K' : Set Int}, K ⊆ K' → ∀ exp : Expected, exp.type.ParamsIn K' →
    Draws K' (body exp) fun _ _ => True

theorem DrawsBody.mono {body : Checker} (h : DrawsBody K body) (hK : K ⊆ K') :
    DrawsBody K' body := fun hK' => h (hK.trans hK')

theorem draws_checkParams (i : Nat) (ps : List Pattern) {ts : List Ty}
    (hts : ∀ t ∈ ts, t.ParamsIn K) : Draws K (checkParams i ps ts) fun _ _ => True := by
  induction ps generalizing K i ts with
  | nil =>
    unfold checkParams
    exact .pure trivial
  | cons p ps ih =>
    cases ts with
    | nil =>
      unfold checkParams
      exact .pure trivial
    | cons t ts =>
      obtain ⟨ht, hts⟩ := List.forall_mem_cons.mp hts
      rw [checkParams]
      refine (draws_checkPattern p ht).bind fun hK m hm => ?_
      refine (draws_declareMonos hm).bind fun hK' _ _ => ?_
      exact (ih _ fun t ht => (hts t ht).mono (hK.trans hK')).bind fun _ _ _ => .pure trivial

theorem draws_checkLambda (params : List Pattern) {exp : Expected} (hexp : exp.type.ParamsIn K)
    {body : Checker} (hbody : DrawsBody K body) :
    Draws K (checkLambda params exp body) fun _ _ => True := by
  refine .ite (hbody le_rfl _ hexp) ?_
  refine (draws_expectArrow _ _ _ hexp).bind fun hK r hr => ?_
  refine (draws_checkParams 0 params hr.1).bind fun hK' _ _ => ?_
  refine (hbody (hK.trans hK') _ (hr.2.mono hK')).bind fun _ _ _ => ?_
  exact (draws_unstash _).bind fun _ _ _ => .pure trivial

theorem draws_withExistentials {α : Type} {act : Infer α} {P : Set Int → α → Prop}
    (hP : ∀ {K K'}, K ⊆ K' → ∀ a, P K a → P K' a) (h : ∀ {K'}, K ⊆ K' → Draws K' act P) :
    Draws K (withExistentials act) P := by
  refine .bind (.modify (fun s hs => { hs with
    existentials := List.forall_mem_cons.mpr ⟨List.forall_mem_nil _, hs.existentials⟩ })
    fun _ => ⟨rfl, rfl⟩) fun hK _ _ => ?_
  refine (h hK).bind fun _ a ha => .bind (.modify (fun s hs => { hs with
    existentials := fun sc hsc => hs.existentials sc (List.mem_of_mem_tail hsc) })
    fun _ => ⟨rfl, rfl⟩) fun hK' _ _ => .pure (hP hK' a ha)

theorem draws_checkMono (b : Bind) {t : Ty} (ht : t.ParamsIn K) {body : Checker}
    (hbody : DrawsBody K body) : Draws K (checkMono b t body) fun K' d =>
      d.name = b.name ∧ d.schema.params = [] ∧ d.schema.ParamsIn K' :=
  ((hbody le_rfl _ ht).bind fun hK _ _ =>
    .pure ⟨rfl, rfl, Schema.paramsIn_mono.mpr (ht.mono hK)⟩).withRange

theorem draws_checkSigned (b : Bind) {sc : Schema} (hsc : sc.ParamsIn K) {body : Checker}
    (hbody : DrawsBody K body) :
    Draws K (checkSigned b sc body) fun K' d =>
      d.name = b.name ∧ d.schema = sc ∧ d.schema.ParamsIn K' := by
  refine Draws.withRange (.ite (.pure ⟨rfl, rfl, hsc⟩) ?_)
  refine (draws_withParams hsc.params hsc.props fun hK => ?_).bind fun hK _ _ =>
    .pure ⟨rfl, rfl, hsc.mono hK⟩
  refine (draws_collectGoals (P := fun _ _ => True) ((hbody hK _ (hsc.body.mono hK)).bind
    fun _ _ _ => (draws_simplifyStore false).bind fun _ _ _ => .pure trivial)).bind
    fun _ r hr => ?_
  exact (draws_proveSignature _ _ hr.2).bind fun _ _ _ => .pure trivial

theorem draws_checkSingle (b : Bind) {body : Checker} (hbody : DrawsBody K body) :
    Draws K (checkSingle b body) fun K' d => d.schema.ParamsIn K' := by
  unfold checkSingle
  split
  · exact (draws_checkSignature _).bind fun hK sc hsc =>
      (draws_checkSigned b hsc (hbody.mono hK)).weaken fun _ _ h => h.2.2
  · exact (draws_freshType ..).bind fun hK t ht =>
      (draws_checkMono b ht (hbody.mono hK)).weaken fun _ _ h => h.2.2

theorem draws_checkUpdate (path : List Selector) (how : UpdateHow) {exp : Expected}
    (hexp : exp.type.ParamsIn K) (out : Term) {value : Checker} (hvalue : DrawsBody K value) :
    Draws K (checkUpdate path how exp out value) fun _ _ => True := by
  unfold checkUpdate
  split
  · refine (draws_freshType ..).bind fun hK t ht => ?_
    refine (draws_newSelectorGoal _ (hexp.mono hK) ht).bind fun hK' _ _ => ?_
    have hK'' := hK.trans hK'
    split
    · exact (hvalue hK'' _ (ht.mono hK')).bind fun _ _ _ => .pure trivial
    · have harrow := Ty.paramsIn_arrow.mpr ⟨ht.mono hK', ht.mono hK'⟩
      refine (hvalue hK'' _ harrow).bind fun hK₁ _ _ => (draws_freshName _).bind fun hK₂ _ _ => ?_
      exact (draws_monoDecl _ (hexp.mono ((hK''.trans hK₁).trans hK₂)) _).bind
        fun _ _ _ => .pure trivial
  · exact .throw

end SizedTypes.Infer
