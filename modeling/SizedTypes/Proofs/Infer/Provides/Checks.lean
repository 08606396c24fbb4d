import SizedTypes.Proofs.Infer.Provides.Types

/-!
# Uses, patterns and bindings find their names

A use of a visible variable, a literal whose primitive is external and a pattern whose types are
visible find every name. The variables of a pattern are visible for what follows, and the parameters
of a signature for the body of its binding.
-/

set_option autoImplicit false

namespace SizedTypes.Infer

open Surface (Bind Enumeration Pattern TypeArg TypeExpr Visible bindIds patternFieldsInScope
  patternsInScope varIdsOf)
open SizedTypes.Core (Decl Term)

variable {c : Context} {s s₁ s' : State} {v w : Visible} {own : List Int}

/-! ## Variables and primitives -/

theorem Provides.finds_value (h : Provides v c s) {id : Int} (hid : v.value id = true) :
    (s.vars.find? id).isSome ∨ (c.external.vars.find? id).isSome := by
  rw [Visible.value_iff, ← h.external] at hid
  exact hid.imp_left (h.values id)

theorem resolves_lookupVar {n : Name} (h : v.value n.id = true) : Resolves v (lookupVar n) v where
  bound {c s e} hs he := by
    rw [lookupVar, fails_get_bind] at he
    split at he
    · cases he
    · rename_i hvars
      rw [fails_read_bind] at he
      split at he
      · cases he
      · rename_i hexternal
        simpa [hvars, hexternal] using hs.finds_value h
  provides hs ha := hs.of_sameScope ((respects_lookupVar n).step ha)
    (hs.uncancelled_after (fun _ => (steady_lookupVar n).follows) ha)

theorem resolves_positionalArgs (callee : Name) (params : List Param) (i : Nat)
    {args : List TypeArg} (given : Table Int Ty) (h : ∀ a ∈ args, a.type.inScope v [] = true) :
    Resolves v (positionalArgs callee params i args given) v := by
  induction args generalizing i given with
  | nil => exact .pure _
  | cons a as ih =>
    obtain ⟨ha, has⟩ := List.forall_mem_cons.mp h
    unfold positionalArgs
    split
    · exact (resolves_recordError _).bind fun _ => .pure _
    · exact (resolves_checkType _ ha).bind fun _ => ih _ _ has

theorem resolves_namedArgs (callee : Name) (params : List Param) {args : List TypeArg}
    (given : Table Int Ty) (h : ∀ a ∈ args, a.type.inScope v [] = true) :
    Resolves v (namedArgs callee params args given) v := by
  induction args generalizing given with
  | nil => exact .pure _
  | cons a as ih =>
    obtain ⟨ha, has⟩ := List.forall_mem_cons.mp h
    unfold namedArgs
    dsimp only
    split
    · exact (resolves_recordError _).bind fun _ => ih _ has
    · exact (resolves_checkType _ ha).bind fun _ => ih _ has

theorem resolves_checkVar {n : Name} {args : List TypeArg} (exp : Expected)
    (h : v.value n.id = true) (hargs : ∀ a ∈ args, a.type.inScope v [] = true) :
    Resolves v (checkVar n args exp) v := by
  have htypeArgs : ∀ sc, Resolves v (typeArgs n sc args) v := fun sc =>
    .ite (resolves_positionalArgs n sc.params 0 [] hargs)
      (.ite (resolves_namedArgs n sc.params [] hargs)
        ((resolves_recordError _).bind fun _ => .pure _))
  refine (resolves_lookupVar h).bind fun found => ?_
  split
  · have hrest : ∀ name token t, Resolves v (do
        unifyExact exp t
        return Term.groupVar name token) v := fun _ _ _ =>
      (resolves_unifyExact ..).bind fun _ => .pure _
    split
    · exact hrest _ _ _
    · rename_i a as
      exact (resolves_checkType _ (hargs a (List.mem_cons_self ..))).bind fun _ =>
        (resolves_recordError _).bind fun _ => hrest _ _ _
  · exact .get_bind fun _ => (htypeArgs _).bind fun _ => (resolves_instantiate ..).bind fun _ =>
      (resolves_addGoals ..).bind fun _ => (resolves_unifyExact ..).bind fun _ => .pure _

/-- The name of a primitive that is found at all is external. -/
theorem value_of_prim {ident : String} {n : Name} (hs : Provides v c s)
    (h : v.prim ident = true) (hn : Returns (prim ident) c s n s') : v.value n.id = true := by
  unfold prim at hn
  rw [returns_read_bind] at hn
  split at hn
  · rename_i n' hlookup
    obtain ⟨rfl, -⟩ := returns_pure.mp hn
    rw [hs.prims] at hlookup
    rw [Visible.prim, hlookup] at h
    exact Visible.value_iff.mpr (Or.inr h)
  · exact absurd hn not_returns_throw

theorem resolves_checkPrim (src : GoalSource) {ident : String} (args : List (String × Ty))
    (exp : Expected) (h : v.prim ident = true) :
    Resolves v (checkPrim src ident args exp) v := by
  refine (resolves_prim ident).andThen fun hs hn =>
    (resolves_lookupVar (value_of_prim hs h hn)).bind fun found => ?_
  split
  · refine (Resolves.pure _).bind fun sc => .get_bind fun _ => ?_
    dsimp only
    split
    · exact .throw_bind rfl
    · exact (resolves_instantiate ..).bind fun _ => (resolves_addGoals ..).bind fun _ =>
        (resolves_unifyExact ..).bind fun _ => .pure _
  · exact .throw_bind rfl

theorem resolves_checkString (str : String) (exp : Expected) (h : v.prim "number" = true) :
    Resolves v (checkString str exp) v :=
  (resolves_unifyExact ..).bind fun _ =>
    (Resolves.mapM fun _ _ => resolves_checkPrim _ _ _ h).bind fun _ => .pure _

theorem resolves_checkBound (label : String) {t : Option TypeExpr}
    (h : t.all (TypeExpr.inScope v []) = true) : Resolves v (checkBound label t) v := by
  cases t with
  | none => exact .pure _
  | some t => exact (resolves_checkType _ h).bind fun _ => .pure _

/-- Each bound that the primitive takes is one of those of the enumeration. -/
theorem mem_enumerationPrim {e : Enumeration} {b : String × Option TypeExpr}
    (hb : b ∈ (enumerationPrim e).2) : b.2 ∈ [e.next, e.last, e.stride] := by
  unfold enumerationPrim at hb
  split at hb <;> simp only [List.mem_cons, List.not_mem_nil, or_false] at hb <;>
    rcases hb with rfl | rfl <;> simp

theorem resolves_checkEnumeration {e : Enumeration} (exp : Expected) (h : e.inScope v = true) :
    Resolves v (checkEnumeration e exp) v := by
  simp only [Enumeration.inScope, Bool.and_eq_true, List.all_eq_true] at h
  obtain ⟨hprim, hbounds⟩ := h
  have hrest : ∀ elem, Resolves v (do
      let first ← checkBound "first" e.first
      let prim := enumerationPrim e
      let rest ← prim.2.mapM fun b => checkBound b.1 b.2
      checkPrim .enumeration prim.1 (first ++ elem ++ rest.flatten) exp) v := fun elem =>
    (resolves_checkBound _ (hbounds _ (by simp))).bind fun _ =>
      (Resolves.mapM fun b hb => resolves_checkBound _ (hbounds _ (by
        have hbound := mem_enumerationPrim hb
        simp only [List.mem_cons, List.not_mem_nil, or_false] at hbound ⊢
        grind))).bind fun _ => resolves_checkPrim _ _ _ hprim
  unfold checkEnumeration
  cases helem : e.elem with
  | none => exact (Resolves.pure _).bind hrest
  | some t =>
    have ht := hbounds (some t) (by simp [helem])
    exact (resolves_checkType _ ht).bind fun _ => (Resolves.pure _).bind hrest

/-! ## Patterns -/

theorem length_mapM {α β : Type} {xs : List α} {f : α → Infer β} {ys : List β}
    (h : Returns (xs.mapM f) c s ys s') : ys.length = xs.length := by
  induction xs generalizing ys s with
  | nil =>
    obtain ⟨rfl, -⟩ := returns_mapM_nil.mp h
    rfl
  | cons x xs ih =>
    obtain ⟨y, s₁, zs, -, hzs, rfl⟩ := returns_mapM_cons.mp h
    rw [List.length_cons, List.length_cons, ih hzs]

theorem length_expectTuple {n : Nat} {exp : Expected} {ts : List Ty}
    (h : Returns (expectTuple n exp) c s ts s') : ts.length = n := by
  unfold expectTuple at h
  obtain ⟨u, s₁, -, h⟩ := returns_bind.mp h
  split at h
  · rename_i ts' hts
    obtain ⟨rfl, -⟩ := returns_pure.mp h
    exact eq_of_beq (Option.filter_eq_some_iff.mp hts).2
  · obtain ⟨ts', s₂, hts, h⟩ := returns_bind.mp h
    obtain ⟨⟨⟩, s₃, -, h⟩ := returns_bind.mp h
    rw [(returns_pure.mp h).1, length_mapM hts, List.length_range]

/-- The names of the variables that a checked pattern binds. -/
def Matched.names (m : Matched) : List Name := m.vars.map Prod.fst

theorem names_part {whole m out : Matched} {sel : Selector} {t : Ty}
    (h : Returns (whole.part sel t m) c s out s') : out.names = whole.names ++ m.names := by
  unfold Matched.part at h
  obtain ⟨d, s₁, -, h⟩ := returns_bind.mp h
  rw [(returns_pure.mp h).1]
  exact List.map_append ..

theorem names_checkSplit {exp : Expected} {x : Name} {parts : Matched} {lt rt : Ty}
    (h : Returns (checkSplit exp) c s (x, parts, lt, rt) s') : parts.names = [] := by
  unfold checkSplit at h
  iterate 9 obtain ⟨_, _, -, h⟩ := returns_bind.mp h
  cases (returns_pure.mp h).1
  rfl

mutual
/-- A checked pattern binds the variables of the pattern, from left to right. -/
theorem names_checkPattern : ∀ (p : Pattern) {exp : Expected} {c : Context} {s s' : State}
    {m : Matched}, Returns (checkPattern p exp) c s m s' → m.names = p.vars
  | .located r p, exp, c, s, s', m, h => by
    rw [checkPattern] at h
    exact names_checkPattern p (returns_withReader.mp h)
  | .var n, exp, c, s, s', m, h => by
    rw [checkPattern, returns_pure] at h
    rw [h.1]
    rfl
  | .wildcard, exp, c, s, s', m, h => by
    rw [checkPattern] at h
    obtain ⟨x, s₁, -, h⟩ := returns_bind.mp h
    rw [(returns_pure.mp h).1]
    rfl
  | .typed p t, exp, c, s, s', m, h => by
    rw [checkPattern] at h
    obtain ⟨t', s₁, -, h⟩ := returns_bind.mp h
    obtain ⟨⟨⟩, s₂, -, h⟩ := returns_bind.mp h
    exact names_checkPattern p h
  | .tuple ps, exp, c, s, s', m, h => by
    rw [checkPattern] at h
    obtain ⟨ts, s₁, hts, h⟩ := returns_bind.mp h
    obtain ⟨x, s₂, -, h⟩ := returns_bind.mp h
    refine names_checkParts ps ?_ h
    rw [List.length_map, List.length_zipIdx, length_expectTuple hts]
  | .record fs, exp, c, s, s', m, h => by
    rw [checkPattern] at h
    obtain ⟨fields, s₁, -, h⟩ := returns_bind.mp h
    obtain ⟨x, s₂, -, h⟩ := returns_bind.mp h
    exact names_checkFieldParts fs h
  | .list ps, exp, c, s, s', m, h => by
    rw [checkPattern] at h
    obtain ⟨⟨n, elem⟩, s₁, -, h⟩ := returns_bind.mp h
    obtain ⟨⟨⟩, s₂, -, h⟩ := returns_bind.mp h
    obtain ⟨x, s₃, -, h⟩ := returns_bind.mp h
    refine names_checkParts ps ?_ h
    rw [List.length_map, List.length_range]
  | .split left right, exp, c, s, s', m, h => by
    rw [checkPattern] at h
    obtain ⟨⟨x, parts, lt, rt⟩, s₁, hsplit, h⟩ := returns_bind.mp h
    obtain ⟨l, s₂, hleft, h⟩ := returns_bind.mp h
    obtain ⟨parts₁, s₃, hparts₁, h⟩ := returns_bind.mp h
    obtain ⟨r, s₄, hright, h⟩ := returns_bind.mp h
    obtain ⟨parts₂, s₅, hparts₂, h⟩ := returns_bind.mp h
    obtain ⟨rfl, -⟩ := returns_pure.mp h
    show parts₂.names = left.vars ++ right.vars
    rw [names_part hparts₂, names_part hparts₁, names_checkSplit hsplit, List.nil_append,
      names_checkPattern left hleft, names_checkPattern right hright]

theorem names_checkParts : ∀ (ps : List Pattern) {slots : List (Selector × Expected)}
    {whole : Matched} {c : Context} {s s' : State} {m : Matched}, slots.length = ps.length →
    Returns (checkParts ps slots whole) c s m s' →
    m.names = whole.names ++ Pattern.varsList ps
  | [], slots, whole, c, s, s', m, _, h => by
    rw [checkParts, returns_pure] at h
    · rw [h.1, Pattern.varsList, List.append_nil]
    · simp
  | p :: ps, (sel, exp) :: slots, whole, c, s, s', m, hlen, h => by
    rw [checkParts] at h
    obtain ⟨m₁, s₁, hp, h⟩ := returns_bind.mp h
    obtain ⟨whole₁, s₂, hpart, h⟩ := returns_bind.mp h
    rw [names_checkParts ps (Nat.succ.inj hlen) h, names_part hpart, names_checkPattern p hp,
      Pattern.varsList, List.append_assoc]
  | p :: ps, [], whole, c, s, s', m, hlen, h => by cases hlen

theorem names_checkFieldParts : ∀ (fs : List (String × Pattern)) {fields : Table String Ty}
    {whole : Matched} {c : Context} {s s' : State} {m : Matched},
    Returns (checkFieldParts fs fields whole) c s m s' →
    m.names = whole.names ++ Pattern.varsFields fs
  | [], fields, whole, c, s, s', m, h => by
    rw [checkFieldParts, returns_pure] at h
    rw [h.1, Pattern.varsFields, List.append_nil]
  | (l, p) :: fs, fields, whole, c, s, s', m, h => by
    rw [checkFieldParts] at h
    obtain ⟨m₁, s₁, hp, h⟩ := returns_bind.mp h
    obtain ⟨whole₁, s₂, hpart, h⟩ := returns_bind.mp h
    rw [names_checkFieldParts fs h, names_part hpart, names_checkPattern p hp, Pattern.varsFields,
      List.append_assoc]
end

theorem resolves_checkSplit (exp : Expected) (h : v.prim "splitAt" = true) :
    Resolves v (checkSplit exp) v :=
  (resolves_freshType ..).bind fun _ => (resolves_freshType ..).bind fun _ =>
    (resolves_freshType ..).bind fun _ => (resolves_unifyFrom ..).bind fun _ =>
    (resolves_addGoals ..).bind fun _ => (resolves_checkPrim _ _ _ h).bind fun _ =>
    (resolves_freshName _).bind fun _ => (resolves_freshName _).bind fun _ =>
    (resolves_monoDecl ..).bind fun _ => .pure _

mutual
theorem resolves_checkPattern : ∀ (p : Pattern) (exp : Expected), p.inScope v = true →
    Resolves v (checkPattern p exp) v
  | .located r p, exp, h => by
    rw [checkPattern]
    exact .withRange (resolves_checkPattern p exp h)
  | .var n, exp, _ => by
    rw [checkPattern]
    exact .pure _
  | .wildcard, exp, _ => by
    rw [checkPattern]
    exact (resolves_freshName _).bind fun _ => .pure _
  | .typed p t, exp, h => by
    obtain ⟨hp, ht⟩ := Bool.and_eq_true_iff.mp h
    rw [checkPattern]
    exact (resolves_checkType _ ht).bind fun _ => (resolves_unifyExact ..).bind fun _ =>
      resolves_checkPattern p _ hp
  | .tuple ps, exp, h => by
    rw [checkPattern]
    exact (resolves_expectTuple ..).bind fun _ => (resolves_freshName _).bind fun _ =>
      resolves_checkParts ps _ _ h
  | .record fs, exp, h => by
    rw [checkPattern]
    exact (resolves_expectRecord ..).bind fun _ => (resolves_freshName _).bind fun _ =>
      resolves_checkFieldParts fs _ _ h
  | .list ps, exp, h => by
    rw [checkPattern]
    exact (resolves_expectSeq _).bind fun _ => (resolves_unifyFrom ..).bind fun _ =>
      (resolves_freshName _).bind fun _ => resolves_checkParts ps _ _ h
  | .split left right, exp, h => by
    obtain ⟨h, hright⟩ := Bool.and_eq_true_iff.mp h
    obtain ⟨hprim, hleft⟩ := Bool.and_eq_true_iff.mp h
    rw [checkPattern]
    exact (resolves_checkSplit _ hprim).bind fun _ => (resolves_checkPattern left _ hleft).bind
      fun _ => (resolves_part ..).bind fun _ => (resolves_checkPattern right _ hright).bind fun _ =>
      (resolves_part ..).bind fun _ => .pure _

theorem resolves_checkParts : ∀ (ps : List Pattern) (slots : List (Selector × Expected))
    (whole : Matched), patternsInScope v ps = true → Resolves v (checkParts ps slots whole) v
  | p :: ps, (sel, exp) :: slots, whole, h => by
    obtain ⟨hp, hps⟩ := Bool.and_eq_true_iff.mp h
    rw [checkParts]
    exact (resolves_checkPattern p exp hp).bind fun _ => (resolves_part ..).bind fun _ =>
      resolves_checkParts ps slots _ hps
  | [], _, whole, _ => by
    rw [checkParts]
    · exact .pure _
    · simp
  | _ :: _, [], whole, _ => by
    rw [checkParts]
    · exact .pure _
    · simp

theorem resolves_checkFieldParts : ∀ (fs : List (String × Pattern)) (fields : Table String Ty)
    (whole : Matched), patternFieldsInScope v fs = true →
    Resolves v (checkFieldParts fs fields whole) v
  | [], _, whole, _ => by
    rw [checkFieldParts]
    exact .pure _
  | (l, p) :: fs, fields, whole, h => by
    obtain ⟨hp, hfs⟩ := Bool.and_eq_true_iff.mp h
    rw [checkFieldParts]
    exact (resolves_checkPattern p _ hp).bind fun _ => (resolves_part ..).bind fun _ =>
      resolves_checkFieldParts fs fields _ hfs
end

end SizedTypes.Infer
