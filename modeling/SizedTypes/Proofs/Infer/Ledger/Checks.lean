import SizedTypes.Infer.Expr
import SizedTypes.Proofs.Core.Awaited
import SizedTypes.Proofs.Infer.Frame.Recursion
import SizedTypes.Proofs.Infer.Generalize
import SizedTypes.Proofs.Infer.Ledger

/-!
# Terms wait for allocated goals

What a check elaborates waits for selector goals that have been allocated. While a module or a block
is being checked, so do the groups in the open scopes.
-/

set_option autoImplicit false

namespace SizedTypes.Infer

open Surface (Bind Enumeration Expr Pattern TypeArg TypeExpr UpdateHow)
open SizedTypes.Core (Decl Group Term awaited partsDecls partsGroups partsList partsMatches)

variable {α β : Type} {c : Context} {s s' : State} {known known' ids : List Int}

/-- The goals `ids` and those that the open scopes wait for have been allocated. -/
structure Backed (ids : List Int) (s : State) : Prop where
  ledger : ∃ seed n held, Ledger seed n held s
  scopes : ∀ sc ∈ s.scopes, ∀ id ∈ awaited (partsGroups sc.content.groups), s.Allocated id
  ids : ∀ id ∈ ids, s.Allocated id

namespace Backed

theorem mono (h : Backed known s) (hids : ids ⊆ known) : Backed ids s :=
  ⟨h.ledger, h.scopes, fun id hid => h.ids id (hids hid)⟩

theorem allocated (h : Backed known s) (hc : Counted s s') {id : Int} (hid : s.Allocated id) :
    s'.Allocated id := by
  obtain ⟨seed, n, held, hs⟩ := h.ledger
  exact hc.allocated hs hid

/-- The scopes of the later state wait for what those of the earlier one did, and for goals that
have been allocated. -/
theorem counted (h : Backed known s) (hc : Counted s s')
    (hscopes : ∀ sc ∈ s'.scopes, ∀ id ∈ awaited (partsGroups sc.content.groups),
      s.Allocated id) : Backed known s' where
  ledger := by
    obtain ⟨seed, n, held, hs⟩ := h.ledger
    obtain ⟨n', -, hs'⟩ := hc seed n held hs
    exact ⟨seed, n', held, hs'⟩
  scopes sc hsc id hid := h.allocated hc (hscopes sc hsc id hid)
  ids id hid := h.allocated hc (h.ids id hid)

theorem conserved (h : Backed known s) (hc : Conserved s s') : Backed known s' :=
  h.counted hc.counted fun sc hsc => h.scopes sc (hc.scopes ▸ hsc)

end Backed

/-- A computation that keeps the ledger; where the goals `known` have been allocated before, so have
those that its result waits for afterwards. -/
structure Awaits (known : List Int) (waits : α → List Int) (act : Infer α) : Prop where
  step : ∀ {c : Context} {s s' : State} {a : α}, Returns act c s a s' →
    Counted s s' ∧ (Backed known s → Backed (waits a) s')

/-- A computation whose result waits for nothing that is not known. -/
theorem Respects.awaits {act : Infer α} {waits : α → List Int} (h : Respects Conserved act)
    (hwaits : ∀ a, waits a ⊆ known) : Awaits known waits act where
  step ha := ⟨h.counted ha, fun hs => (hs.conserved (h.step ha)).mono (hwaits _)⟩

namespace Awaits

variable {waits : α → List Int} {waits' : β → List Int}

theorem counted (known : List Int) {act : Infer α} {a : α} (h : Awaits known waits act)
    (ha : Returns act c s a s') : Counted s s' := (h.step ha).1

theorem pure {a : α} (h : waits a ⊆ known) : Awaits known waits (Pure.pure a : Infer α) where
  step ha := by
    obtain ⟨rfl, rfl⟩ := returns_pure.mp ha
    exact ⟨.refl _, fun hs => hs.mono h⟩

theorem bind {act : Infer α} {f : α → Infer β} (h : Awaits known waits act)
    (h' : ∀ a, Awaits (known ++ waits a) waits' (f a)) : Awaits known waits' (act >>= f) where
  step hb := by
    obtain ⟨a, s₁, ha, hb⟩ := returns_bind.mp hb
    obtain ⟨hc, hback⟩ := h.step ha
    obtain ⟨hc', hback'⟩ := (h' a).step hb
    refine ⟨hc.trans hc', fun hs => hback' ?_⟩
    have hs₁ := hback hs
    exact ⟨hs₁.ledger, hs₁.scopes, fun id hid => (List.mem_append.mp hid).elim
      (fun hid => hs.allocated hc (hs.ids id hid)) (hs₁.ids id)⟩

theorem weaken {act : Infer α} (h : Awaits known waits act) (hknown : known ⊆ known') :
    Awaits known' waits act where
  step ha := ⟨(h.step ha).1, fun hs => (h.step ha).2 (hs.mono hknown)⟩

theorem throw (e : InternalError) : Awaits known waits (MonadExcept.throw e : Infer α) where
  step h := absurd h not_returns_throw

theorem throw_bind {e : InternalError} {f : α → Infer β} :
    Awaits known waits' (MonadExcept.throw e >>= f) where
  step h := by
    obtain ⟨a, s₁, h, -⟩ := returns_bind.mp h
    exact absurd h not_returns_throw

theorem withRange {r : Range} {act : Infer α} (h : Awaits known waits act) :
    Awaits known waits (withRange r act) where
  step ha := h.step (returns_withReader.mp ha)

theorem ite {p : Prop} [Decidable p] {act act' : Infer α} (h : Awaits known waits act)
    (h' : Awaits known waits act') : Awaits known waits (if p then act else act') := by
  split
  · exact h
  · exact h'

end Awaits

theorem Respects.bind_awaits {act : Infer α} {f : α → Infer β} {waits : β → List Int}
    (h : Respects Conserved act) (h' : ∀ a, Awaits known waits (f a)) :
    Awaits known waits (act >>= f) :=
  (h.awaits fun _ => List.nil_subset known).bind fun a =>
    (h' a).weaken (List.subset_append_left ..)

/-- The new goal has been allocated. -/
theorem awaits_newSelectorGoal (sel : Selector) (record field : Ty) :
    Awaits known (fun id => [id]) (newSelectorGoal sel record field) where
  step h := by
    have hc : Conserved _ _ := (respects_newSelectorGoal ..).step h
    refine ⟨hc.counted, fun hs => ?_⟩
    have hs' := hs.conserved hc
    obtain ⟨seed, n, held, hledger⟩ := hs.ledger
    obtain ⟨rfl, hnew⟩ := hledger.of_newSelectorGoal h
    refine ⟨hs'.ledger, hs'.scopes, List.forall_mem_singleton.mpr ?_⟩
    exact (hnew.allocated _).mpr ⟨n, Nat.lt_succ_self n, rfl⟩

/-! ## Variables and scopes -/

/-- A change beside the goals and the scopes. -/
theorem conserved_modify {f : State → State} (h : ∀ s, (f s).books = s.books)
    (hscopes : ∀ s, (f s).scopes = s.scopes) :
    Respects Conserved (modify f : Infer PUnit) :=
  .modify fun s => .of_books (h s) (hscopes s)

theorem conserved_declare (n : Name) (v : VarType) : Respects Conserved (Infer.declare n v) :=
  conserved_modify (fun _ => rfl) fun _ => rfl

theorem conserved_declareMonos (vs : List (Name × Ty)) :
    Respects Conserved (vs.forM fun v => declareMono v.1 v.2) :=
  .forM fun _ _ => conserved_declare ..

theorem conserved_unstash (n : Nat) : Respects Conserved (unstash n) :=
  conserved_modify (fun s => by rw [unstash_congr (s := s) rfl rfl]; rfl) fun s =>
    scopes_unstash s n

theorem awaits_openScope (kind : ScopeKind) (n : Name) :
    Awaits known (fun _ => []) (openScope kind n) where
  step {_ s _ _} h := by
    obtain rfl := returns_modify.mp h
    have hc : Counted s { s with scopes := ⟨kind, .empty n⟩ :: s.scopes } := .of_books rfl
    refine ⟨hc, fun hs => (hs.counted hc ?_).mono (List.nil_subset known)⟩
    exact List.forall_mem_cons.mpr ⟨fun id hid => absurd hid List.not_mem_nil, hs.scopes⟩

theorem awaits_modifyScope {f : Core.Module → Core.Module}
    (hf : ∀ m, awaited (partsGroups (f m).groups) ⊆ awaited (partsGroups m.groups) ++ known) :
    Awaits known (fun _ => []) (modifyScope f) where
  step {_ s _ _} h := by
    obtain ⟨sc, rest, hscopes, rfl⟩ := returns_modifyScope h
    have hc : Counted s { s with scopes := { sc with content := f sc.content } :: rest } :=
      .of_books rfl
    refine ⟨hc, fun hs => (hs.counted hc ?_).mono (List.nil_subset known)⟩
    have hopen := List.forall_mem_cons.mp (hscopes ▸ hs.scopes)
    refine List.forall_mem_cons.mpr ⟨fun id hid => ?_, hopen.2⟩
    exact (List.mem_append.mp (hf sc.content hid)).elim (hopen.1 id) (hs.ids id)

theorem awaits_closeBlock : Awaits known (fun gs => awaited (partsGroups gs)) closeBlock where
  step {_ s _ _} h := by
    obtain ⟨m, s₁, hpop, h⟩ := returns_bind.mp h
    obtain ⟨sc, rest, hscopes, -, rfl, rfl⟩ := returns_popScope hpop
    obtain ⟨rfl, rfl⟩ := returns_pure.mp h
    have hc : Counted s { s with scopes := rest } := .of_books rfl
    refine ⟨hc, fun hs => ?_⟩
    have hopen := List.forall_mem_cons.mp (hscopes ▸ hs.scopes)
    have hrest := hs.counted hc hopen.2
    exact ⟨hrest.ledger, hrest.scopes, fun id hid => hs.allocated hc (hopen.1 id hid)⟩

theorem awaits_closeSubmodule : Awaits known (fun _ => []) closeSubmodule where
  step {_ s _ _} h := by
    obtain ⟨child, parent, rest, hscopes, -, rfl⟩ := returns_closeSubmodule h
    have hc : Counted s { s with scopes :=
      { parent with content := Scope.absorb parent.content child.content } :: rest } :=
      .of_books rfl
    refine ⟨hc, fun hs => (hs.counted hc ?_).mono (List.nil_subset known)⟩
    obtain ⟨hchild, hopen⟩ := List.forall_mem_cons.mp (hscopes ▸ hs.scopes)
    obtain ⟨hparent, hrest⟩ := List.forall_mem_cons.mp hopen
    refine List.forall_mem_cons.mpr ⟨fun id hid => ?_, hrest⟩
    have hid : id ∈ awaited (partsGroups (parent.content.groups ++ child.content.groups)) := hid
    rw [Core.awaited_partsGroups, List.flatMap_append, ← Core.awaited_partsGroups,
      ← Core.awaited_partsGroups] at hid
    exact (List.mem_append.mp hid).elim (hparent id) (hchild id)

/-! ## Uses and literals -/

theorem awaits_checkVar (n : Name) (args : List TypeArg) (exp : Expected) :
    Awaits known (fun e => awaited e.parts) (checkVar n args exp) := by
  refine (respects_lookupVar n).bind_awaits fun v => ?_
  split
  · have hrest : ∀ name token t, Awaits known (fun e => awaited e.parts) (do
        unifyExact exp t
        return Term.groupVar name token) := fun _ _ _ =>
      (respects_unifyExact ..).bind_awaits fun _ => .pure (List.nil_subset _)
    split
    · exact hrest _ _ _
    · exact (respects_checkType ..).bind_awaits fun _ => (respects_recordError _).bind_awaits
        fun _ => hrest _ _ _
  · refine Respects.get.bind_awaits fun _ => (respects_typeArgs ..).bind_awaits fun _ =>
      (respects_instantiate ..).bind_awaits fun _ => (respects_addGoals ..).bind_awaits fun _ =>
      (respects_unifyExact ..).bind_awaits fun _ => .pure ?_
    rw [Term.awaited_instantiated]
    exact List.nil_subset known

theorem awaits_checkPrim (src : GoalSource) (ident : String) (args : List (String × Ty))
    (exp : Expected) : Awaits known (fun e => awaited e.parts) (checkPrim src ident args exp) := by
  refine (respects_prim ident).bind_awaits fun n => (respects_lookupVar n).bind_awaits fun v => ?_
  split
  · refine (Respects.pure _).bind_awaits fun sc => Respects.get.bind_awaits fun s => ?_
    dsimp only
    split
    · exact .throw_bind
    · refine (respects_instantiate ..).bind_awaits fun _ => (respects_addGoals ..).bind_awaits
        fun _ => (respects_unifyExact ..).bind_awaits fun _ => .pure ?_
      rw [Term.awaited_instantiated]
      exact List.nil_subset known
  · exact .throw_bind

/-- A sequence of terms, each of which waits for nothing. -/
theorem awaits_mapM {xs : List α} {f : α → Infer Term}
    (h : ∀ x known, Awaits known (fun e => awaited e.parts) (f x)) :
    Awaits known (fun es => awaited (partsList es)) (xs.mapM f) := by
  induction xs generalizing known with
  | nil => exact .pure (List.nil_subset _)
  | cons x xs ih =>
    rw [List.mapM_cons]
    refine (h x _).bind fun e => ih.bind fun es => .pure ?_
    simp [partsList]

theorem awaits_checkString (str : String) (exp : Expected) :
    Awaits known (fun e => awaited e.parts) (checkString str exp) := by
  refine (respects_unifyExact ..).bind_awaits fun _ =>
    (awaits_mapM fun _ _ => awaits_checkPrim ..).bind fun _ => .pure ?_
  simp [Term.parts, Core.Part.goal?]

theorem awaits_checkEnumeration (e : Enumeration) (exp : Expected) :
    Awaits known (fun e => awaited e.parts) (checkEnumeration e exp) := by
  have hrest : ∀ elem : List (String × Ty), Awaits known (fun e => awaited e.parts) (do
      let first ← checkBound "first" e.first
      let rest ← (enumerationPrim e).2.mapM fun b => checkBound b.1 b.2
      checkPrim .enumeration (enumerationPrim e).1 (first ++ elem ++ rest.flatten) exp) := fun _ =>
    (respects_checkBound ..).bind_awaits fun _ =>
      (Respects.mapM fun _ _ => respects_checkBound ..).bind_awaits fun _ => awaits_checkPrim ..
  unfold checkEnumeration
  cases e.elem with
  | none => exact (Respects.pure _).bind_awaits hrest
  | some t => exact (respects_checkType ..).bind_awaits fun _ => (Respects.pure _).bind_awaits hrest

/-! ## Patterns -/

theorem awaits_monoDecl {n : Name} {t : Ty} {e : Term} (h : awaited e.parts ⊆ known) :
    Awaits known (fun d => awaited d.parts) (monoDecl n t e) :=
  respects_currentRange.bind_awaits fun _ => .pure (by simpa [Decl.parts] using h)

theorem awaits_part {whole : Matched} {sel : Selector} {t : Ty} {m : Matched}
    (hwhole : awaited (partsDecls whole.decls) ⊆ known)
    (hm : awaited (partsDecls m.decls) ⊆ known) :
    Awaits known (fun m => awaited (partsDecls m.decls)) (whole.part sel t m) := by
  have hselect : awaited (Term.select (.var whole.name) sel).parts ⊆ known := List.nil_subset known
  refine (awaits_monoDecl hselect).bind fun d => .pure ?_
  simp only [Core.awaited_partsDecls, List.flatMap_append, List.flatMap_cons] at hwhole hm ⊢
  grind

theorem awaits_checkSplit (exp : Expected) :
    Awaits known (fun r => awaited (partsDecls r.2.1.decls)) (checkSplit exp) := by
  refine (respects_freshType ..).bind_awaits fun _ => (respects_freshType ..).bind_awaits fun _ =>
    (respects_freshType ..).bind_awaits fun _ => (respects_unifyFrom ..).bind_awaits fun _ =>
    (respects_addGoals ..).bind_awaits fun _ => (awaits_checkPrim ..).bind fun split =>
    (respects_freshName _).bind_awaits fun _ => (respects_freshName _).bind_awaits fun _ => ?_
  refine (awaits_monoDecl ?_).bind fun d => .pure ?_
  · simp [Term.parts, Core.Part.goal?]
  · simp [partsDecls]

mutual
theorem awaits_checkPattern : ∀ (p : Pattern) (exp : Expected) {known : List Int},
    Awaits known (fun m => awaited (partsDecls m.decls)) (checkPattern p exp)
  | .located r p, exp, known => by
    rw [checkPattern]
    exact (awaits_checkPattern p exp).withRange
  | .var n, exp, known => by
    rw [checkPattern]
    exact .pure (List.nil_subset known)
  | .wildcard, exp, known => by
    rw [checkPattern]
    exact (respects_freshName _).bind_awaits fun _ => .pure (List.nil_subset known)
  | .typed p t, exp, known => by
    rw [checkPattern]
    exact (respects_checkType ..).bind_awaits fun _ => (respects_unifyExact ..).bind_awaits fun _ =>
      awaits_checkPattern p _
  | .tuple ps, exp, known => by
    rw [checkPattern]
    exact (respects_expectTuple ..).bind_awaits fun _ => (respects_freshName _).bind_awaits fun _ =>
      awaits_checkParts ps _ (List.nil_subset known)
  | .record fs, exp, known => by
    rw [checkPattern]
    exact (respects_expectRecord ..).bind_awaits fun _ =>
      (respects_freshName _).bind_awaits fun _ =>
      awaits_checkFieldParts fs _ (List.nil_subset known)
  | .list ps, exp, known => by
    rw [checkPattern]
    exact (respects_expectSeq _).bind_awaits fun _ => (respects_unifyFrom ..).bind_awaits fun _ =>
      (respects_freshName _).bind_awaits fun _ => awaits_checkParts ps _ (List.nil_subset known)
  | .split left right, exp, known => by
    rw [checkPattern]
    refine (awaits_checkSplit _).bind fun _ => (awaits_checkPattern left _).bind fun _ =>
      (awaits_part ?_ ?_).bind fun _ => (awaits_checkPattern right _).bind fun _ =>
      (awaits_part ?_ ?_).bind fun _ => .pure ?_
    all_goals grind

theorem awaits_checkParts : ∀ (ps : List Pattern) (slots : List (Selector × Expected))
    {whole : Matched} {known : List Int}, awaited (partsDecls whole.decls) ⊆ known →
    Awaits known (fun m => awaited (partsDecls m.decls)) (checkParts ps slots whole)
  | p :: ps, (sel, exp) :: slots, whole, known, h => by
    rw [checkParts]
    refine (awaits_checkPattern p exp).bind fun _ => (awaits_part ?_ ?_).bind fun _ =>
      awaits_checkParts ps slots ?_
    all_goals grind
  | [], _, whole, known, h => by
    rw [checkParts]
    · exact .pure h
    · simp
  | _ :: _, [], whole, known, h => by
    rw [checkParts]
    · exact .pure h
    · simp

theorem awaits_checkFieldParts : ∀ (fs : List (String × Pattern)) (fields : Table String Ty)
    {whole : Matched} {known : List Int}, awaited (partsDecls whole.decls) ⊆ known →
    Awaits known (fun m => awaited (partsDecls m.decls)) (checkFieldParts fs fields whole)
  | [], _, whole, known, h => by
    rw [checkFieldParts]
    exact .pure h
  | (l, p) :: fs, fields, whole, known, h => by
    rw [checkFieldParts]
    refine (awaits_checkPattern p _).bind fun _ => (awaits_part ?_ ?_).bind fun _ =>
      awaits_checkFieldParts fs fields ?_
    all_goals grind
end

/-! ## Functions and bindings -/

theorem awaits_checkParams (ps : List Pattern) (ts : List Ty) (i : Nat) :
    Awaits known (fun ms => awaited (partsDecls (ms.flatMap Matched.decls)))
      (checkParams i ps ts) := by
  induction ps generalizing i ts known with
  | nil =>
    rw [checkParams]
    · exact .pure (List.nil_subset known)
    · simp
  | cons p ps ih =>
    cases ts with
    | nil =>
      rw [checkParams]
      · exact .pure (List.nil_subset known)
      · simp
    | cons t ts =>
      rw [checkParams]
      refine (awaits_checkPattern p _).bind fun m => (conserved_declareMonos _).bind_awaits fun _ =>
        (ih ts (i + 1)).bind fun ms => .pure ?_
      simp only [Core.awaited_partsDecls, List.flatMap_cons, List.flatMap_append]
      grind

theorem awaited_underDecls (ds : List Decl) (e : Term) :
    awaited (underDecls ds e).parts = awaited e.parts ++ awaited (partsDecls ds) := by
  unfold underDecls
  split
  · simp [List.isEmpty_iff.mp ‹_›, partsDecls]
  · simp [Term.parts, Core.Part.goal?]

theorem awaited_abstracted (xs : List (Matched × Ty)) (e : Term) :
    awaited (xs.foldr (fun x body => .abs x.1.name x.2 body) e).parts = awaited e.parts := by
  induction xs with
  | nil => rfl
  | cons x xs ih => simpa [Term.parts, Core.Part.goal?] using ih

section Checkers

variable {body : Checker}
  (h : ∀ exp known, Awaits known (fun e => awaited e.parts) (body exp))
include h

theorem awaits_checkLambda (ps : List Pattern) (exp : Expected) :
    Awaits known (fun e => awaited e.parts) (checkLambda ps exp body) := by
  refine .ite (h exp known) ((respects_expectArrow ..).bind_awaits fun r => ?_)
  refine (awaits_checkParams ps _ 0).bind fun ms => (h _ _).bind fun out =>
    (conserved_unstash _).bind_awaits fun _ => .pure ?_
  rw [awaited_abstracted, awaited_underDecls]
  grind

theorem awaits_checkMono (b : Bind) (t : Ty) :
    Awaits known (fun d => awaited d.parts) (checkMono b t body) :=
  ((h _ known).bind fun e => .pure (by simp [Decl.parts])).withRange

theorem awaits_checkUpdate (path : List Selector) (how : UpdateHow) (exp : Expected) (out : Term)
    (hout : awaited out.parts ⊆ known) :
    Awaits known (fun e => awaited e.parts) (checkUpdate path how exp out body) := by
  unfold checkUpdate
  split
  · refine (respects_freshType ..).bind_awaits fun t => (awaits_newSelectorGoal ..).bind
      fun goal => ?_
    cases how with
    | set =>
      refine (h _ _).bind fun v => .pure ?_
      simp [Term.parts, Core.Part.goal?]
      grind
    | modify =>
      have hout' : ∀ f : Term, awaited out.parts ⊆ known ++ [goal] ++ awaited f.parts := by grind
      refine (h _ _).bind fun f => (respects_freshName _).bind_awaits fun x =>
        (awaits_monoDecl (hout' f)).bind fun d => .pure ?_
      simp [Term.parts, Core.Part.goal?, partsDecls]
      grind
  · exact .throw _

end Checkers

theorem awaits_withExistentials {waits : α → List Int} {act : Infer α}
    (h : Awaits known waits act) : Awaits known waits (withExistentials act) := by
  refine Respects.bind_awaits (.modify fun _ => .of_books rfl rfl) fun _ => h.bind fun a =>
    Respects.bind_awaits (.modify fun _ => .of_books rfl rfl) fun _ => .pure ?_
  exact List.subset_append_right ..

theorem awaits_collectGoals {waits : α → List Int} {act : Infer α} (h : Awaits known waits act) :
    Awaits known (fun r => waits r.1) (collectGoals act) := by
  refine Respects.get.bind_awaits fun _ => (respects_modifyGoals _).bind_awaits fun _ =>
    h.bind fun a => Respects.get.bind_awaits fun _ => (respects_modifyGoals _).bind_awaits fun _ =>
    .pure ?_
  exact List.subset_append_right ..

theorem awaits_withParams {waits : α → List Int} {ps : List Param} {asmps : List Ty}
    {act : Infer α} (h : Awaits known waits act) :
    Awaits known waits (withParams ps asmps act) := by
  refine Respects.get.bind_awaits fun outer =>
    Respects.bind_awaits (.modify fun _ => .of_books rfl rfl) fun _ =>
    (Respects.forM fun p _ => respects_nameParam p).bind_awaits fun _ => ?_
  refine .ite (Respects.bind_awaits (.modify fun _ => .of_books rfl rfl) fun _ => ?_) ?_
  all_goals
    refine h.bind fun a => Respects.bind_awaits ?_ fun _ => .pure (List.subset_append_right ..)
    exact .modify fun _ => .of_books rfl rfl

section Checkers

variable {body : Checker}
  (h : ∀ exp known, Awaits known (fun e => awaited e.parts) (body exp))
include h

theorem awaits_checkSigned (b : Bind) (sc : Schema) :
    Awaits known (fun d => awaited d.parts) (checkSigned b sc body) := by
  have hchecked : Awaits known (fun e => awaited e.parts) (do
      let e ← body ⟨sc.body, .definition b.name⟩
      simplifyStore false
      return e) :=
    (h _ known).bind fun e => (respects_simplifyStore _).bind_awaits fun _ =>
      .pure (List.subset_append_right ..)
  have hproved : Awaits known (fun e => awaited e.parts) (do
      let r ← collectGoals do
        let e ← body ⟨sc.body, .definition b.name⟩
        simplifyStore false
        return e
      proveSignature (.signature b.name) sc.params r.2
      return r.1) :=
    (awaits_collectGoals hchecked).bind fun r => (respects_proveSignature ..).bind_awaits fun _ =>
      .pure (List.subset_append_right ..)
  refine (Awaits.ite (.pure ?_) ((awaits_withParams hproved).bind fun e => .pure ?_)).withRange
  · simp [Decl.parts]
  · simp [Decl.parts, Term.awaited_generalized]

theorem awaits_checkSingle (b : Bind) :
    Awaits known (fun d => awaited d.parts) (checkSingle b body) := by
  unfold checkSingle
  split
  · exact (respects_checkSignature _).bind_awaits fun _ => awaits_checkSigned h ..
  · exact (respects_freshType ..).bind_awaits fun _ => awaits_checkMono h ..

end Checkers

end SizedTypes.Infer
