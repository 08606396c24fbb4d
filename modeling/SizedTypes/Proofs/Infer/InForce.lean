import SizedTypes.Proofs.Infer.Frame.Scoped
import SizedTypes.Proofs.Surface.Conditions

/-!
# What is in force

The type parameters on which new variables may depend, the parameters that can be referred to, the
assumptions and the open scopes of existential variables are in force while a part of a program is
checked. Small computations leave them alone. A signature brings parameters and assumptions into
force for the body of its binding and takes them back; for that, the names of its parameters must
not be in scope before.
-/

set_option autoImplicit false

namespace SizedTypes.Infer

open Surface (Bind paramIdsOf)
open SizedTypes.Core (Decl)

variable {c : Context} {s s₁ s' : State}

/-- The same scopes of existential variables are open. The innermost may have gained variables whose
names were in none of them. -/
def SameScopes : List (List (String × Ty)) → List (List (String × Ty)) → Prop
  | [], scopes => scopes = []
  | innermost :: outer, scopes => ∃ gained, scopes = (gained ++ innermost) :: outer ∧
      (gained.map Prod.fst).Nodup ∧
      ∀ ident ∈ gained.map Prod.fst, ∀ scope ∈ innermost :: outer, ident ∉ scope.map Prod.fst

theorem SameScopes.refl : ∀ scopes : List (List (String × Ty)), SameScopes scopes scopes
  | [] => rfl
  | _ :: _ => ⟨[], rfl, .nil, List.forall_mem_nil _⟩

theorem SameScopes.trans {scopes₁ scopes₂ scopes₃ : List (List (String × Ty))}
    (h : SameScopes scopes₁ scopes₂) (h' : SameScopes scopes₂ scopes₃) :
    SameScopes scopes₁ scopes₃ := by
  cases scopes₁ with
  | nil =>
    obtain rfl : scopes₂ = [] := h
    exact h'
  | cons innermost outer =>
    obtain ⟨gained, rfl, hnodup, hnew⟩ := h
    obtain ⟨more, rfl, hnodup', hnew'⟩ := h'
    obtain ⟨hinner, houter⟩ : (∀ ident ∈ more.map Prod.fst,
        ident ∉ (gained ++ innermost).map Prod.fst) ∧
        ∀ ident ∈ more.map Prod.fst, ∀ scope ∈ outer, ident ∉ scope.map Prod.fst :=
      ⟨fun ident hid => hnew' ident hid _ List.mem_cons_self,
        fun ident hid scope hscope => hnew' ident hid scope (List.mem_cons_of_mem _ hscope)⟩
    simp only [List.map_append, List.mem_append, not_or] at hinner
    refine ⟨more ++ gained, by rw [List.append_assoc], ?_, fun ident hid => ?_⟩
    · rw [List.map_append]
      exact hnodup'.append hnodup fun ident hid => (hinner ident hid).1
    · rw [List.map_append] at hid
      rcases List.mem_append.mp hid with hid | hid
      · exact List.forall_mem_cons.mpr ⟨(hinner ident hid).2, houter ident hid⟩
      · exact hnew ident hid

/-- A variable whose name no open scope has. -/
theorem SameScopes.gain {innermost : List (String × Ty)} {outer : List (List (String × Ty))}
    {ident : String} (t : Ty)
    (h : ((innermost :: outer).findSome? fun scope => scope.lookup ident) = none) :
    SameScopes (innermost :: outer) (((ident, t) :: innermost) :: outer) := by
  refine ⟨[(ident, t)], rfl, List.nodup_singleton _, fun name hname scope hscope hmem => ?_⟩
  obtain rfl : name = ident := List.mem_singleton.mp hname
  have hnone := List.findSome?_eq_none_iff.mp h scope hscope
  obtain ⟨e, he, rfl⟩ := List.mem_map.mp hmem
  exact absurd (List.lookup_eq_none_iff.mp hnone e he) (by simp)

/-- From `s` to `s'`, the same type variables and scopes of existential variables are in force. -/
structure SameNames (s s' : State) : Prop where
  typeVars : s'.typeVars = s.typeVars
  existentials : SameScopes s.existentials s'.existentials

/-- Besides, the same parameters and assumptions are in force. -/
structure InForce (s s' : State) : Prop extends SameNames s s' where
  params : s'.params = s.params
  assumptions : s'.assumptions = s.assumptions

theorem SameNames.refl (s : State) : SameNames s s := ⟨rfl, .refl _⟩

theorem SameNames.trans (h : SameNames s s₁) (h' : SameNames s₁ s') : SameNames s s' :=
  ⟨h'.typeVars.trans h.typeVars, h.existentials.trans h'.existentials⟩

namespace InForce

/-- A state that differs in other things only. -/
theorem of_fields (htypeVars : s'.typeVars = s.typeVars) (hex : s'.existentials = s.existentials)
    (hparams : s'.params = s.params) (hassumptions : s'.assumptions = s.assumptions) :
    InForce s s' :=
  ⟨⟨htypeVars, hex ▸ .refl _⟩, hparams, hassumptions⟩

theorem refl (s : State) : InForce s s := of_fields rfl rfl rfl rfl

theorem trans (h : InForce s s₁) (h' : InForce s₁ s') : InForce s s' :=
  ⟨h.toSameNames.trans h'.toSameNames, h'.params.trans h.params,
    h'.assumptions.trans h.assumptions⟩

end InForce

instance : Rules InForce where
  refl := .refl
  trans := .trans
  error _ _ := .of_fields rfl rfl rfl rfl
  message _ _ _ := .of_fields rfl rfl rfl rfl
  draw _ _ _ _ := .of_fields rfl rfl rfl rfl
  goals _ _ := .of_fields rfl rfl rfl rfl
  bind _ _ _ := .of_fields rfl rfl rfl rfl
  existential t hs hnew := ⟨⟨rfl, by rw [hs] at hnew ⊢; exact .gain t hnew⟩, rfl, rfl⟩
  select h := by
    simp only [newSelectorGoal, freshGoal, currentRange, bind_assoc, returns_get_bind,
      returns_set_bind, pure_bind, returns_read_bind, returns_modify_bind, returns_pure] at h
    rw [h.2]
    exact .of_fields rfl rfl rfl rfl

instance : SelectorRules InForce where
  solution _ _ := .of_fields rfl rfl rfl rfl
  pending _ _ := .of_fields rfl rfl rfl rfl

instance : SolvingRules InForce where
  solve h := respects_selectorRounds.step h
  ask _ _ _ := .of_fields rfl rfl rfl rfl

/-! ## Values and scopes -/

theorem inForce_declare (n : Name) (v : VarType) : Respects InForce (declare n v) :=
  .modify fun _ => .of_fields rfl rfl rfl rfl

theorem inForce_declareAll {α : Type} (xs : List α) (n : α → Name) (v : α → VarType) :
    Respects InForce (xs.forM fun x => declare (n x) (v x)) :=
  .forM fun _ _ => inForce_declare ..

theorem inForce_unstash (n : Nat) : Respects InForce (unstash n) :=
  .modify fun s => by
    rw [unstash_congr (s := s) rfl rfl]
    exact .of_fields rfl rfl rfl rfl

theorem inForce_openScope (kind : ScopeKind) (n : Name) : Respects InForce (openScope kind n) :=
  .modify fun _ => .of_fields rfl rfl rfl rfl

theorem inForce_popScope (kind : ScopeKind) : Respects InForce (popScope kind) where
  step h := by
    obtain ⟨sc, rest, -, -, -, rfl⟩ := returns_popScope h
    exact .of_fields rfl rfl rfl rfl

theorem inForce_modifyScope (f : Core.Module → Core.Module) :
    Respects InForce (modifyScope f) where
  step h := by
    obtain ⟨sc, rest, -, rfl⟩ := returns_modifyScope h
    exact .of_fields rfl rfl rfl rfl

/-! ## Computations that restore what is in force -/

/-- The type variables in scope are among `ids`. -/
structure Knows (ids : List Int) (s : State) : Prop where
  sorted : s.typeVars.Sorted
  known : ∀ id ∈ s.typeVars.keys, id ∈ ids

theorem Knows.of_sameNames {ids : List Int} (h : Knows ids s) (hsame : SameNames s s') :
    Knows ids s' := ⟨hsame.typeVars ▸ h.sorted, hsame.typeVars ▸ h.known⟩

/-- A computation that restores what is in force, wherever only `ids` are type variables. -/
structure Restores (ids : List Int) {α : Type} (act : Infer α) : Prop where
  step : ∀ {c : Context} {s s' : State} {a : α}, Returns act c s a s' → Knows ids s → InForce s s'

theorem Respects.restores {ids : List Int} {α : Type} {act : Infer α}
    (h : Respects InForce act) : Restores ids act := ⟨fun ha _ => h.step ha⟩

namespace Restores

variable {α β : Type} {ids ids' : List Int} {act : Infer α}

theorem pure (a : α) : Restores ids (Pure.pure a : Infer α) := (Respects.pure a).restores

/-- What follows may depend on what has been returned. -/
theorem andThen {f : α → Infer β} (h : Restores ids act)
    (h' : ∀ {c : Context} {s s' : State} {a : α}, Returns act c s a s' → Restores ids (f a)) :
    Restores ids (act >>= f) where
  step hb hs := by
    obtain ⟨a, s₁, ha, hb⟩ := returns_bind.mp hb
    have hact := h.step ha hs
    exact hact.trans ((h' ha).step hb (hs.of_sameNames hact.toSameNames))

theorem bind {f : α → Infer β} (h : Restores ids act) (h' : ∀ a, Restores ids (f a)) :
    Restores ids (act >>= f) := h.andThen fun _ => h' _

theorem withRange {r : Range} (h : Restores ids act) : Restores ids (withRange r act) where
  step ha hs := h.step (returns_withReader.mp ha) hs

theorem ite {p : Prop} [Decidable p] {act' : Infer α} (h : Restores ids act)
    (h' : Restores ids act') : Restores ids (if p then act else act') := by
  split
  · exact h
  · exact h'

/-- Where fewer type variables are in scope, the same is restored. -/
theorem mono (h : Restores ids' act) (hsub : ids ⊆ ids') : Restores ids act where
  step ha hs := h.step ha ⟨hs.sorted, fun id hid => hsub (hs.known id hid)⟩

end Restores

/-! ## Type parameters -/

/-- All names of the parameters are among `own`. -/
def NamedIn (own : List Int) (ps : List Param) : Prop :=
  ∀ p ∈ ps, ∀ n : Name, p.name = some n → n.id ∈ own

/-- The table with parameters by the ids of their names. -/
def nameAll (ps : List Param) (m : Table Int Param) : Table Int Param :=
  ps.foldl (fun m p => match p.name with
    | some n => m.insert n.id p
    | none => m) m

/-- The table without parameters of these names. -/
def forgetAll (ps : List Param) (m : Table Int Param) : Table Int Param :=
  ps.foldl (fun m p => match p.name with
    | some n => m.erase n.id
    | none => m) m

/-- Whether a parameter has the name `id`. -/
def HasName (ps : List Param) (id : Int) : Prop := ∃ p ∈ ps, ∃ n : Name, p.name = some n ∧ n.id = id

theorem hasName_cons {p : Param} {ps : List Param} {id : Int} :
    HasName (p :: ps) id ↔ (∃ n : Name, p.name = some n ∧ n.id = id) ∨ HasName ps id := by
  simp only [HasName, List.mem_cons, exists_eq_or_imp]

theorem sorted_nameAll (ps : List Param) {m : Table Int Param} (h : m.Sorted) :
    (nameAll ps m).Sorted := by
  induction ps generalizing m with
  | nil => exact h
  | cons p ps ih =>
    refine ih ?_
    dsimp only
    split
    · exact Table.sorted_insert h
    · exact h

theorem forgetAll_sublist (ps : List Param) (m : Table Int Param) :
    (forgetAll ps m).Sublist m := by
  induction ps generalizing m with
  | nil => exact List.Sublist.refl m
  | cons p ps ih =>
    refine (ih _).trans ?_
    dsimp only
    split
    · exact Table.erase_sublist _ _
    · exact List.Sublist.refl m

theorem sorted_forgetAll (ps : List Param) {m : Table Int Param} (h : m.Sorted) :
    (forgetAll ps m).Sorted := by
  induction ps generalizing m with
  | nil => exact h
  | cons p ps ih =>
    refine ih ?_
    dsimp only
    split
    · exact Table.sorted_erase h
    · exact h

theorem find?_nameAll {ps : List Param} {id : Int} (h : ¬HasName ps id) (m : Table Int Param) :
    (nameAll ps m).find? id = m.find? id := by
  induction ps generalizing m with
  | nil => rfl
  | cons p ps ih =>
    obtain ⟨hp, hps⟩ := not_or.mp (mt hasName_cons.mpr h)
    refine (ih hps _).trans ?_
    dsimp only
    split
    · rename_i n hn
      rw [Table.find?_insert, if_neg fun heq => hp ⟨n, hn, heq.symm⟩]
    · rfl

theorem find?_forgetAll {ps : List Param} {id : Int} {m : Table Int Param} (hm : m.Sorted) :
    (HasName ps id → (forgetAll ps m).find? id = none) ∧
      (¬HasName ps id → (forgetAll ps m).find? id = m.find? id) := by
  induction ps generalizing m with
  | nil => exact ⟨fun ⟨p, hp, _⟩ => absurd hp List.not_mem_nil, fun _ => rfl⟩
  | cons p ps ih =>
    rw [hasName_cons]
    cases hname : p.name with
    | none =>
      have heq : forgetAll (p :: ps) m = forgetAll ps m := by simp [forgetAll, hname]
      simpa [heq] using ih hm
    | some n =>
      have heq : forgetAll (p :: ps) m = forgetAll ps (m.erase n.id) := by simp [forgetAll, hname]
      obtain ⟨hin, hout⟩ := ih (Table.sorted_erase (k := n.id) hm)
      rw [heq]
      constructor
      · intro h
        by_cases hps : HasName ps id
        · exact hin hps
        · obtain ⟨n', hn', rfl⟩ := h.resolve_right hps
          obtain rfl := Option.some.inj hn'
          rw [hout hps, Table.find?_erase hm, if_pos rfl]
      · intro h
        obtain ⟨hp, hps⟩ := not_or.mp h
        rw [hout hps, Table.find?_erase hm, if_neg fun heq => hp ⟨n, rfl, heq.symm⟩]

/-- Parameters whose names were not in scope are taken back without a trace. -/
theorem forgetAll_nameAll {ps : List Param} {m : Table Int Param} (hm : m.Sorted)
    (hnew : ∀ id ∈ m.keys, ¬HasName ps id) : forgetAll ps (nameAll ps m) = m := by
  have hsorted := sorted_nameAll ps hm
  refine Table.ext_of_sorted (sorted_forgetAll ps hsorted) hm fun id => ?_
  by_cases h : HasName ps id
  · rw [(find?_forgetAll hsorted).1 h]
    cases hfind : m.find? id with
    | none => rfl
    | some p => exact absurd h (hnew id (List.mem_map.mpr ⟨_, Table.mem_of_find? hfind, rfl⟩))
  · rw [(find?_forgetAll hsorted).2 h, find?_nameAll h]

/-- Only the table of type variables changes, and messages. -/
theorem returns_nameParams {ps : List Param} {a : Unit} (h : Returns (ps.forM nameParam) c s a s') :
    s'.typeVars = nameAll ps s.typeVars ∧ s'.existentials = s.existentials ∧
      s'.params = s.params ∧ s'.assumptions = s.assumptions := by
  induction ps generalizing s with
  | nil =>
    rw [List.forM_eq_forM, List.forM_nil, returns_pure] at h
    rw [h.2]
    exact ⟨rfl, rfl, rfl, rfl⟩
  | cons p ps ih =>
    rw [List.forM_eq_forM, List.forM_cons, returns_bind] at h
    obtain ⟨⟨⟩, s₁, hp, hps⟩ := h
    obtain ⟨htypeVars, hex, hparams, hassumptions⟩ := ih hps
    have hone : s₁.typeVars = nameAll [p] s.typeVars ∧ s₁.existentials = s.existentials ∧
        s₁.params = s.params ∧ s₁.assumptions = s.assumptions := by
      unfold nameParam at hp
      cases hname : p.name with
      | none =>
        rw [hname] at hp
        rw [(returns_pure.mp hp).2]
        exact ⟨by simp [nameAll, hname], rfl, rfl, rfl⟩
      | some n =>
        simp only [hname, returns_get_bind] at hp
        have hinsert : nameAll [p] s.typeVars = s.typeVars.insert n.id p := by
          simp [nameAll, hname]
        rw [hinsert]
        split at hp
        · obtain ⟨⟨⟩, s₂, hwarn, hp⟩ := returns_bind.mp hp
          have hforce : InForce s s₂ := (respects_recordWarning _).step hwarn
          have hex : s₂.existentials = s.existentials := Kinding.existentials_recordWarning hwarn
          rw [returns_modify.mp hp]
          exact ⟨by rw [hforce.typeVars], hex, hforce.params, hforce.assumptions⟩
        · rw [returns_modify.mp hp]
          exact ⟨rfl, rfl, rfl, rfl⟩
    rw [htypeVars, hex, hparams, hassumptions, hone.1, hone.2.1, hone.2.2.1, hone.2.2.2]
    exact ⟨rfl, rfl, rfl, rfl⟩

/-- Parameters and assumptions are in force for the computation only. -/
theorem restores_withParams {α : Type} {ids own : List Int} {ps : List Param} {asmps : List Ty}
    {act : Infer α} (hnamed : NamedIn own ps) (hnew : ∀ id ∈ own, id ∉ ids)
    (h : Restores (ids ++ own) act) : Restores ids (withParams ps asmps act) where
  step {c s s' a} hr hs := by
    have hfresh : ∀ id ∈ s.typeVars.keys, ¬HasName ps id := by
      rintro _ hid ⟨p, hp, n, hn, rfl⟩
      exact hnew _ (hnamed p hp n hn) (hs.known _ hid)
    have hinside : ∀ s₂ s₃ : State, s₂.typeVars = nameAll ps s.typeVars →
        s₂.existentials = s.existentials → Returns act c s₂ a s₃ →
        s₃.typeVars = nameAll ps s.typeVars ∧ SameScopes s.existentials s₃.existentials := by
      intro s₂ s₃ htypeVars hex hact
      have hknows : Knows (ids ++ own) s₂ := by
        refine ⟨htypeVars ▸ sorted_nameAll ps hs.sorted, fun id hid => ?_⟩
        rw [htypeVars] at hid
        by_cases hname : HasName ps id
        · obtain ⟨p, hp, n, hn, rfl⟩ := hname
          exact List.mem_append_right _ (hnamed p hp n hn)
        · obtain ⟨e, he, rfl⟩ := List.mem_map.mp hid
          obtain ⟨b, hb⟩ := Table.exists_find?_of_mem he
          rw [find?_nameAll hname] at hb
          exact List.mem_append_left _ (hs.known _ (List.mem_map.mpr ⟨_, Table.mem_of_find? hb, rfl⟩))
      have hforce := h.step hact hknows
      exact ⟨hforce.typeVars.trans htypeVars, hex ▸ hforce.existentials⟩
    have hrestore : ∀ s₃ : State, s₃.typeVars = nameAll ps s.typeVars →
        SameScopes s.existentials s₃.existentials →
        InForce s { s₃ with typeVars := forgetAll ps s₃.typeVars, params := s.params
                            assumptions := s.assumptions } := by
      intro s₃ htypeVars hex
      refine ⟨⟨?_, hex⟩, rfl, rfl⟩
      exact (congrArg (forgetAll ps) htypeVars).trans (forgetAll_nameAll hs.sorted hfresh)
    unfold withParams at hr
    simp only [returns_get_bind, returns_modify_bind] at hr
    obtain ⟨⟨⟩, s₁, hnames, hr⟩ := returns_bind.mp hr
    obtain ⟨htypeVars, hex, -, -⟩ := returns_nameParams hnames
    split at hr
    · simp only [returns_modify_bind] at hr
      obtain ⟨b, s₃, hact, hr⟩ := returns_bind.mp hr
      simp only [returns_modify_bind, returns_pure] at hr
      obtain ⟨rfl, rfl⟩ := hr
      obtain ⟨htypeVars₃, hex₃⟩ :=
        hinside { s₁ with assumptions := s₁.assumptions.add asmps } s₃ htypeVars hex hact
      exact hrestore s₃ htypeVars₃ hex₃
    · obtain ⟨b, s₃, hact, hr⟩ := returns_bind.mp hr
      simp only [returns_modify_bind, returns_pure] at hr
      obtain ⟨rfl, rfl⟩ := hr
      obtain ⟨htypeVars₃, hex₃⟩ := hinside s₁ s₃ htypeVars hex hact
      exact hrestore s₃ htypeVars₃ hex₃

end SizedTypes.Infer
