import Mathlib
import SizedTypes.Proofs.Infer.Frame.Recursion
import SizedTypes.Proofs.Infer.Params.Recursion

/-!
# Parameters of declarations

A declaration quantifies over parameters that have been drawn for it alone. So as long as the counter
does not wrap around, the declarations that a run adds to its scopes share no parameter.
-/

set_option autoImplicit false

namespace SizedTypes

/-- What can be declared with parameters. -/
inductive Declaration where
  | synonym (ts : TypeSynonym)
  | newtype (nt : Newtype)
  /-- A value, by the id of its name. -/
  | value (id : Int) (sc : Schema)

namespace Declaration

def params : Declaration → List Param
  | .synonym ts => ts.params
  | .newtype nt => nt.params
  | .value _ sc => sc.params

/-- The declaration of a value with the types of its schema changed. -/
def mapTypes (f : Ty → Ty) : Declaration → Declaration
  | .synonym ts => .synonym ts
  | .newtype nt => .newtype nt
  | .value id sc => .value id (sc.mapTypes f)

theorem params_mapTypes (f : Ty → Ty) (d : Declaration) : (d.mapTypes f).params = d.params := by
  cases d <;> rfl

/-- The constructor function of a newtype. -/
def constructor (nt : Newtype) : Declaration := .value nt.conName.id nt.conSchema

end Declaration

/-! ## Counters that do not wrap around -/

/-- A counter gives out `k` ids without wrapping around. -/
def Unwrapped (next : Int) (k : Nat) : Prop := Word.Fits next ∧ next + k ≤ Word.maxValue

instance (next : Int) (k : Nat) : Decidable (Unwrapped next k) := inferInstanceAs (Decidable (_ ∧ _))

namespace Unwrapped

variable {next : Int} {j k : Nat}

theorem of_le (h : Unwrapped next k) (hjk : j ≤ k) : Unwrapped next j := ⟨h.1, by have := h.2; omega⟩

theorem iterate (h : Unwrapped next k) : Word.next^[k] next = next + k := by
  induction k with
  | zero => simp
  | succ k ih =>
    have hfits : Word.Fits (next + k + 1) := by
      obtain ⟨⟨hlo, -⟩, hhi⟩ := h
      exact ⟨by omega, by omega⟩
    rw [Function.iterate_succ_apply', ih (h.of_le k.le_succ), Word.next, Word.add,
      Word.wrap_eq_self hfits, Int.natCast_succ, Int.add_assoc]

/-- The rest of the draws. -/
theorem rest (h : Unwrapped next (j + k)) : Unwrapped (Word.next^[j] next) k := by
  rw [(h.of_le (Nat.le_add_right j k)).iterate]
  obtain ⟨⟨hlo, -⟩, hhi⟩ := h
  exact ⟨⟨by omega, by omega⟩, by omega⟩

theorem mem_drawn {i : Int} (h : Unwrapped next k) (hi : i ∈ drawn next k) :
    next ≤ i ∧ i < next + k := by
  obtain ⟨j, hj, rfl⟩ := hi
  rw [(h.of_le hj.le).iterate]
  omega

/-- The ids up to the end of the draws. -/
theorem below (h : Unwrapped next k) :
    {i | i < next} ∪ drawn next k ⊆ {i | i < Word.next^[k] next} := by
  rw [h.iterate]
  rintro i (hi | hi)
  · exact lt_of_lt_of_le (show i < next from hi) (by omega)
  · exact (h.mem_drawn hi).2

/-- An id that has been drawn is not drawn again. -/
theorem disjoint (h : Unwrapped next (j + k)) :
    Disjoint (drawn next j) (drawn (Word.next^[j] next) k) := by
  refine Set.disjoint_left.mpr fun i hi hi' => ?_
  have hlt := ((h.of_le (Nat.le_add_right j k)).mem_drawn hi).2
  have hle := (h.rest.mem_drawn hi').1
  rw [(h.of_le (Nat.le_add_right j k)).iterate] at hle
  omega

end Unwrapped

/-! ## Declarations with ids of their own -/

/-- The declarations `D` have parameters with ids from `A`, and no two of them share one. -/
structure Spread (A : Set Int) (D : Set Declaration) : Prop where
  within : ∀ d ∈ D, ∀ p ∈ d.params, p.id ∈ A
  apart : ∀ d ∈ D, ∀ d' ∈ D, ∀ p ∈ d.params, ∀ p' ∈ d'.params, p.id = p'.id → d = d'

namespace Spread

variable {A B : Set Int} {D D' : Set Declaration}

theorem empty : Spread A ∅ := ⟨nofun, nofun⟩

theorem single {d : Declaration} (h : ∀ p ∈ d.params, p.id ∈ A) : Spread A {d} :=
  ⟨by simpa using h, by simp⟩

/-- Declarations without parameters can be added. -/
theorem weaken (h : Spread A D) (hD : ∀ d ∈ D', d ∈ D ∨ d.params = []) : Spread A D' := by
  have hmem : ∀ d ∈ D', ∀ p ∈ d.params, d ∈ D := fun d hd p hp =>
    (hD d hd).resolve_right (List.ne_nil_of_mem hp)
  exact ⟨fun d hd p hp => h.within d (hmem d hd p hp) p hp, fun d hd d' hd' p hp p' hp' =>
    h.apart d (hmem d hd p hp) d' (hmem d' hd' p' hp') p hp p' hp'⟩

theorem union (h : Spread A D) (h' : Spread B D') (hAB : Disjoint A B) :
    Spread (A ∪ B) (D ∪ D') where
  within d hd p hp := hd.imp (fun hd => h.within d hd p hp) fun hd => h'.within d hd p hp
  apart d hd d' hd' p hp p' hp' heq := by
    rcases hd with hd | hd <;> rcases hd' with hd' | hd'
    · exact h.apart d hd d' hd' p hp p' hp' heq
    · have hA := h.within d hd p hp
      exact absurd (heq ▸ h'.within d' hd' p' hp') (Set.disjoint_left.mp hAB hA)
    · have hA := h.within d' hd' p' hp'
      exact absurd (heq ▸ h'.within d hd p hp) (Set.disjoint_left.mp hAB hA)
    · exact h'.apart d hd d' hd' p hp p' hp' heq

theorem image (h : Spread A D) {f : Declaration → Declaration}
    (hf : ∀ d, (f d).params = d.params) : Spread A (f '' D) where
  within := by
    rintro _ ⟨d, hd, rfl⟩ p hp
    exact h.within d hd p (hf d ▸ hp)
  apart := by
    rintro _ ⟨d, hd, rfl⟩ _ ⟨d', hd', rfl⟩ p hp p' hp' heq
    rw [h.apart d hd d' hd' p (hf d ▸ hp) p' (hf d' ▸ hp') heq]

end Spread

/-- The values that definitions declare. -/
def valuesOf (ds : List Core.Decl) : Set Declaration := {x | ∃ d ∈ ds, .value d.name.id d.schema = x}

/-- What a module declares with parameters is among `D`. -/
structure Core.Module.DeclaredIn (D : Set Declaration) (m : Core.Module) : Prop where
  synonyms : ∀ e ∈ m.synonyms, .synonym e.2 ∈ D
  newtypes : ∀ e ∈ m.newtypes, .newtype e.2 ∈ D
  values : ∀ d ∈ m.decls, .value d.name.id d.schema ∈ D

namespace Core.Module.DeclaredIn

variable {D D' : Set Declaration} {m child : Core.Module}

theorem mono (h : m.DeclaredIn D) (hD : D ⊆ D') : m.DeclaredIn D' :=
  ⟨fun e he => hD (h.synonyms e he), fun e he => hD (h.newtypes e he),
    fun d hd => hD (h.values d hd)⟩

theorem empty (n : Name) : (Core.Module.empty n).DeclaredIn D :=
  ⟨List.forall_mem_nil _, List.forall_mem_nil _, List.forall_mem_nil _⟩

theorem addSynonym (h : m.DeclaredIn D) {ts : TypeSynonym} (hts : .synonym ts ∈ D) :
    { m with synonyms := m.synonyms.insert ts.name.id ts }.DeclaredIn D :=
  { h with synonyms := Table.forall_mem_insert hts h.synonyms }

theorem addNewtype (h : m.DeclaredIn D) {nt : Newtype} (hnt : .newtype nt ∈ D) :
    { m with newtypes := m.newtypes.insert nt.name.id nt }.DeclaredIn D :=
  { h with newtypes := Table.forall_mem_insert hnt h.newtypes }

theorem addGroup (h : m.DeclaredIn D) (recursive : Bool) {ds : List Decl} (hds : valuesOf ds ⊆ D) :
    { m with groups := m.groups ++ [Group.mk recursive ds] }.DeclaredIn D := by
  refine { h with values := fun d hd => ?_ }
  rw [Core.Module.decls, List.flatMap_append, List.mem_append] at hd
  exact hd.elim (h.values d) fun hd => hds ⟨d, by simpa [Group.decls] using hd, rfl⟩

theorem absorb (h : m.DeclaredIn D) (hchild : child.DeclaredIn D) :
    (Scope.absorb m child).DeclaredIn D where
  synonyms := Table.forall_mem_union h.synonyms hchild.synonyms
  newtypes := Table.forall_mem_union h.newtypes hchild.newtypes
  values d hd := by
    simp only [Core.Module.decls, Scope.absorb, List.flatMap_append, List.mem_append] at hd
    exact hd.elim (h.values d) (hchild.values d)

end Core.Module.DeclaredIn

namespace Infer

open Surface (Bind Signature TypeExpr TypeParam)
open SizedTypes.Core (Decl Module)

variable {c : Context} {s s₁ s' : State} {D D' : Set Declaration}

/-! ## Draws for declarations -/

/-- From `s` to `s'` ids have been drawn, among them those of the parameters of `D`, for each
declaration its own. -/
def Supplies (D : Set Declaration) (s s' : State) : Prop :=
  ∃ k, Drew k s s' ∧ (Unwrapped s.nextTypeVar k → Spread (drawn s.nextTypeVar k) D)

namespace Supplies

theorem of_drew {k : Nat} (h : Drew k s s') : Supplies ∅ s s' := ⟨k, h, fun _ => .empty⟩

/-- Nothing that is declared comes out of the computation. -/
theorem of_draws {α : Type} {act : Infer α} {P : Set Int → α → Prop} {a : α}
    (h : Draws Set.univ act P) (hr : Returns act c s a s') (hc : c.solver.Confined) :
    Supplies ∅ s s' := by
  obtain ⟨k, hdrew, -⟩ := h.step hr (Context.paramsIn_univ hc) s.paramsIn_univ
  exact .of_drew hdrew

theorem refl (s : State) : Supplies ∅ s s := .of_drew (k := 0) ⟨rfl, rfl⟩

theorem trans (h : Supplies D s s₁) (h' : Supplies D' s₁ s') : Supplies (D ∪ D') s s' := by
  obtain ⟨j, hj, hD⟩ := h
  obtain ⟨k, hk, hD'⟩ := h'
  rw [hj.next] at hD'
  refine ⟨j + k, hj.trans hk, fun hwrap => ?_⟩
  rw [drawn_add]
  exact (hD (hwrap.of_le (Nat.le_add_right j k))).union (hD' hwrap.rest) hwrap.disjoint

theorem weaken (h : Supplies D s s') (hD : ∀ d ∈ D', d ∈ D ∨ d.params = []) : Supplies D' s s' := by
  obtain ⟨k, hdrew, hspread⟩ := h
  exact ⟨k, hdrew, fun hwrap => (hspread hwrap).weaken hD⟩

theorem before (h : Supplies ∅ s s₁) (h' : Supplies D s₁ s') : Supplies D s s' :=
  Set.empty_union D ▸ h.trans h'

theorem after (h : Supplies D s s₁) (h' : Supplies ∅ s₁ s') : Supplies D s s' :=
  Set.union_empty D ▸ h.trans h'

/-- All parameters of the declaration have been drawn. -/
theorem single {d : Declaration} {k : Nat} (h : Drew k s s')
    (hd : ∀ p ∈ d.params, p.id ∈ drawn s.nextTypeVar k) : Supplies {d} s s' :=
  ⟨k, h, fun _ => .single hd⟩

/-- The counter is all that matters of the last state, and of the first. -/
theorem congr {t : State} (h : Supplies D s s') (hnext : t.nextTypeVar = s'.nextTypeVar)
    (hdraws : t.draws = s'.draws) : Supplies D s t :=
  h.after (.of_drew (k := 0) ⟨hdraws, hnext⟩)

theorem start {t : State} (h : Supplies D t s') (hnext : t.nextTypeVar = s.nextTypeVar)
    (hdraws : t.draws = s.draws) : Supplies D s s' :=
  before (.of_drew (k := 0) ⟨hdraws, hnext⟩) h

end Supplies

theorem drew_freshParam {kd : Kind} {n : Option Name} {p : Param}
    (h : Returns (freshParam kd n) c s p s') : p.id = s.nextTypeVar ∧ Drew 1 s s' := by
  obtain ⟨rfl, rfl⟩ := returns_freshParam h
  exact ⟨rfl, rfl, rfl⟩

namespace Kinding

/-- Parameters are declared at ids drawn one after the other. -/
theorem drew_declare {ps : List TypeParam} {qs : List Param} {k k' : Kinding}
    (h : KindReturns (declare ps) c k s qs k' s') :
    Drew qs.length s s' ∧ ∀ q ∈ qs, q.id ∈ drawn s.nextTypeVar qs.length := by
  induction ps generalizing qs k s with
  | nil =>
    obtain ⟨rfl, rfl, rfl⟩ := kindReturns_pure.mp h
    exact ⟨⟨rfl, rfl⟩, List.forall_mem_nil _⟩
  | cons p ps ih =>
    obtain ⟨q, rest, ws, rfl, rfl, hrest⟩ := kindReturns_declare_cons h
    obtain ⟨hdrew, hids⟩ := ih hrest
    rw [List.length_cons, Nat.add_comm, drawn_add]
    refine ⟨Drew.trans ⟨rfl, rfl⟩ hdrew, List.forall_mem_cons.mpr ⟨Or.inl (mem_drawn_one _), ?_⟩⟩
    exact fun q hq => Or.inr (hids q hq)

theorem paramsIn_univ (k : Kinding) : k.ParamsIn Set.univ :=
  ⟨fun _ _ => trivial, fun g _ => g.prop.paramsIn_univ⟩

/-- The check of a written type, after the declaration of the parameters of `d`. -/
theorem supplies_of_draws {α : Type} {act : KindInfer α} {P : Set Int → α → Prop} {k k' : Kinding}
    {a : α} (h : KindDraws Set.univ act P) (hr : KindReturns act c k s a k' s')
    (hc : c.solver.Confined) : Supplies ∅ s s' := by
  obtain ⟨n, hdrew, -⟩ := h.step hr (Context.paramsIn_univ hc) k.paramsIn_univ s.paramsIn_univ
  exact .of_drew hdrew

/-- Parameters keep their ids when their kinds are settled. -/
theorem supplies_declare {ps : List TypeParam} {qs : List Param} {k k₁ k' : Kinding}
    {d : Declaration} (h : KindReturns (declare ps) c k s qs k₁ s') (hd : d.params = k'.settle qs) :
    Supplies {d} s s' := by
  obtain ⟨hdrew, hids⟩ := drew_declare h
  refine .single hdrew fun p hp => ?_
  rw [hd] at hp
  obtain ⟨q, hq, rfl⟩ := List.mem_map.mp hp
  exact hids q hq

end Kinding

theorem supplies_checkSignature {sig : Signature} {sc : Schema} (hc : c.solver.Confined)
    (h : Returns (checkSignature sig) c s sc s') (id : Int) : Supplies {.value id sc} s s' := by
  unfold checkSignature at h
  replace h := returns_withReader.mp h
  simp only [returns_bind, returns_pure] at h
  obtain ⟨⟨ps, k₁⟩, s₁, hdeclare, ⟨props, k₂⟩, s₂, hprops, ⟨body, k₃⟩, s₃, hbody, rfl, rfl⟩ := h
  have hchecked := (Kinding.supplies_of_draws (Kinding.draws_checkProps _) hprops hc).before
    (Kinding.supplies_of_draws (Kinding.draws_check ..) hbody hc)
  exact (Kinding.supplies_declare hdeclare rfl).after hchecked

/-! ## Scopes -/

/-- What the open scopes declare with parameters is among `D`. -/
def State.DeclaredIn (D : Set Declaration) (s : State) : Prop :=
  ∀ sc ∈ s.scopes, sc.content.DeclaredIn D

/-- From `s` to `s'` the declarations `N` have been added to the scopes. -/
structure Declares (N : Set Declaration) (s s' : State) : Prop where
  supplies : Supplies N s s'
  scopes : ∀ D, N ⊆ D → s.DeclaredIn D → s'.DeclaredIn D

namespace Declares

variable {N N' : Set Declaration}

theorem of_supplies (h : Supplies ∅ s s') (hscopes : s'.scopes = s.scopes) : Declares ∅ s s' :=
  ⟨h, fun D _ hD => by rwa [State.DeclaredIn, hscopes]⟩

theorem trans (h : Declares N s s₁) (h' : Declares N' s₁ s') : Declares (N ∪ N') s s' :=
  ⟨h.supplies.trans h'.supplies, fun D hD hs => h'.scopes D (Set.subset_union_right.trans hD)
    (h.scopes D (Set.subset_union_left.trans hD) hs)⟩

/-- What has been drawn for is added to the content of the innermost scope. -/
theorem of_modifyScope {f : Module → Module} {a : Unit}
    (hadd : Returns (modifyScope f) c s₁ a s') (h : Supplies N s s₁)
    (hscopes : s₁.scopes = s.scopes)
    (hf : ∀ D m, N ⊆ D → m.DeclaredIn D → (f m).DeclaredIn D) : Declares N s s' := by
  obtain ⟨sc, rest, hsc, rfl⟩ := returns_modifyScope hadd
  refine ⟨h.congr rfl rfl, fun D hD hs => ?_⟩
  rw [State.DeclaredIn, ← hscopes, hsc] at hs
  obtain ⟨hinner, houter⟩ := List.forall_mem_cons.mp hs
  exact List.forall_mem_cons.mpr ⟨hf D _ hD hinner, houter⟩

end Declares

/-! ## Types -/

theorem declares_checkSynonym {n : Name} {params : List TypeParam} {body : TypeExpr} {range : Range}
    {a : Unit} (hc : c.solver.Confined)
    (h : Returns (checkSynonym n params body range) c s a s') : ∃ N, Declares N s s' := by
  obtain ⟨ws, ps, k, s₁, t, k', s₂, ts, hdeclare, hinfer, hparams, -, -, hadd⟩ :=
    returns_checkSynonym h
  have hchecked := Kinding.supplies_of_draws (Kinding.draws_infer ..) hinfer hc
  have hscopes := ((Kinding.framed_infer ..).step hinfer).scopes.trans
    ((Kinding.framed_declare _).step hdeclare).scopes
  have hsupplies := (Kinding.supplies_declare (d := .synonym ts) hdeclare hparams).after hchecked
  exact ⟨_, .of_modifyScope hadd (hsupplies.start rfl rfl) hscopes
    fun D m hD hm => hm.addSynonym (Set.singleton_subset_iff.mp hD)⟩

theorem declares_checkNewtype {n : Name} {params : List TypeParam}
    {fields : List (String × TypeExpr)} {conName : Option Name} {range : Range} {a : Unit}
    (hc : c.solver.Confined) (h : Returns (checkNewtype n params fields conName range) c s a s') :
    ∃ N, Declares N s s' := by
  unfold checkNewtype at h
  replace h := returns_withReader.mp h
  simp only [returns_bind, declare, returns_modify] at h
  obtain ⟨⟨ps, k⟩, s₁, hdeclare, ⟨fs, k'⟩, s₂, hfields, ⟨⟩, s₃, hadd, rfl⟩ := h
  have hchecked := Kinding.supplies_of_draws (Kinding.draws_checkFields _) hfields hc
  have hscopes := ((Kinding.framed_checkFields _).step hfields).scopes.trans
    ((Kinding.framed_declare _).step hdeclare).scopes
  have hnewtype := Declares.of_modifyScope hadd
    ((Kinding.supplies_declare (d := .newtype _) hdeclare rfl).after hchecked) hscopes
    fun D m hD hm => hm.addNewtype (Set.singleton_subset_iff.mp hD)
  exact ⟨_, hnewtype.trans (.of_supplies (.of_drew (k := 0) ⟨rfl, rfl⟩) rfl)⟩

theorem declares_checkPrimType {n : Name} {kind : Kind} {props : List TypeExpr} {range : Range}
    {a : Unit} (hc : c.solver.Confined)
    (h : Returns (checkPrimType n kind props range) c s a s') : ∃ N, Declares N s s' := by
  obtain ⟨ps, k, s₁, hprops, hadd⟩ := returns_checkPrimType h
  exact ⟨_, .of_modifyScope hadd (Kinding.supplies_of_draws (Kinding.draws_checkProps _) hprops hc)
    ((Kinding.framed_checkProps _).step hprops).scopes fun D m _ hm => { hm with }⟩

theorem declares_checkParamType {n : Name} {kind : Kind} {a : Unit}
    (h : Returns (checkParamType n kind) c s a s') : ∃ N, Declares N s s' := by
  unfold checkParamType at h
  simp only [returns_bind, returns_modify] at h
  obtain ⟨p, s₁, hp, ⟨⟩, _, rfl, hadd⟩ := h
  have hdrew := Supplies.of_drew (drew_freshParam hp).2
  exact ⟨_, .of_modifyScope hadd (hdrew.congr rfl rfl) ((framed_freshParam ..).step hp).scopes
    fun D m _ hm => { hm with }⟩

theorem declares_checkParamProps {props : List TypeExpr} {range : Range} {a : Unit}
    (hc : c.solver.Confined) (h : Returns (checkParamProps props range) c s a s') :
    ∃ N, Declares N s s' := by
  unfold checkParamProps at h
  replace h := returns_withReader.mp h
  simp only [returns_bind, returns_modify] at h
  obtain ⟨⟨ps, k⟩, s₁, hprops, ⟨⟩, _, rfl, ⟨⟩, s₃, hadd, left, s₄, hsimplify, rfl⟩ := h
  have hchecked := Kinding.supplies_of_draws (Kinding.draws_checkProps _) hprops hc
  have hconstraint := Declares.of_modifyScope hadd (hchecked.congr rfl rfl)
    ((Kinding.framed_checkProps _).step hprops).scopes fun D m _ hm => { hm with }
  have hleft := Supplies.of_draws (draws_simplifyGoals fun g _ => g.prop.paramsIn_univ) hsimplify hc
  exact ⟨_, hconstraint.trans
    (.of_supplies (hleft.congr rfl rfl) ((framed_simplifyGoals _).step hsimplify).scopes)⟩

/-! ## Groups -/

theorem drew_planDeclare {plan plan' : Plan} {recursive : Bool} {n : Name} {v : VarType}
    (h : Returns (plan.declare recursive n v) c s plan' s') :
    Drew 0 s s' ∧ plan'.signatures = plan.signatures := by
  unfold Plan.declare at h
  split at h
  · simp only [declare, returns_modify_bind, returns_pure] at h
    obtain ⟨rfl, rfl⟩ := h
    exact ⟨⟨rfl, rfl⟩, rfl⟩
  · obtain ⟨rfl, rfl⟩ := returns_pure.mp h
    exact ⟨⟨rfl, rfl⟩, rfl⟩

/-- A signature that is planned has parameters of its own. -/
theorem supplies_planAdd {plan plan' : Plan} {recursive : Bool} {b : Bind}
    (hc : c.solver.Confined) (h : Returns (plan.add recursive b) c s plan' s') :
    ∃ N, Supplies N s s' ∧
      ∀ e ∈ plan'.signatures, e ∈ plan.signatures ∨ .value e.1 e.2 ∈ N := by
  unfold Plan.add at h
  replace h := returns_withReader.mp h
  split at h
  · obtain ⟨sc, s₁, hsc, h⟩ := returns_bind.mp h
    obtain ⟨hdrew, hsigs⟩ := drew_planDeclare h
    refine ⟨_, (supplies_checkSignature (c := c.located b.range) hc hsc b.name.id).after
      (.of_drew hdrew), ?_⟩
    rw [hsigs]
    exact Table.forall_mem_insert (Or.inr rfl) fun e he => Or.inl he
  · dsimp only at h
    split at h
    · obtain ⟨_, _, h, -⟩ := returns_bind.mp h
      exact absurd h not_returns_throw
    · obtain ⟨v, s₁, hv, h⟩ := returns_bind.mp h
      have hvar : Supplies ∅ s s₁ := .of_draws (draws_freshVar ..) hv hc
      split at h
      all_goals
        obtain ⟨hdrew, hsigs⟩ := drew_planDeclare h
        refine ⟨_, hvar.after (.of_drew hdrew), fun e he => Or.inl ?_⟩
        rwa [hsigs] at he

theorem supplies_planAll {recursive : Bool} {binds : List Bind} {plan plan' : Plan}
    (hc : c.solver.Confined)
    (h : Returns (binds.foldlM (fun plan b => plan.add recursive b) plan) c s plan' s') :
    ∃ N, Supplies N s s' ∧
      ∀ e ∈ plan'.signatures, e ∈ plan.signatures ∨ .value e.1 e.2 ∈ N := by
  induction binds generalizing plan s with
  | nil =>
    obtain ⟨rfl, rfl⟩ := returns_pure.mp h
    exact ⟨_, .refl _, fun e he => Or.inl he⟩
  | cons b bs ih =>
    rw [List.foldlM_cons, returns_bind] at h
    obtain ⟨plan₁, s₁, hb, h⟩ := h
    obtain ⟨N, hN, hplan₁⟩ := supplies_planAdd hc hb
    obtain ⟨N', hN', hplan'⟩ := ih h
    refine ⟨_, hN.trans hN', fun e he => ?_⟩
    rcases hplan' e he with he | he
    · exact (hplan₁ e he).imp_right Or.inl
    · exact Or.inr (Or.inr he)

theorem supplies_planGroup {top recursive : Bool} {binds : List Bind} {plan : Plan}
    (hc : c.solver.Confined) (h : Returns (planGroup top recursive binds) c s plan s') :
    ∃ N, Supplies N s s' ∧ ∀ e ∈ plan.signatures, .value e.1 e.2 ∈ N := by
  unfold planGroup at h
  rw [returns_read_bind] at h
  obtain ⟨⟨⟩, s₁, htrace, h⟩ := returns_bind.mp h
  obtain ⟨N, hN, hplan⟩ := supplies_planAll hc h
  exact ⟨N, (Supplies.of_draws (draws_trace _) htrace hc).before hN,
    fun e he => (hplan e he).resolve_left List.not_mem_nil⟩

/-- Two closings abstract over different parameters. -/
def Closing.Apart (cl cl' : Closing) : Prop :=
  ∀ p ∈ cl.params, ∀ p' ∈ cl'.params, p.id ≠ p'.id

/-- The closings of a group get parameters one after the other. -/
theorem drew_closings {cls cls' : List Closing} (h : Returns (cls.mapM Closing.draw) c s cls' s') :
    ∃ k, Drew k s s' ∧ (∀ cl ∈ cls', ∀ p ∈ cl.params, p.id ∈ drawn s.nextTypeVar k) ∧
      (Unwrapped s.nextTypeVar k → cls'.Pairwise Closing.Apart) := by
  induction cls generalizing cls' s with
  | nil =>
    obtain ⟨rfl, rfl⟩ := returns_mapM_nil.mp h
    exact ⟨0, ⟨rfl, rfl⟩, List.forall_mem_nil _, fun _ => .nil⟩
  | cons cl cls ih =>
    obtain ⟨cl', s₁, rest, hcl, hrest, rfl⟩ := returns_mapM_cons.mp h
    obtain ⟨hfirst, hids⟩ := drew_draw hcl
    obtain ⟨k, hdrew, hrest, happart⟩ := ih hrest
    rw [hfirst.next] at hrest happart
    refine ⟨_, hfirst.trans hdrew, ?_, fun hwrap => .cons (fun cl hcl p hp p' hp' heq => ?_)
      (happart hwrap.rest)⟩
    · rw [drawn_add]
      exact List.forall_mem_cons.mpr ⟨fun p hp => Or.inl (hids p hp),
        fun cl hcl p hp => Or.inr (hrest cl hcl p hp)⟩
    · exact Set.disjoint_left.mp hwrap.disjoint (hids p hp) (heq ▸ hrest cl hcl p' hp')

theorem pairwise_zip {α β : Type} {R : α → α → Prop} {xs : List α} (h : xs.Pairwise R)
    (ys : List β) : (xs.zip ys).Pairwise fun e e' => R e.1 e'.1 := by
  induction h generalizing ys with
  | nil => exact .nil
  | cons hx _ ih =>
    cases ys with
    | nil => exact .nil
    | cons y ys => exact .cons (fun e he => hx _ (List.of_mem_zip he).1) (ih ys)

/-- Two definitions quantify over different parameters. -/
def ApartDecls (d d' : Decl) : Prop :=
  ∀ p ∈ d.schema.params, ∀ p' ∈ d'.schema.params, p.id ≠ p'.id

instance : Std.Symm ApartDecls := ⟨fun _ _ h p hp p' hp' heq => h p' hp' p hp heq.symm⟩

theorem apart_result {g : Generalization} {ds : List Decl} {group : List (Int × Int)}
    (h : g.closings.Pairwise Closing.Apart) : (g.result ds group).Pairwise ApartDecls :=
  List.pairwise_map.mpr (pairwise_zip (pairwise_zip h _) _)

/-- A group that is generalized closes its bindings over parameters of their own. -/
theorem supplies_generalize {ds out : List Decl} {goals : List Goal} {group : List (Int × Int)}
    (hc : c.solver.Confined) (h : Returns (generalize ds goals group) c s out s') :
    Supplies (valuesOf out) s s' := by
  obtain ⟨g, hrun, rfl, -, events, rfl⟩ := stores_generalize h
  obtain ⟨outer, hdefaults⟩ := hrun.defaults
  obtain ⟨kept, hdraw⟩ := hrun.draw
  obtain ⟨k, hdrew, hids, happart⟩ := drew_closings hdraw
  have hgoals : ∀ gs : List Goal, GoalsIn Set.univ gs := fun _ g _ => g.prop.paramsIn_univ
  have hselected := Supplies.of_draws draws_solveSelectors hrun.selectors hc
  have hdefaulted := Supplies.of_draws (draws_defaultVars ..) hdefaults hc
  have hsimplified := Supplies.of_draws (draws_simplifyGoals (hgoals _)) hrun.simplify hc
  have hdrawn : Supplies (valuesOf (g.result ds group)) g.simplified g.drawn := by
    refine ⟨k, ⟨hdrew.draws, hdrew.next⟩, fun hwrap => ⟨?_, ?_⟩⟩
    · rintro _ ⟨d, hd, rfl⟩
      obtain ⟨e, he, rfl⟩ := List.mem_map.mp hd
      exact hids _ (List.of_mem_zip (List.of_mem_zip he).1).1
    · rintro _ ⟨d, hd, rfl⟩ _ ⟨d', hd', rfl⟩ p hp p' hp' heq
      by_contra hne
      exact (apart_result (happart hwrap)).forall hd hd' (fun heq => hne (heq ▸ rfl)) p hp p' hp' heq
  have hbefore := (hselected.before (hdefaulted.start rfl rfl)).before hsimplified
  exact (hbefore.before hdrawn).congr rfl rfl

theorem supplies_generalizeGroup {plan : Plan} {general : Infer (List Decl)} {gs : List Decl}
    {P : Set Int → List Decl → Prop} (hc : c.solver.Confined)
    (hgeneral : Draws Set.univ general P)
    (h : Returns (generalizeGroup plan general) c s gs s') : Supplies (valuesOf gs) s s' := by
  unfold generalizeGroup at h
  split at h
  · obtain ⟨rfl, rfl⟩ := returns_pure.mp h
    exact (Supplies.refl _).weaken fun _ ⟨_, hd, _⟩ => absurd hd List.not_mem_nil
  · obtain ⟨⟨ds, goals⟩, s₁, hcollect, h⟩ := returns_bind.mp h
    have hcollected : Draws Set.univ (collectGoals (do
        let ds ← general
        simplifyStore false
        return ds)) _ := draws_collectGoals (P := fun _ _ => True) (hgeneral.bind fun _ ds _ =>
      (draws_simplifyStore false).bind fun _ _ _ => .pure trivial)
    exact (Supplies.of_draws hcollected hcollect hc).before (supplies_generalize hc h)

theorem drew_pushAll (s : State) (vs : List (Name × VarType)) : Drew 0 s (s.pushAll vs) := by
  induction vs generalizing s with
  | nil => exact ⟨rfl, rfl⟩
  | cons v vs ih => exact ⟨(ih (s.push v)).draws, (ih (s.push v)).next⟩

/-- The definitions of a group have the parameters of their signatures, or others of their own. -/
theorem supplies_checkGroup {plan : Plan} {recursive : Bool} {binds : List Bind} {out : List Decl}
    {N : Set Declaration} (hc : c.solver.Confined)
    (hplan : Supplies N s s₁) (hsigs : ∀ e ∈ plan.signatures, .value e.1 e.2 ∈ N)
    (h : Returns (checkGroup plan recursive binds (checkGeneral plan binds)
      (checkOthers plan binds)) c s₁ out s') : Supplies (valuesOf out) s s' := by
  have huniv := plan.paramsIn_univ
  have hothers : ∀ {s s' : State} {os : List Decl},
      Returns (checkOthers plan binds) c s os s' → Supplies ∅ s s' ∧ ∀ d ∈ os, plan.Other d := by
    intro s s' os h
    obtain ⟨k, hdrew, -, hos⟩ := (draws_checkOthers binds huniv).step h
      (Context.paramsIn_univ hc) s.paramsIn_univ
    exact ⟨.of_drew hdrew, fun d hd => (hos d hd).2⟩
  have hout : ∀ {gs os ds : List Decl}, (∀ d ∈ ds, d ∈ gs ∨ d ∈ os) → (∀ d ∈ os, plan.Other d) →
      ∀ x ∈ valuesOf (inOrder binds ds), x ∈ N ∪ valuesOf gs ∨ x.params = [] := by
    rintro gs os ds hds hos _ ⟨d, hd, rfl⟩
    rcases hds d (mem_of_mem_inOrder hd) with hd | hd
    · exact Or.inl (Or.inr ⟨d, hd, rfl⟩)
    · exact (hos d hd).imp_left fun hsig => Or.inl (hsigs _ hsig)
  obtain ⟨-, gs, s₂, os, s₃, hgs, hos, hstore, rfl⟩ | ⟨-, os, s₂, gs, s₃, hos, hgs, hstore, rfl⟩ :=
    returns_checkGroup h
  all_goals
    have hgs := supplies_generalizeGroup hc (draws_checkGeneral binds huniv) hgs
    obtain ⟨hos, hother⟩ := hothers hos
    have hstore := Supplies.of_draws (draws_simplifyStore true) hstore hc
    have hunstash : ∀ n : Nat, Supplies ∅ s₃ (n.repeat State.unstash1 s₃) := fun n =>
      .of_draws (a := ⟨⟩) (draws_unstash n) (returns_modify.mpr rfl) hc
    have hend := (hunstash _).before hstore
  · have hpush := hos.start (drew_pushAll s₂ _).next (drew_pushAll s₂ _).draws
    exact ((hplan.trans hgs).after (hpush.before hend)).weaken
      (hout (fun d => List.mem_append.mp) hother)
  · exact ((hplan.trans (hos.before hgs)).after hend).weaken
      (hout (fun d hd => (List.mem_append.mp hd).symm) hother)

/-! ## Declarations -/

theorem declares_paramFun {top : Bool} {n : Name} {sig : Signature} {range : Range} {k : Nat}
    (hc : c.solver.Confined) (h : Returns (checkDecl top (.paramFun n sig range)) c s k s') :
    ∃ N, Declares N s s' := by
  obtain ⟨sc, s₁, s₂, hsig, hadd, rfl, -⟩ := returns_checkDecl_paramFun h
  have hsupplies := supplies_checkSignature (c := c.located range) hc hsig n.id
  have hfun := Declares.of_modifyScope hadd hsupplies ((framed_checkSignature _).step hsig).scopes
    fun D m _ hm => { hm with }
  exact ⟨_, hfun.trans (.of_supplies (.of_drew (k := 0) ⟨rfl, rfl⟩) rfl)⟩

theorem declares_group {top recursive : Bool} {binds : List Bind} {k : Nat}
    (hc : c.solver.Confined) (hs : s.vars.Sorted)
    (h : Returns (checkDecl top (.group recursive binds)) c s k s') : ∃ N, Declares N s s' := by
  obtain ⟨plan, s₁, out, s₂, hplan, hgroup, hadd, -⟩ := returns_checkDecl_group h
  obtain ⟨vs, hlen, hdeclared, hscopes⟩ := declared_planGroup hplan
  have hframe := frame_checkGroup hdeclared hscopes hlen hs (scoped_checkGeneral binds plan)
    (scoped_checkOthers binds plan) hgroup
  obtain ⟨N, hN, hsigs⟩ := supplies_planGroup hc hplan
  have hpush := drew_pushAll s₂ (out.map declVar)
  have hsupplies := (supplies_checkGroup hc hN hsigs hgroup).congr hpush.next hpush.draws
  exact ⟨_, .of_modifyScope hadd hsupplies ((scopes_pushAll ..).trans hframe.scopes)
    fun D m hD hm => hm.addGroup recursive hD⟩

/-- What a submodule has declared goes to the scope around it. -/
theorem declares_submodule {n : Name} {params : List Param} {assumptions : Assumptions} {a : Unit}
    {N : Set Declaration}
    (h : Declares N { s with scopes := ⟨.submodule, .empty n⟩ :: s.scopes } s₁)
    (hclose : Returns closeSubmodule c { s₁ with params, assumptions } a s') : Declares N s s' := by
  obtain ⟨child, parent, rest, hsc, -, rfl⟩ := returns_closeSubmodule hclose
  have hsupplies : Supplies N s s₁ := h.supplies.start rfl rfl
  refine ⟨hsupplies.congr rfl rfl, fun D hD hs => ?_⟩
  have hall := h.scopes D hD (List.forall_mem_cons.mpr ⟨.empty n, hs⟩)
  rw [State.DeclaredIn, show s₁.scopes = child :: parent :: rest from hsc] at hall
  obtain ⟨hchild, hall⟩ := List.forall_mem_cons.mp hall
  obtain ⟨hparent, hrest⟩ := List.forall_mem_cons.mp hall
  exact List.forall_mem_cons.mpr ⟨hparent.absorb hchild, hrest⟩

mutual
theorem declares_checkDecls : ∀ (ds : List Surface.Decl) {top : Bool} {k : Nat} {c : Context}
    {s s' : State}, Returns (checkDecls top ds) c s k s' → c.solver.Confined → s.vars.Sorted →
    ∃ N, Declares N s s'
  | [], top, k, c, s, s', h, _, _ => by
    rw [checkDecls, returns_pure] at h
    obtain ⟨-, rfl⟩ := h
    exact ⟨_, .of_supplies (.refl _) rfl⟩
  | d :: ds, top, k, c, s, s', h, hc, hs => by
    rw [checkDecls, returns_get_bind] at h
    split at h
    · obtain ⟨-, rfl⟩ := returns_pure.mp h
      exact ⟨_, .of_supplies (.refl _) rfl⟩
    · simp only [returns_bind, returns_pure] at h
      obtain ⟨m, s₁, hd, n, _, hds, -, rfl⟩ := h
      obtain ⟨vs, -, hfilled⟩ := filled_checkDecl d hd hs
      obtain ⟨N, hN⟩ := declares_checkDecl d hd hc hs
      obtain ⟨N', hN'⟩ := declares_checkDecls ds hds hc (hfilled.sorted hs)
      exact ⟨_, hN.trans hN'⟩

theorem declares_checkDecl : ∀ (d : Surface.Decl) {top : Bool} {k : Nat} {c : Context}
    {s s' : State}, Returns (checkDecl top d) c s k s' → c.solver.Confined → s.vars.Sorted →
    ∃ N, Declares N s s'
  | .synonym n params body range, top, k, c, s, s', h, hc, _ => by
    simp only [checkDecl, returns_bind, returns_pure] at h
    obtain ⟨⟨⟩, _, h, -, rfl⟩ := h
    exact declares_checkSynonym hc h
  | .newtype n params fields conName range, top, k, c, s, s', h, hc, _ => by
    simp only [checkDecl, returns_bind, returns_pure] at h
    obtain ⟨⟨⟩, _, h, -, rfl⟩ := h
    exact declares_checkNewtype hc h
  | .primType n kind props range, top, k, c, s, s', h, hc, _ => by
    simp only [checkDecl, returns_bind, returns_pure] at h
    obtain ⟨⟨⟩, _, h, -, rfl⟩ := h
    exact declares_checkPrimType hc h
  | .paramType n kind range, top, k, c, s, s', h, _, _ => by
    simp only [checkDecl, returns_bind, returns_pure] at h
    obtain ⟨⟨⟩, _, h, -, rfl⟩ := h
    exact declares_checkParamType h
  | .paramProps props range, top, k, c, s, s', h, hc, _ => by
    simp only [checkDecl, returns_bind, returns_pure] at h
    obtain ⟨⟨⟩, _, h, -, rfl⟩ := h
    exact declares_checkParamProps hc h
  | .paramFun n sig range, top, k, c, s, s', h, hc, _ => declares_paramFun hc h
  | .group recursive binds, top, k, c, s, s', h, hc, hs => declares_group hc hs h
  | .submodule n ds range, top, k, c, s, s', h, hc, hs => by
    obtain ⟨s₁, hds, hclose⟩ := returns_checkDecl_submodule h
    obtain ⟨N, hN⟩ := declares_checkDecls ds hds hc hs
    exact ⟨N, declares_submodule hN hclose⟩
end

end Infer
end SizedTypes
