import Mathlib.Data.List.Nodup
import Mathlib.Data.List.Zip
import SizedTypes.Proofs.Table
import SizedTypes.Proofs.Ty.Shape
import SizedTypes.Schema

/-!
# Well-formed types

The types of a run: constructors have all of their arguments, the fields of a record are in order,
every synonym is expanded as it is declared, and variables depend on parameters in scope only.
Putting well-formed types in place of variables and parameters keeps all of this.
-/

set_option autoImplicit false

namespace SizedTypes

/-- What the types of a run refer to. -/
structure Setting where
  /-- Parameters on which variables may depend. -/
  scope : Int → Prop
  /-- Parameters that synonyms mention beside their own, such as those of a module. -/
  fixed : Int → Prop
  synonym : Int → TypeSynonym
  closed : ∀ n, (synonym n).body.varIds = []
  mentions : ∀ n, ∀ i ∈ (synonym n).body.shape.params,
    i ∈ (synonym n).params.map Param.id ∨ fixed i

namespace Setting

variable (W : Setting)

/-- The shape of a synonym at given arguments. -/
def expansion (n : Int) (args : List Ty) : Shape :=
  ((W.synonym n).body.instantiate (Schema.assignment (W.synonym n).params args)).shape

end Setting

namespace Ty

inductive WellFormed (W : Setting) : Ty → Prop
  | free {v : TyVar} : (∀ i ∈ v.scope, W.scope i) → WellFormed W (.free v)
  | bound {p : Param} : WellFormed W (.bound p)
  | con {c : Con} {args : List Ty} : args.length = c.kind.arity → (∀ a ∈ args, WellFormed W a) →
      WellFormed W (.con c args)
  | record {fs : List (String × Ty)} : Table.Sorted fs → (∀ f ∈ fs, WellFormed W f.2) →
      WellFormed W (.record fs)
  | synonym {n : Name} {args : List Ty} {body : Ty} : WellFormed W body →
      (∀ a ∈ args, WellFormed W a) → (W.synonym n.id).params.length ≤ args.length →
      body.shape = W.expansion n.id args → WellFormed W (.synonym n args body)
  | newtype {n : Name} {ps : List Param} {fs : List (String × Ty)} {args : List Ty} :
      (∀ a ∈ args, WellFormed W a) → WellFormed W (.newtype n ps fs args)

variable {W : Setting}

theorem WellFormed.expand : ∀ {t : Ty}, t.WellFormed W → t.expand.WellFormed W
  | .free _, h | .bound _, h | .con _ _, h | .record _, h | .newtype _ _ _ _, h => h
  | .synonym _ _ _, .synonym h _ _ _ => h.expand

theorem WellFormed.free_of_mem_vars {t : Ty} (h : t.WellFormed W) {v : TyVar}
    (hv : v ∈ t.vars) : (Ty.free v).WellFormed W := by
  induction h with
  | free hw =>
    rw [vars, List.mem_singleton] at hv
    exact hv ▸ .free hw
  | bound => simp [vars] at hv
  | con _ _ ih =>
    rw [vars, varsList_eq_flatMap, List.mem_flatMap] at hv
    obtain ⟨a, ha, hv⟩ := hv
    exact ih a ha hv
  | record _ _ ih =>
    rw [vars, varsFields_eq_flatMap, List.mem_flatMap] at hv
    obtain ⟨f, hf, hv⟩ := hv
    exact ih f hf hv
  | synonym _ _ _ _ ih _ => exact ih hv
  | newtype _ ih =>
    rw [vars, varsList_eq_flatMap, List.mem_flatMap] at hv
    obtain ⟨a, ha, hv⟩ := hv
    exact ih a ha hv

theorem WellFormed.of_find? {fs : Table String Ty} (h : (Ty.record fs).WellFormed W) {l : String}
    {t : Ty} (ht : fs.find? l = some t) : t.WellFormed W := by
  cases h with
  | record _ hfields => exact hfields _ (Table.mem_of_find? ht)

/-! ## Substitution -/

theorem find?_assignment {α : Type} (f : Ty → α) (ps : List Param) (as : List Ty) (i : Int) :
    ((Schema.assignment ps as).find? i).map f =
      Table.find? i ((ps.zip (as.map f)).map fun e => (e.1.id, e.2)).reverse := by
  rw [Schema.assignment, Table.find?_ofList, ← Table.find?_map, ← List.map_reverse, List.map_map,
    List.map_reverse, List.zip_map_right, List.map_map]
  rfl

theorem exists_find?_assignment {ps : List Param} {as : List Ty} (h : ps.length ≤ as.length)
    {i : Int} (hi : i ∈ ps.map Param.id) : ∃ a, (Schema.assignment ps as).find? i = some a := by
  have hkey : i ∈ ((ps.zip as).map fun e => (e.1.id, e.2)).map Prod.fst := by
    rw [List.map_map]
    have hfst : (ps.zip as).map (Prod.fst ∘ fun e : Param × Ty => (e.1.id, e.2)) =
        ((ps.zip as).map Prod.fst).map Param.id := by
      rw [List.map_map]
      rfl
    rw [hfst, List.map_fst_zip h]
    exact hi
  obtain ⟨a, ha, -⟩ := Table.exists_find?_ofList hkey
  exact ⟨a, ha⟩

theorem find?_assignment_of_mem {params : List Param} {args : List Ty}
    (hnodup : (params.map Param.id).Nodup) (hlen : params.length ≤ args.length) {p : Param} {t : Ty}
    (hmem : (p, t) ∈ params.zip args) :
    (Schema.assignment params args).find? p.id = some t := by
  have hfst : ((params.zip args).map fun e => (e.1.id, e.2)).map Prod.fst = params.map Param.id := by
    rw [List.map_map]
    show (params.zip args).map (Param.id ∘ Prod.fst) = _
    rw [← List.map_map, List.map_fst_zip hlen]
  exact Table.find?_ofList_of_mem (hfst.symm ▸ hnodup)
    (List.mem_map_of_mem (f := fun e : Param × Ty => (e.1.id, e.2)) hmem)

/-- A use of a synonym stays one: the substitution goes into the arguments. -/
theorem expansion_bind {f : TyVar → Ty} {g : Param → Ty} {F G : Int → Shape}
    (hf : ∀ v, (f v).shape = F v.id) (hg : ∀ p, (g p).shape = G p.id)
    (hfixed : ∀ i, W.fixed i → G i = .param i) {n : Int} {args : List Ty}
    (hlen : (W.synonym n).params.length ≤ args.length) :
    (W.expansion n args).bind F G = W.expansion n (args.map (Ty.bind f g)) := by
  rw [Setting.expansion, Setting.expansion, shape_instantiate, shape_instantiate, Shape.bind_bind]
  refine Shape.bind_congr (fun i hi => ?_) fun i hi => ?_
  · rw [← varIds_eq_shape, W.closed n] at hi
    cases hi
  · -- an own parameter has an argument; a fixed one stays
    rw [find?_assignment, find?_assignment, List.map_map]
    have hmap : args.map (shape ∘ Ty.bind f g) = args.map fun a => (a.shape).bind F G :=
      List.map_congr_left fun a _ => shape_bind hf hg a
    rw [hmap, ← find?_assignment, ← find?_assignment]
    rcases hfind : (Schema.assignment (W.synonym n).params args).find? i with _ | a
    · rcases W.mentions n i hi with hown | hi
      · obtain ⟨a, ha⟩ := exists_find?_assignment hlen hown
        rw [hfind] at ha
        cases ha
      · exact hfixed i hi
    · rfl

theorem sorted_mapValues {fs : List (String × Ty)} (h : Table.Sorted fs) (f : Ty → Ty) :
    Table.Sorted (fs.map fun e => (e.1, f e.2)) := by
  rw [Table.Sorted, List.map_map]
  exact h

theorem WellFormed.bind {f : TyVar → Ty} {g : Param → Ty} {F G : Int → Shape}
    (hf : ∀ v, (f v).shape = F v.id) (hg : ∀ p, (g p).shape = G p.id)
    (hfixed : ∀ i, W.fixed i → G i = .param i)
    (hfree : ∀ v, (Ty.free v).WellFormed W → (f v).WellFormed W)
    (hbound : ∀ p, (g p).WellFormed W) {t : Ty} (h : t.WellFormed W) :
    (t.bind f g).WellFormed W := by
  induction h with
  | free hv => exact hfree _ (.free hv)
  | bound => exact hbound _
  | con hlen _ ih =>
    rw [Ty.bind, bindList_eq_map]
    refine .con (by rw [List.length_map, hlen]) fun a ha => ?_
    obtain ⟨a', ha', rfl⟩ := List.mem_map.mp ha
    exact ih a' ha'
  | record hsorted _ ih =>
    rw [Ty.bind, bindFields_eq_map]
    refine .record (sorted_mapValues hsorted _) fun e he => ?_
    obtain ⟨e', he', rfl⟩ := List.mem_map.mp he
    exact ih e' he'
  | synonym _ _ hlen hshape ih ihargs =>
    rw [Ty.bind, bindList_eq_map]
    refine .synonym ih (fun a ha => ?_) (by rw [List.length_map]; exact hlen) ?_
    · obtain ⟨a', ha', rfl⟩ := List.mem_map.mp ha
      exact ihargs a' ha'
    · rw [shape_bind hf hg, hshape, expansion_bind hf hg hfixed hlen]
  | newtype _ ih =>
    rw [Ty.bind, bindList_eq_map]
    refine .newtype fun a ha => ?_
    obtain ⟨a', ha', rfl⟩ := List.mem_map.mp ha
    exact ih a' ha'

theorem WellFormed.replace {t u : Ty} (ht : t.WellFormed W) (hu : u.WellFormed W) (v : Int) :
    (t.replace v u).WellFormed W := by
  refine ht.bind (F := Shape.single v u.shape) (G := .param) (fun w => ?_) (fun _ => rfl)
    (fun _ _ => rfl) (fun w hw => ?_) fun _ => .bound
  · by_cases h : w.id = v
    · simp [Shape.single, h]
    · simp [Shape.single, h]
  · by_cases h : w.id = v
    · simpa [h] using hu
    · simpa [h] using hw

theorem WellFormed.instantiate {t : Ty} (ht : t.WellFormed W) {m : Table Int Ty}
    (hm : ∀ i u, m.find? i = some u → u.WellFormed W ∧ ¬W.fixed i) :
    (t.instantiate m).WellFormed W := by
  refine ht.bind (F := .var) (G := fun i => ((m.find? i).map shape).getD (.param i))
    (fun _ => rfl) (fun p => ?_) (fun i hi => ?_) (fun _ hv => hv) fun p => ?_
  · cases m.find? p.id with
    | none => rfl
    | some u => rfl
  · cases hfind : m.find? i with
    | none => rfl
    | some u => exact absurd hi (hm i u hfind).2
  · cases hfind : m.find? p.id with
    | none => exact .bound
    | some u => exact (hm p.id u hfind).1

end Ty
end SizedTypes
