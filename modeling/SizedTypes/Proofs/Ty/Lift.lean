import SizedTypes.Proofs.Core.Typing
import SizedTypes.Proofs.Table
import SizedTypes.Proofs.Ty.Transparent
import SizedTypes.Proofs.Ty.WellKinded

/-!
# Selecting from types

Selecting from a sequence selects from each element, and selecting from a function from its results,
through as many of them as stand around a record, a newtype or a tuple.
-/

set_option autoImplicit false

namespace SizedTypes

open SizedTypes.Core (Picks)

/-! ## The type of a lifted selection -/

theorem Kind.arrows_injective {ks ks' : List Kind} {res res' : Kind}
    (h : arrows ks res = arrows ks' res') (hres : res.isArrow = false)
    (hres' : res'.isArrow = false) : ks = ks' := by
  induction ks generalizing ks' with
  | nil =>
    cases ks' with
    | nil => rfl
    | cons k' ks' =>
      obtain rfl : res = arrow k' (arrows ks' res') := h
      cases hres
  | cons k ks ih =>
    cases ks' with
    | nil =>
      obtain rfl : arrow k (arrows ks res) = res' := h
      cases hres'
    | cons k' ks' =>
      obtain ⟨rfl, h'⟩ := Kind.arrow.inj h
      rw [ih h']

/-- A sequence or a function, which a selection goes through. -/
inductive Layer where
  | seq (len elem : Ty)
  | arrow (arg res : Ty)

namespace Layer

def con : Layer → Con
  | seq _ _ => .seq
  | arrow _ _ => .arrow

/-- The length of the sequence, the argument of the function. -/
def side : Layer → Ty
  | seq len _ => len
  | arrow arg _ => arg

/-- The type of the elements, of the results. -/
def inside : Layer → Ty
  | seq _ elem => elem
  | arrow _ res => res

/-- The same layer around another type. -/
def around (l : Layer) (t : Ty) : Ty := .con l.con [l.side, t]

end Layer

/-- A selector of records and newtypes, or of tuples. -/
def Selector.OfRecord : Selector → Prop
  | .field _ => True
  | .component i => 0 ≤ i
  | .element _ => False

namespace Ty

/-- The type of the part that a selector names in a record, a newtype or a tuple. -/
def part? (sel : Selector) (rec : Ty) : Option Ty :=
  match sel, rec with
  | .field l, .record fs => Table.find? l fs
  | .field l, .newtype _ ps fs args => Table.find? l (Newtype.fieldsAt ps fs args)
  | .component i, .con (.tuple _) ts => if 0 ≤ i then ts[i.toNat]? else none
  | _, _ => none

/-- The type of what a selector selects, from a record or lifted over sequences and functions. -/
def lift (sel : Selector) : Ty → Option Ty
  | .synonym _ _ body => lift sel body
  | .con .seq (n :: a :: _) => (lift sel a).map (.seq n)
  | .con .arrow (a :: b :: _) => (lift sel b).map (.arrow a)
  | t => part? sel t

/-- The outermost sequence or function. -/
def layer? (t : Ty) : Option Layer :=
  match t.expand with
  | .con .seq (n :: a :: _) => some (.seq n a)
  | .con .arrow (a :: b :: _) => some (.arrow a b)
  | _ => none

/-- The newtype behind the sequences and functions of a type has fields of value types, without
unification variables. -/
def Declared : Ty → Prop
  | .synonym _ _ body => body.Declared
  | .con .seq (_ :: a :: _) => a.Declared
  | .con .arrow (_ :: b :: _) => b.Declared
  | .newtype _ ps fs args =>
    ∀ f ∈ Newtype.fieldsAt ps fs args, f.2.kindOf = .type ∧ f.2.leafIds = []
  | _ => True

/-- The parameters of a type and of what a selector selects from it. -/
def selectedParams (sel : Selector) (t : Ty) : List Param :=
  t.params ++ ((t.lift sel).map params).getD []

variable {Γ : KindEnv} {sel : Selector} {t u : Ty} {l : Layer}

theorem lift_expand (sel : Selector) : ∀ t : Ty, t.expand.lift sel = t.lift sel
  | .free _ | .bound _ | .con _ _ | .record _ | .newtype _ _ _ _ => rfl
  | .synonym _ _ body => by rw [expand, lift, lift_expand sel body]

theorem declared_expand : ∀ t : Ty, t.expand.Declared ↔ t.Declared
  | .free _ | .bound _ | .con _ _ | .record _ | .newtype _ _ _ _ => Iff.rfl
  | .synonym _ _ body => by rw [expand, Declared, declared_expand body]

/-- The constructor of a layer comes with the parts that the layer shows, if not with more. -/
theorem exists_of_layer? (h : t.layer? = some l) :
    ∃ rest, t.expand = .con l.con (l.side :: l.inside :: rest) := by
  unfold layer? at h
  split at h
  · rename_i n a rest heq
    cases h
    exact ⟨rest, heq⟩
  · rename_i a b rest heq
    cases h
    exact ⟨rest, heq⟩
  · cases h

theorem lift_of_layer? (h : t.layer? = some l) : t.lift sel = (l.inside.lift sel).map l.around := by
  obtain ⟨rest, heq⟩ := exists_of_layer? h
  rw [← lift_expand, heq]
  cases l <;> rfl

theorem declared_of_layer? (h : t.layer? = some l) (ht : t.Declared) : l.inside.Declared := by
  obtain ⟨rest, heq⟩ := exists_of_layer? h
  rw [← declared_expand, heq] at ht
  cases l <;> exact ht

theorem size_of_layer? (h : t.layer? = some l) : l.inside.size < t.size := by
  obtain ⟨rest, heq⟩ := exists_of_layer? h
  have hle := t.size_expand_le
  rw [heq, size, sizeList, sizeList] at hle
  omega

/-! ## Parts of closed types -/

/-- The arguments of a constructor have the kinds that it takes. -/
theorem WellKinded.kinds_args {c : Con} {args : List Ty} {ks : List Kind} {res : Kind}
    (h : (Ty.con c args).WellKinded Γ) (hc : c.kind = Kind.arrows ks res)
    (hres : res.isArrow = false) : args.map kindOf = ks := by
  cases h with
  | con res' _ _ hkind hres' => exact Kind.arrows_injective (hkind.symm.trans hc) hres' hres

/-- A well-kinded sequence or function has no other parts than its layer shows. -/
theorem expand_of_layer? (ht : t.WellKinded Γ) (h : t.layer? = some l) :
    t.expand = l.around l.inside := by
  obtain ⟨rest, heq⟩ := exists_of_layer? h
  have hcon := heq ▸ ht.expand
  have hrest : rest.map kindOf = [] := by
    cases l with
    | seq len elem => exact (List.cons.inj (List.cons.inj (hcon.kinds_args rfl rfl)).2).2
    | arrow arg res => exact (List.cons.inj (List.cons.inj (hcon.kinds_args rfl rfl)).2).2
  rw [heq, List.map_eq_nil_iff.mp hrest, Layer.around]

theorem closed_of_layer? (ht : t.WellKinded Γ) (hclosed : t.leafIds = [])
    (hl : t.layer? = some l) : l.side.leafIds = [] ∧ l.inside.leafIds = [] := by
  replace hclosed := closed_expand hclosed
  rw [expand_of_layer? ht hl] at hclosed
  exact ⟨closed_of_mem_con hclosed (by simp), closed_of_mem_con hclosed (by simp)⟩

theorem WellKinded.inside (ht : t.WellKinded Γ) (hl : t.layer? = some l) :
    l.inside.WellKinded Γ := by
  have hexpand := ht.expand
  rw [expand_of_layer? ht hl] at hexpand
  cases hexpand with
  | con _ _ hargs _ _ => exact hargs _ (by simp)

theorem vars_around {l : Layer} {v u : TyVar} (hside : l.side.leafIds = [])
    (hu : u ∈ (l.around (.free v)).vars) : u = v := by
  rw [Layer.around, vars, varsList_eq_flatMap, List.mem_flatMap] at hu
  obtain ⟨a, ha, hu⟩ := hu
  rcases List.mem_pair.mp ha with rfl | rfl
  · have hmem := mem_leafIds_of_mem_varIds (mem_varIds_of_mem_vars hu)
    rw [hside] at hmem
    cases hmem
  · exact List.mem_singleton.mp hu

theorem params_around (l : Layer) (t : Ty) : (l.around t).params = l.side.params ++ t.params := by
  simp [Layer.around, params, paramsList]

theorem params_of_layer? (ht : t.WellKinded Γ) (hl : t.layer? = some l) :
    t.params = l.side.params ++ l.inside.params := by
  rw [← params_expand, expand_of_layer? ht hl, params_around]

theorem mem_selectedParams {p : Param} : p ∈ t.selectedParams sel ↔
    p ∈ t.params ∨ ∃ u, t.lift sel = some u ∧ p ∈ u.params := by
  unfold selectedParams
  cases t.lift sel <;> simp

theorem selectedParams_inside (ht : t.WellKinded Γ) (hl : t.layer? = some l) {p : Param}
    (hp : p ∈ l.inside.selectedParams sel) : p ∈ t.selectedParams sel := by
  rw [mem_selectedParams] at hp ⊢
  rw [params_of_layer? ht hl, lift_of_layer? hl]
  rcases hp with hp | ⟨u, hu, hp⟩
  · exact .inl (List.mem_append_right _ hp)
  · refine .inr ⟨l.around u, congrArg (Option.map l.around) hu, ?_⟩
    rw [params_around]
    exact List.mem_append_right _ hp

end Ty

end SizedTypes
