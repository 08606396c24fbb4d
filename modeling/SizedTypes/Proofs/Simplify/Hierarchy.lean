import SizedTypes.Proofs.Simplify.Closure

/-!
# Instances and the class hierarchy

A goal is discharged if the assumptions entail it or a step reduces it to goals that are discharged
in turn. The instances of a class ask for no more than those of the classes that extend it, and
closed assumptions have the ancestors of every class in them. So whenever a type belongs to a class,
it belongs to all classes that the class extends.
-/

set_option autoImplicit false

namespace SizedTypes

open Ty

namespace Simplify

variable {A : Assumptions}

/-! ## Discharged goals -/

/-- Nothing is left of the goal under the assumptions. -/
inductive Discharged (A : Assumptions) : Ty → Prop
  | entailed {p : Ty} (h : A.entails p.normalize = true) : Discharged A p
  | reduced {p : Ty} {subs : List Ty} (hstep : step p.normalize = .reduced subs)
    (hsubs : ∀ q ∈ subs, Discharged A q) : Discharged A p

theorem Discharged.of_holds {p : Ty} (h : step p.normalize = .holds) : Discharged A p :=
  .reduced h (List.forall_mem_nil _)

theorem discharged_of_loop {residual stack out : List Ty} (h : loop A residual stack = .ok out)
    (hout : out = []) : residual = [] ∧ ∀ p ∈ stack, Discharged A p := by
  revert h
  fun_induction loop A residual stack with
  | case1 residual =>
    intro h
    cases h
    exact ⟨hout, List.forall_mem_nil _⟩
  | case2 residual goal stack p hentails ih =>
    intro h
    obtain ⟨hresidual, hstack⟩ := ih h
    exact ⟨hresidual, List.forall_mem_cons.mpr ⟨.entailed hentails, hstack⟩⟩
  | case3 residual goal stack p hentails hstep =>
    intro h
    cases h
  | case4 residual goal stack p hentails hstep ih =>
    exact fun h => absurd (ih h).1 (List.cons_ne_nil _ _)
  | case5 residual goal stack p hentails subs hstep ih =>
    intro h
    obtain ⟨hresidual, hall⟩ := ih h
    obtain ⟨hsubs, hstack⟩ := List.forall_mem_append.mp hall
    have hgoal : Discharged A goal :=
      .reduced hstep fun q hq => hsubs q (List.mem_reverse.mpr hq)
    exact ⟨hresidual, List.forall_mem_cons.mpr ⟨hgoal, hstack⟩⟩

theorem loop_of_discharged {residual stack : List Ty} (h : ∀ p ∈ stack, Discharged A p) :
    loop A residual stack = .ok residual := by
  fun_induction loop A residual stack with
  | case1 residual => rfl
  | case2 residual goal stack p hentails ih => exact ih (List.forall_mem_cons.mp h).2
  | case3 residual goal stack p hentails hstep =>
    cases (List.forall_mem_cons.mp h).1 with
    | entailed h => exact absurd h hentails
    | reduced h _ => cases hstep.symm.trans h
  | case4 residual goal stack p hentails hstep ih =>
    cases (List.forall_mem_cons.mp h).1 with
    | entailed h => exact absurd h hentails
    | reduced h _ => cases hstep.symm.trans h
  | case5 residual goal stack p hentails subs hstep ih =>
    obtain ⟨hgoal, hstack⟩ := List.forall_mem_cons.mp h
    cases hgoal with
    | entailed h => exact absurd h hentails
    | reduced h hsubs =>
      cases hstep.symm.trans h
      refine ih (List.forall_mem_append.mpr ⟨fun q hq => ?_, hstack⟩)
      exact hsubs q (List.mem_reverse.mp hq)

/-- Nothing is left of a goal exactly if all of its parts are discharged. -/
theorem simplify_eq_nil_iff {goal : Ty} :
    simplify goal A = .ok [] ↔ ∀ p ∈ goal.conjuncts, Discharged A p := by
  constructor
  · intro h p hp
    exact (discharged_of_loop h rfl).2 p (List.mem_reverse.mpr hp)
  · intro h
    exact loop_of_discharged fun p hp => h p (List.mem_reverse.mp hp)

theorem simplify_cls_eq_nil_iff {c : TyClass} {args : List Ty} :
    simplify (cls c args) A = .ok [] ↔ Discharged A (cls c args) := by
  rw [simplify_eq_nil_iff, conjuncts_eq_self (Elementary.cls c args).isJunction,
    List.forall_mem_singleton]

/-! ## Entailment of classes and primes -/

theorem exists_of_same_prop {pc : PropCon} {args : List Ty} {q : Ty}
    (h : (con (.prop pc) args).same q = true) :
    ∃ args', q.asProp? = some (pc, args') ∧ sameList args args' = true := by
  rw [same] at h
  split at h
  · rename_i d args' hq
    rw [Bool.and_eq_true] at h
    obtain ⟨hsame, hargs⟩ := h
    cases d with
    | prop pc' =>
      obtain rfl : pc = pc' := by simpa [Con.same] using hsame
      exact ⟨args', by rw [asProp?, hq], hargs⟩
    | _ => simp [Con.same] at hsame
  · cases h

/-- A predicate that is no comparison is entailed by an assumption of the same form only. -/
theorem exists_of_entails (pc : PropCon) {args : List Ty} (hpc : ∀ r, pc ≠ .compare r)
    (h : A.entails (con (.prop pc) args) = true) :
    ∃ q ∈ A.props, ∃ args', q.asProp? = some (pc, args') ∧ sameList args args' = true := by
  obtain ⟨q, hq, hsame | hweak⟩ := Assumptions.entails_iff.mp h
  · exact ⟨q, hq, exists_of_same_prop hsame⟩
  · have hnone : (con (.prop pc) args).asCompare? .geq = none := by
      unfold asCompare? asProp? expand
      split
      · rename_i heq
        cases heq
        exact absurd rfl (hpc _)
      · rfl
    rw [Assumptions.weakens, hnone] at hweak
    cases hweak

theorem entails_cls (hA : A.Closed) {c d : TyClass} {args : List Ty} (hd : d ∈ c.ancestors)
    (h : A.entails (cls c args) = true) : A.entails (cls d args) = true := by
  obtain ⟨q, hq, args', hprop, hargs⟩ := exists_of_entails (.cls c) nofun h
  refine Assumptions.entails_iff.mpr ⟨cls d args', hA.implies hq (.cls hprop hd), Or.inl ?_⟩
  simp [cls, same, expand, hargs, Con.same]

/-- A prime is finite, and one at least. -/
theorem Discharged.of_prime (hA : A.Closed) {n : Ty} (h : Discharged A (prime n)) :
    Discharged A (fin n) ∧ Discharged A (geq n (num 1)) := by
  have hfin : (fin n).normalize = fin n.normalize := rfl
  have hgeq : (geq n (num 1)).normalize = geq n.normalize (num 1) := rfl
  have hprime : (prime n).normalize = prime n.normalize := rfl
  generalize hm : n.normalize = m at hfin hgeq hprime
  cases h with
  | entailed h =>
    obtain ⟨q, hq, args', hprop, hargs⟩ := exists_of_entails .prime nofun (hprime ▸ h)
    obtain ⟨m', rfl, hm'⟩ : ∃ m', args' = [m'] ∧ m.same m' = true := by
      rcases args' with _ | ⟨m', _ | ⟨_, _⟩⟩ <;> simp [sameList] at hargs
      exact ⟨m', rfl, hargs⟩
    constructor
    · refine .entailed ?_
      rw [hfin]
      refine Assumptions.entails_iff.mpr ⟨_, hA.implies hq (.fin hprop), Or.inl ?_⟩
      simp [fin, same, expand, sameList, hm', Con.same]
    · refine .entailed ?_
      rw [hgeq]
      refine Assumptions.entails_iff.mpr ⟨_, hA.implies hq (.geq hprop), Or.inr ?_⟩
      simp [Assumptions.weakens, asCompare?, asProp?, geq, Ty.compare, expand, hm', num, eval,
        Size.geq]
  | reduced h _ =>
    rw [hprime] at h
    replace h : primeStep m = .reduced _ := h
    unfold primeStep at h
    split at h
    · rename_i k hk
      split at h
      · rename_i hprimek
        have htwo := two_le_of_isPrime hprimek
        constructor
        · refine .of_holds ?_
          rw [hfin]
          show finStep m = .holds
          rw [finStep, hk]
          rfl
        · refine .of_holds ?_
          rw [hgeq]
          show compareStep .geq m (num 1) = .holds
          have hone : (1 : Int) ≤ k := by omega
          simp [compareStep, hk, num, eval, compareSizes, Size.geq, hone]
      · cases h
    · cases h
    · cases h

end Simplify

/-! ## Instances of a class and of those it extends -/

namespace TyClass

open Simplify (Discharged)

/-- The class `c` extends the class `d` directly. -/
inductive Extends : TyClass → TyClass → Prop
  | logic : Extends .logic .zero
  | ring : Extends .ring .zero
  | integral : Extends .integral .ring
  | field : Extends .field .ring
  | roundField : Extends .round .field
  | roundCmp : Extends .round .cmp
  | cmp : Extends .cmp .eq
  | signedCmp : Extends .signedCmp .eq

theorem mem_supers_iff {c d : TyClass} : d ∈ c.supers ↔ Extends c d := by
  constructor
  · intro h
    cases c with
    | round =>
      rcases List.mem_pair.mp h with rfl | rfl
      · exact .roundField
      · exact .roundCmp
    | logic | ring | integral | field | cmp | signedCmp =>
      cases List.mem_singleton.mp h
      constructor
    | _ => cases h
  · intro h
    cases h <;> simp [supers]

/-- How a condition for an instance of the class `d` follows from those for one of `c`. -/
inductive Supplies (c d : TyClass) (subs : List Ty) : Ty → Prop
  | shared {q : Ty} (h : q ∈ subs) : Supplies c d subs q
  | part {a : Ty} (h : cls c [a] ∈ subs) : Supplies c d subs (cls d [a])
  | finite {n : Ty} (h : prime n ∈ subs) : Supplies c d subs (fin n)
  | positive {n : Ty} (h : prime n ∈ subs) : Supplies c d subs (geq n (num 1))
  | bit {args : List Ty} (h : d = zero ∨ d = eq) : Supplies c d subs (cls d [.con .bit args])

/-- An instance of `d` asks for nothing that the conditions for one of `c` do not give. -/
def Covers (c d : TyClass) (subs : List Ty) (v : Verdict) : Prop :=
  ∃ subs', v = .reduced subs' ∧ ∀ q ∈ subs', Supplies c d subs q

variable {c d : TyClass} {subs : List Ty}

theorem covers_holds : Covers c d subs .holds := ⟨[], rfl, List.forall_mem_nil _⟩

theorem covers_reduced {subs' : List Ty} (h : ∀ q ∈ subs', Supplies c d subs q) :
    Covers c d subs (.reduced subs') := ⟨subs', rfl, h⟩

theorem covers_forBit (hd : Extends c d) (h : c.forBit [] = .reduced subs) :
    Covers c d subs (d.forBit []) := by
  cases hd with
  | logic | cmp => exact covers_holds
  | _ => cases h

theorem covers_forInteger (hd : Extends c d) (h : c.forInteger [] = .reduced subs) :
    Covers c d subs (d.forInteger []) := by
  cases hd with
  | ring | integral | cmp => exact covers_holds
  | _ => cases h

theorem covers_forRational (hd : Extends c d) (h : c.forRational [] = .reduced subs) :
    Covers c d subs (d.forRational []) := by
  cases hd with
  | ring | field | roundField | roundCmp | cmp => exact covers_holds
  | _ => cases h

theorem covers_forIntMod {n : Ty} (hd : Extends c d) (h : c.forIntMod [] n = .reduced subs) :
    Covers c d subs (d.forIntMod [] n) := by
  cases hd with
  | ring =>
    cases h
    exact covers_reduced fun q hq => .shared hq
  | field =>
    cases h
    have hprime : prime n ∈ [prime n] := List.mem_singleton_self _
    exact covers_reduced (by simpa using ⟨.finite hprime, .positive hprime⟩)
  | _ => cases h

theorem exists_of_element_bit {elem : Ty} (h : Element.of elem = .bit)
    (helem : ∀ n args body, elem ≠ .synonym n args body) : ∃ args, elem = .con .bit args := by
  unfold Element.of at h
  split at h
  · cases h
  · split at h
    · rename_i hsame
      cases elem with
      | con c args =>
        simp only [same, Ty.bit, expand, Bool.and_eq_true] at hsame
        obtain rfl : c = .bit := by
          cases c with
          | bit => rfl
          | _ => simp [Con.same] at hsame
        exact ⟨args, rfl⟩
      | synonym n args body => exact absurd rfl (helem n args body)
      | _ => simp [same, Ty.bit, expand] at hsame
    · cases h

theorem covers_forSeq {n elem : Ty} (helem : ∀ n args body, elem ≠ .synonym n args body)
    (hd : Extends c d) (h : c.forSeq [] n elem = .reduced subs) :
    Covers c d subs (d.forSeq [] n elem) := by
  have hbit := fun h : Element.of elem = .bit => exists_of_element_bit h helem
  cases hd with
  | logic =>
    cases h
    exact covers_reduced (List.forall_mem_singleton.mpr (.part (List.mem_singleton_self _)))
  | ring =>
    cases helement : Element.of elem with
    | bit =>
      obtain ⟨args, rfl⟩ := hbit helement
      exact covers_reduced (List.forall_mem_singleton.mpr (.bit (.inl rfl)))
    | unknown => simp [forSeq, helement] at h
    | other =>
      obtain rfl : [cls ring [elem]] = subs := by simpa [forSeq, helement] using h
      exact covers_reduced (List.forall_mem_singleton.mpr (.part (List.mem_singleton_self _)))
  | integral =>
    cases helement : Element.of elem with
    | bit =>
      obtain rfl : [fin n] = subs := by simpa [forSeq, helement] using h
      have hring : forSeq ring [] n elem = .reduced [fin n] := by simp [forSeq, helement]
      rw [hring]
      exact covers_reduced fun q hq => .shared hq
    | unknown | other => simp [forSeq, helement] at h
  | cmp =>
    cases h
    exact covers_reduced (by simpa using ⟨.shared (by simp), .part (by simp)⟩)
  | signedCmp =>
    have hfin : fin n ∈ subs ∧ Supplies signedCmp eq subs (cls eq [elem]) := by
      cases helement : Element.of elem with
      | bit =>
        obtain ⟨args, rfl⟩ := hbit helement
        obtain rfl : [fin n, geq n (num 1)] = subs := by simpa [forSeq, helement] using h
        exact ⟨by simp, .bit (.inr rfl)⟩
      | unknown => simp [forSeq, helement] at h
      | other =>
        obtain rfl : [fin n, cls signedCmp [elem]] = subs := by simpa [forSeq, helement] using h
        exact ⟨by simp, .part (by simp)⟩
    exact covers_reduced (by simpa using ⟨.shared hfin.1, hfin.2⟩)
  | field | roundField | roundCmp => cases h

theorem Extends.isStructural (hd : Extends c d) (h : c.isStructural = true) :
    d.isStructural = true := by
  cases hd with
  | logic | ring | cmp | signedCmp => rfl
  | _ => cases h

theorem Extends.isPointwise (hd : Extends c d) (h : c.isPointwise = true) :
    d.isPointwise = true := by
  cases hd with
  | logic | ring => rfl
  | _ => cases h

/-- The instances of a class ask for no more than those of the classes that extend it. -/
theorem covers_instanceFor {t : Ty} (hd : Extends c d) (h : c.instanceFor [] t = .reduced subs) :
    Covers c d subs (d.instanceFor [] t) := by
  unfold instanceFor at h
  split at h
  · cases h
  · cases h
  · split at h
    · rename_i fields hc
      cases h
      rw [instanceFor, if_pos (hd.isStructural hc)]
      refine covers_reduced (List.forall_mem_map.mpr fun f hf => .part ?_)
      exact List.mem_map_of_mem (f := fun f : String × Ty => cls c [f.2]) hf
    · cases h
  · split at h
    · rename_i ts hc
      cases h
      rw [instanceFor, if_pos (hd.isStructural hc)]
      refine covers_reduced (List.forall_mem_map.mpr fun a ha => .part ?_)
      exact List.mem_map_of_mem (f := fun a => cls c [a]) ha
    · cases h
  · split at h
    · rename_i a b rest hc
      cases h
      rw [instanceFor, if_pos (hd.isPointwise hc)]
      exact covers_reduced (List.forall_mem_singleton.mpr (.part (List.mem_singleton_self _)))
    · cases h
  · exact covers_forBit hd h
  · exact covers_forInteger hd h
  · exact covers_forRational hd h
  · exact covers_forIntMod hd h
  · exact covers_forSeq (fun _ _ _ => expand_ne_synonym) hd h
  · cases h

end TyClass

/-! ## The hierarchy -/

namespace Simplify

open TyClass (Extends)

variable {A : Assumptions}

theorem Discharged.cls_bit {d : TyClass} (hd : d = .zero ∨ d = .eq) (args : List Ty) :
    Discharged A (cls d [.con .bit args]) := by
  refine .of_holds ?_
  rcases hd with rfl | rfl <;> rfl

/-- A type that belongs to a class belongs to the classes that it extends directly. -/
theorem Discharged.extends (hA : A.Closed) {c d : TyClass} {t : Ty}
    (h : Discharged A (cls c [t])) (hd : Extends c d) : Discharged A (cls d [t]) := by
  generalize hp : cls c [t] = p at h
  induction h generalizing c d t with
  | entailed h =>
    subst hp
    have hancestor : d ∈ c.ancestors := by
      rw [TyClass.ancestors_eq_flatMap]
      exact List.mem_flatMap.mpr ⟨d, TyClass.mem_supers_iff.mpr hd, List.mem_cons_self ..⟩
    exact .entailed (entails_cls hA hancestor h)
  | @reduced _ subs hstep hsubs ih =>
    subst hp
    have hinstance : c.instanceFor [] t.normalize.expand = .reduced subs := hstep
    obtain ⟨subs', hsuper, hcovers⟩ := TyClass.covers_instanceFor hd hinstance
    refine .reduced (p := cls d [t]) hsuper fun q hq => ?_
    cases hcovers q hq with
    | shared h => exact hsubs q h
    | part h => exact ih _ h hd rfl
    | finite h => exact ((hsubs _ h).of_prime hA).1
    | positive h => exact ((hsubs _ h).of_prime hA).2
    | bit h => exact .cls_bit h _

end Simplify

/-- What goes over to the classes that a class extends directly goes over to all its ancestors. -/
theorem TyClass.ancestor_induction {P : TyClass → Prop}
    (hstep : ∀ {c d : TyClass}, Extends c d → P c → P d) {c d : TyClass} (hd : d ∈ c.ancestors)
    (hc : P c) : P d := by
  induction hn : c.ancestors.length using Nat.strongRecOn generalizing c with
  | ind n ih =>
    rw [ancestors_eq_flatMap] at hd
    obtain ⟨e, he, hd⟩ := List.mem_flatMap.mp hd
    have hext := mem_supers_iff.mp he
    rcases List.mem_cons.mp hd with rfl | hd
    · exact hstep hext hc
    · have hlt : e.ancestors.length < c.ancestors.length := by
        cases hext <;> decide
      exact ih _ (hn ▸ hlt) hd (hstep hext hc) rfl

/-- Where a type belongs to a class under assumptions, it belongs to every class that this one
extends. -/
theorem simplify_ancestor {assumed : List Ty} {c d : TyClass} {t : Ty} (hd : d ∈ c.ancestors)
    (h : simplify (cls c [t]) (Assumptions.ofList assumed) = .ok []) :
    simplify (cls d [t]) (Assumptions.ofList assumed) = .ok [] := by
  have hA := Assumptions.closed_ofList assumed
  rw [Simplify.simplify_cls_eq_nil_iff] at h ⊢
  exact TyClass.ancestor_induction (P := fun c => Simplify.Discharged _ (cls c [t]))
    (fun hext h => h.extends hA hext) hd h

/-- A size that is not known. -/
def modulus : Ty := .free { id := 1, kind := .num }

/-- Integers modulo that size. -/
def modular : Ty := .con .intMod [modulus]

/-- The modulus is a prime, and so the integers modulo it are a field, with a zero. -/
theorem simplify_ancestor_modular :
    TyClass.zero ∈ TyClass.field.ancestors ∧
      simplify (cls .field [modular]) (Assumptions.ofList [prime modulus]) = .ok [] ∧
      simplify (cls .zero [modular]) (Assumptions.ofList [prime modulus]) = .ok [] := by
  have hzero : TyClass.zero ∈ TyClass.field.ancestors := by decide
  have hfield : simplify (cls .field [modular]) (Assumptions.ofList [prime modulus]) = .ok [] := by
    cbv
  exact ⟨hzero, hfield, simplify_ancestor hzero hfield⟩

end SizedTypes
