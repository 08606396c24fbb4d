import SizedTypes.Core.Term
import SizedTypes.Proofs.Table
import SizedTypes.Proofs.Ty.Leaves
import SizedTypes.Proofs.Ty.Shape

/-!
# Typing of elaborated terms

When a term without place-holders has a type. Types are compared up to synonyms and a congruence
of shapes. Evidence is counted, not checked. Only definitions that are not generalized occur in
blocks here.

`HasType` covers plain terms, and `Typed` selections, updates and comprehensions as well. The
generators of one arm of a comprehension are nested, so an arm is as long as the product of its
generators; the arms run side by side, and the shortest one decides the length. A typing only looks
at the variables that a term mentions, so it is kept when others come into scope.
-/

set_option autoImplicit false

namespace SizedTypes.Core

/-- The schemas of variables, by id. -/
def Env : Type := Int → Option Schema

/-- One more variable, in place of an earlier one with the same id. -/
def Env.set (Γ : Env) (n : Name) (sc : Schema) : Env := fun i => if i = n.id then some sc else Γ i

theorem Env.set_self (Γ : Env) (n : Name) (sc : Schema) : Γ.set n sc n.id = some sc := if_pos rfl

theorem Env.set_of_ne (Γ : Env) {n : Name} (sc : Schema) {i : Int} (h : i ≠ n.id) :
    Γ.set n sc i = Γ i := if_neg h

/-- A variable with the schema `sc`, applied to types for its first parameters, and once these
have all been given to evidence for its first `proofs` predicates. -/
inductive Uses (Γ : Env) (sc : Schema) : Term → List Ty → Nat → Prop
  | var {n : Name} : Γ n.id = some sc → Uses Γ sc (.var n) [] 0
  | typeApp {e : Term} {args : List Ty} {t : Ty} : Uses Γ sc e args 0 →
      args.length < sc.params.length → Uses Γ sc (.typeApp e t) (args ++ [t]) 0
  | proofApp {e : Term} {args : List Ty} {proofs : Nat} : Uses Γ sc e args proofs →
      args.length = sc.params.length → proofs < sc.props.length →
      Uses Γ sc (.proofApp e) args (proofs + 1)

inductive HasType (R : Shape → Shape → Prop) : Env → Term → Ty → Prop
  /-- All parameters of the schema have types and all predicates have evidence. -/
  | use {Γ : Env} {e : Term} {sc : Schema} {args : List Ty} : Uses Γ sc e args sc.props.length →
      args.length = sc.params.length → HasType R Γ e (sc.instantiate args).2
  | conv {Γ : Env} {e : Term} {t u : Ty} : HasType R Γ e t → R t.shape u.shape → HasType R Γ e u
  | app {Γ : Env} {f x : Term} {t u : Ty} : HasType R Γ f (.arrow t u) → HasType R Γ x t →
      HasType R Γ (.app f x) u
  | abs {Γ : Env} {n : Name} {e : Term} {t u : Ty} : HasType R (Γ.set n (.mono t)) e u →
      HasType R Γ (.abs n t e) (.arrow t u)
  | tuple {Γ : Env} {es : List Term} {ts : List Ty} : es.length = ts.length →
      (∀ p ∈ es.zip ts, HasType R Γ p.1 p.2) → HasType R Γ (.tuple es) (.tuple ts)
  | record {Γ : Env} {es : List (String × Term)} {fs : Table String Ty} : fs.Sorted →
      (es.map Prod.fst).Nodup → (∀ l, l ∈ fs.map Prod.fst ↔ l ∈ es.map Prod.fst) →
      (∀ f ∈ es, ∀ t, fs.find? f.1 = some t → HasType R Γ f.2 t) →
      HasType R Γ (.record es) (.record fs)
  | component {Γ : Env} {e : Term} {i : Nat} {ts : List Ty} {t : Ty} : HasType R Γ e (.tuple ts) →
      ts[i]? = some t → HasType R Γ (.select e (.component i)) t
  | field {Γ : Env} {e : Term} {l : String} {fs : Table String Ty} {t : Ty} :
      HasType R Γ e (.record fs) → fs.find? l = some t → HasType R Γ (.select e (.field l)) t
  /-- A position below the length of the sequence. -/
  | element {Γ : Env} {e : Term} {i n : Nat} {t : Ty} : HasType R Γ e (.seq (.num n) t) → i < n →
      HasType R Γ (.select e (.element i)) t
  | list {Γ : Env} {es : List Term} {t : Ty} : (∀ e ∈ es, HasType R Γ e t) →
      HasType R Γ (.list es t) (.seq (.num es.length) t)
  | ifThenElse {Γ : Env} {c e e' : Term} {t : Ty} : HasType R Γ c .bit → HasType R Γ e t →
      HasType R Γ e' t → HasType R Γ (.ifThenElse c e e') t
  | block {Γ : Env} {e : Term} {t : Ty} : HasType R Γ e t → HasType R Γ (.block e []) t
  /-- The first definition of a block is in scope for the others. -/
  | define {Γ : Env} {e body : Term} {n : Name} {t u : Ty} {prim : Bool} {r : Range}
      {gs : List Group} : HasType R Γ body u → HasType R (Γ.set n (.mono u)) (.block e gs) t →
      HasType R Γ (.block e (.mk false [.mk n (.mono u) (some body) prim r] :: gs)) t
  | located {Γ : Env} {r : Range} {e : Term} {t : Ty} : HasType R Γ e t →
      HasType R Γ (.located r e) t

variable {R : Shape → Shape → Prop} {Γ : Env}

/-- A variable at types for all of its parameters. -/
theorem hasType_instantiated {n : Name} {sc : Schema} {args : List Ty} (hn : Γ n.id = some sc)
    (hargs : args.length = sc.params.length) :
    HasType R Γ ((Term.var n).instantiated args sc.props.length) (sc.instantiate args).2 := by
  have htypes : ∀ (ts before : List Ty) (e : Term), Uses Γ sc e before 0 →
      before.length + ts.length ≤ sc.params.length →
      Uses Γ sc (ts.foldl Term.typeApp e) (before ++ ts) 0 := by
    intro ts
    induction ts with
    | nil =>
      intro before e he _
      rwa [List.append_nil]
    | cons t ts ih =>
      intro before e he hle
      rw [List.length_cons] at hle
      have hnext := ih (before ++ [t]) (.typeApp e t) (.typeApp he (by omega))
        (by rw [List.length_append, List.length_singleton]; omega)
      rwa [List.append_assoc, List.singleton_append] at hnext
  have hproofs : ∀ (us : List Unit) (proofs : Nat) (e : Term), Uses Γ sc e args proofs →
      proofs + us.length ≤ sc.props.length →
      Uses Γ sc (us.foldl (fun e _ => Term.proofApp e) e) args (proofs + us.length) := by
    intro us
    induction us with
    | nil => exact fun _ _ he _ => he
    | cons u us ih =>
      intro proofs e he hle
      rw [List.length_cons] at hle ⊢
      have hnext := ih (proofs + 1) (.proofApp e) (.proofApp he hargs (by omega)) (by omega)
      rwa [Nat.add_assoc, Nat.add_comm 1] at hnext
  have hall := htypes args [] (.var n) (.var hn) (by simp [hargs])
  have hdone := hproofs (List.replicate sc.props.length ()) 0 _ hall (by simp)
  rw [Nat.zero_add, List.length_replicate] at hdone
  exact .use hdone hargs

/-! ## Selections, updates and comprehensions -/

variable {R : Shape → Shape → Prop} {Γ Γ' : Env} {n : Name} {sc : Schema} {e : Term} {t : Ty}

/-! ### More variables in scope -/

/-- What is in scope stays in scope, with the same schema. -/
def Env.Le (Γ Γ' : Env) : Prop := ∀ i sc, Γ i = some sc → Γ' i = some sc

theorem Env.Le.set (h : Γ.Le Γ') (n : Name) (sc : Schema) : (Γ.set n sc).Le (Γ'.set n sc) := by
  intro i sc' hi
  by_cases hin : i = n.id
  · rw [hin, Env.set_self] at hi ⊢
    exact hi
  · rw [Env.set_of_ne _ _ hin] at hi ⊢
    exact h i sc' hi

theorem Env.le_set (hn : Γ n.id = none) : Γ.Le (Γ.set n sc) := by
  intro i sc' hi
  rw [Env.set_of_ne Γ sc fun hin => by simp [hin, hn] at hi]
  exact hi

/-! ### Comprehensions -/

/-- The variable that a qualifier brings into scope. -/
def Match.binds : Match → Name × Schema
  | .draw n _ t _ => (n, .mono t)
  | .define d => (d.name, d.schema)

/-- The length of a generator. -/
def Match.length? : Match → Option Ty
  | .draw _ len _ _ => some len
  | .define _ => none

/-- The qualifiers of an arm bring their variables into scope, one after the other. -/
def Env.under (Γ : Env) (ms : List Match) : Env :=
  ms.foldl (fun Γ m => Γ.set m.binds.1 m.binds.2) Γ

/-- Sizes put together from left to right; one if there are none. -/
def combined (f : SizeOp) : List Ty → Ty
  | [] => .num 1
  | n :: ns => ns.foldl (fun total n => .op f [total, n]) n

def armLength (ms : List Match) : Ty := combined .mul (ms.filterMap Match.length?)

def compLength (arms : List (List Match)) : Ty := combined .min (arms.map armLength)

theorem Env.Le.under (h : Γ.Le Γ') (ms : List Match) : (Γ.under ms).Le (Γ'.under ms) := by
  induction ms generalizing Γ Γ' with
  | nil => exact h
  | cons m ms ih => exact ih (h.set m.binds.1 m.binds.2)

/-! ### The rules -/

/-- A value of type `rec` has a part of type `t` at the selector. -/
inductive Picks : Selector → Ty → Ty → Prop
  | component {i : Nat} {ts : List Ty} {t : Ty} : ts[i]? = some t →
      Picks (.component i) (.tuple ts) t
  | field {l : String} {fs : Table String Ty} {t : Ty} : fs.find? l = some t →
      Picks (.field l) (.record fs) t
  /-- A field of a newtype, at the arguments of the newtype. -/
  | newtype {l : String} {n : Name} {ps : List Param} {fs : Table String Ty} {args : List Ty}
      {t : Ty} : (Newtype.fieldsAt ps fs args).find? l = some t →
      Picks (.field l) (.newtype n ps fs args) t
  /-- A position below the length of the sequence. -/
  | element {i n : Nat} {t : Ty} : i < n → Picks (.element i) (.seq (.num n) t) t

inductive Typed (R : Shape → Shape → Prop) : Env → Term → Ty → Prop
  /-- All parameters of the schema have types and all predicates have evidence. -/
  | use {Γ : Env} {e : Term} {sc : Schema} {args : List Ty} : Uses Γ sc e args sc.props.length →
      args.length = sc.params.length → Typed R Γ e (sc.instantiate args).2
  | conv {Γ : Env} {e : Term} {t u : Ty} : Typed R Γ e t → R t.shape u.shape → Typed R Γ e u
  | app {Γ : Env} {f x : Term} {t u : Ty} : Typed R Γ f (.arrow t u) → Typed R Γ x t →
      Typed R Γ (.app f x) u
  | abs {Γ : Env} {n : Name} {e : Term} {t u : Ty} : Typed R (Γ.set n (.mono t)) e u →
      Typed R Γ (.abs n t e) (.arrow t u)
  | tuple {Γ : Env} {es : List Term} {ts : List Ty} : es.length = ts.length →
      (∀ p ∈ es.zip ts, Typed R Γ p.1 p.2) → Typed R Γ (.tuple es) (.tuple ts)
  | record {Γ : Env} {es : List (String × Term)} {fs : Table String Ty} : fs.Sorted →
      (es.map Prod.fst).Nodup → (∀ l, l ∈ fs.map Prod.fst ↔ l ∈ es.map Prod.fst) →
      (∀ f ∈ es, ∀ t, fs.find? f.1 = some t → Typed R Γ f.2 t) →
      Typed R Γ (.record es) (.record fs)
  | select {Γ : Env} {e : Term} {sel : Selector} {rec t : Ty} : Typed R Γ e rec →
      Picks sel rec t → Typed R Γ (.select e sel) t
  /-- The updated value has the type of the value, which the term repeats. -/
  | update {Γ : Env} {e v : Term} {sel : Selector} {written rec t : Ty} : Typed R Γ e rec →
      Typed R Γ v t → Picks sel rec t → R written.shape rec.shape →
      Typed R Γ (.update written e sel v) rec
  | list {Γ : Env} {es : List Term} {t : Ty} : (∀ e ∈ es, Typed R Γ e t) →
      Typed R Γ (.list es t) (.seq (.num es.length) t)
  /-- Every qualifier sees the variables of those before it in its arm. -/
  | comp {Γ : Env} {len elem : Ty} {result : Term} {arms : List (List Match)} :
      (∀ arm ∈ arms, ∀ d, .define d ∈ arm → ∃ n u body prim r,
        d = .mk n (.mono u) (some body) prim r) →
      (∀ arm ∈ arms, ∀ before n len t e after, arm = before ++ .draw n len t e :: after →
        Typed R (Γ.under before) e (.seq len t)) →
      (∀ arm ∈ arms, ∀ before n u body prim r after,
        arm = before ++ .define (.mk n (.mono u) (some body) prim r) :: after →
        Typed R (Γ.under before) body u) →
      Typed R (Γ.under arms.flatten) result elem → R (compLength arms).shape len.shape →
      Typed R Γ (.comp len elem result arms) (.seq len elem)
  | ifThenElse {Γ : Env} {c e e' : Term} {t : Ty} : Typed R Γ c .bit → Typed R Γ e t →
      Typed R Γ e' t → Typed R Γ (.ifThenElse c e e') t
  | block {Γ : Env} {e : Term} {t : Ty} : Typed R Γ e t → Typed R Γ (.block e []) t
  /-- The first definition of a block is in scope for the others. -/
  | define {Γ : Env} {e body : Term} {n : Name} {t u : Ty} {prim : Bool} {r : Range}
      {gs : List Group} : Typed R Γ body u → Typed R (Γ.set n (.mono u)) (.block e gs) t →
      Typed R Γ (.block e (.mk false [.mk n (.mono u) (some body) prim r] :: gs)) t
  | located {Γ : Env} {r : Range} {e : Term} {t : Ty} : Typed R Γ e t →
      Typed R Γ (.located r e) t

/-- The rules without newtypes, updates and comprehensions are among them. -/
theorem HasType.typed (h : HasType R Γ e t) : Typed R Γ e t := by
  induction h with
  | use hu ha => exact .use hu ha
  | conv _ hr ih => exact .conv ih hr
  | app _ _ ihf ihx => exact .app ihf ihx
  | abs _ ih => exact .abs ih
  | tuple hlen _ ih => exact .tuple hlen ih
  | record hs hn hk _ ih => exact .record hs hn hk ih
  | component _ ht ih => exact .select ih (.component ht)
  | field _ ht ih => exact .select ih (.field ht)
  | element _ hi ih => exact .select ih (.element hi)
  | list _ ih => exact .list ih
  | ifThenElse _ _ _ ihc ihe ihe' => exact .ifThenElse ihc ihe ihe'
  | block _ ih => exact .block ih
  | define _ _ ihb ihe => exact .define ihb ihe
  | located _ ih => exact .located ih

theorem typed_var (hn : Γ n.id = some (.mono t)) : Typed R Γ (.var n) t := by
  have hargs : ([] : List Ty).length = (Schema.mono t).params.length := rfl
  have huse := (hasType_instantiated (R := R) hn hargs).typed
  have hbody : ((Schema.mono t).instantiate []).2 = t := Ty.bind_self t
  rwa [hbody] at huse

theorem Uses.mono {args : List Ty} {proofs : Nat} (h : Uses Γ sc e args proofs) (hle : Γ.Le Γ') :
    Uses Γ' sc e args proofs := by
  induction h with
  | var hn => exact .var (hle _ _ hn)
  | typeApp _ hlt ih => exact .typeApp ih hlt
  | proofApp _ hlen hlt ih => exact .proofApp ih hlen hlt

/-- A term keeps its type when more variables come into scope. -/
theorem Typed.mono (h : Typed R Γ e t) (hle : Γ.Le Γ') : Typed R Γ' e t := by
  induction h generalizing Γ' with
  | use hu ha => exact .use (hu.mono hle) ha
  | conv _ hr ih => exact .conv (ih hle) hr
  | app _ _ ihf ihx => exact .app (ihf hle) (ihx hle)
  | abs _ ih => exact .abs (ih (hle.set _ _))
  | tuple hlen _ ih => exact .tuple hlen fun p hp => ih p hp hle
  | record hs hn hk _ ih => exact .record hs hn hk fun f hf t ht => ih f hf t ht hle
  | select _ hp ih => exact .select (ih hle) hp
  | update _ _ hp hr ihe ihv => exact .update (ihe hle) (ihv hle) hp hr
  | list _ ih => exact .list fun e he => ih e he hle
  | comp hdefs _ _ _ hlen ihdraws ihdefs ihresult =>
    refine .comp hdefs ?_ ?_ (ihresult (hle.under _)) hlen
    · exact fun arm harm before n len t e after heq =>
        ihdraws arm harm before n len t e after heq (hle.under before)
    · exact fun arm harm before n u body prim r after heq =>
        ihdefs arm harm before n u body prim r after heq (hle.under before)
  | ifThenElse _ _ _ ihc ihe ihe' => exact .ifThenElse (ihc hle) (ihe hle) (ihe' hle)
  | block _ ih => exact .block (ih hle)
  | define _ _ ihb ihe => exact .define (ihb hle) (ihe (hle.set _ _))
  | located _ ih => exact .located (ih hle)

/-- A generator whose source is a sequence of its type. -/
def DrawsFrom (R : Shape → Shape → Prop) (Γ : Env) (m : Match) : Prop :=
  ∃ n len t e, m = .draw n len t e ∧ Typed R Γ e (.seq len t)

/-- Generators that run side by side, each in an arm of its own. -/
theorem Typed.parallel {ms : List Match} {len elem : Ty} {result : Term}
    (hdraws : ∀ m ∈ ms, DrawsFrom R Γ m)
    (hresult : Typed R (Γ.under ms) result elem)
    (hlen : R (compLength (ms.map fun m => [m])).shape len.shape) :
    Typed R Γ (.comp len elem result (ms.map fun m => [m])) (.seq len elem) := by
  have hsingle : ∀ {arm before after : List Match} {m : Match}, arm ∈ ms.map (fun m => [m]) →
      arm = before ++ m :: after → m ∈ ms ∧ before = [] := by
    intro arm before after m harm hsplit
    obtain ⟨m', hm', rfl⟩ := List.mem_map.mp harm
    cases before with
    | nil =>
      cases hsplit
      exact ⟨hm', rfl⟩
    | cons b before => simp at hsplit
  refine .comp ?_ ?_ ?_ ?_ hlen
  · intro arm harm d hd
    obtain ⟨before, after, hsplit⟩ := List.append_of_mem hd
    obtain ⟨n, len, t, e, hdraw, -⟩ := hdraws _ (hsingle harm hsplit).1
    cases hdraw
  · intro arm harm before n len t e after hsplit
    obtain ⟨hm, rfl⟩ := hsingle harm hsplit
    obtain ⟨n', len', t', e', hdraw, he⟩ := hdraws _ hm
    cases hdraw
    exact he
  · intro arm harm before n u body prim r after hsplit
    obtain ⟨n, len, t, e, hdraw, -⟩ := hdraws _ (hsingle harm hsplit).1
    cases hdraw
  · rwa [← List.flatMap_def, List.flatMap_singleton']

end SizedTypes.Core
