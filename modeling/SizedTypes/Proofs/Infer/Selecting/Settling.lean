import SizedTypes.Proofs.Infer.Selecting.Others
import SizedTypes.Proofs.Infer.Resolve

/-!
# How a selector goal is settled

A goal for a selection from a closed type is solved through goals for the types inside the sequences
and functions around the record, one in each round, while the solver takes up other goals before and
after it. These do not get in the way, as what they are about is apart from the variables of the
goals inside the record.
-/

set_option autoImplicit false

namespace SizedTypes

theorem Range.orElse_orElse (r outer : Range) : (r.orElse outer).orElse outer = r.orElse outer := by
  unfold orElse
  split <;> simp_all

/-! ## The goal among others -/

namespace SelectorGoal.Ready

open Infer

variable {scopes : Int → List Int} {W K I : Set Int} {s : State} {g : SelectorGoal} {v : TyVar}
  {t : Ty} {l : Layer} {k : ℕ}

end SelectorGoal.Ready

namespace Infer

variable {c : Context} {scopes : Int → List Int} {W K I : Set Int} {s s₁ s' : State}
  {g : SelectorGoal} {v : TyVar} {t : Ty} {l : Layer} {k : ℕ}

/-! ## The whole way -/

/-- What has been bound and solved in `s` still is in `last`. -/
structure State.KeptBy (s last : State) : Prop where
  bindings : ∃ new, last.subst.bindings = new ++ s.subst.bindings
  solutions : ∀ id soln, s.solutions.find? id = some soln → last.solutions.find? id = some soln
  length : s.solutions.length ≤ last.solutions.length

theorem State.KeptBy.refl (s : State) : s.KeptBy s := ⟨⟨[], rfl⟩, fun _ _ h => h, le_rfl⟩

/-- In the state `last` the variable of a goal stands for `t`, and the route of the goal leads from
the type of its record to `t`. -/
structure LeadsTo (last : State) (g : SelectorGoal) (v : TyVar) (t : Ty) (lifts : List Lift)
    (record : Ty) : Prop where
  part : (last.subst.apply (.free v)).shape = t.shape
  route : ∀ fuel, lifts.length < fuel → (resolver last).route fuel g.id = ⟨lifts, g.sel, record⟩
  spans : ∀ R, Shape.SizeEquality R →
    Resolver.Spans R (zonk last.subst) g.sel record lifts g.record t

theorem shape_zonk {R : Shape → Shape → Prop} (hR : Shape.SizeEquality R) {θ : Subst} {t u : Ty}
    (h : (θ.apply t).shape = u.shape) : R (zonk θ t).shape u.shape :=
  h ▸ hR.normalize (θ.apply t)

/-- A route from inside a layer is longer by one step from around it. -/
theorem LeadsTo.through {last : State} {lifts : List Lift} {record : Ty}
    {new : List (TyVar × Ty)} {range : Range} (h : g.Ready v s) (hspare : s.Spare k)
    (hl : g.record.layer? = some l)
    (hbindings : last.subst.bindings =
      new ++ (v, l.around (.free (s.innerVar l))) :: s.subst.bindings)
    (hfind : last.solutions.find? g.id = some (l.solution s.nextGoal (.free (s.innerVar l))))
    (hin : LeadsTo last (s.subgoal range g l) (s.innerVar l) t lifts record) :
    LeadsTo last g v (l.around t) (l.toLift (.free (s.innerVar l)) :: lifts) record := by
  obtain ⟨Γ, hkinded⟩ := h.kinded
  obtain ⟨hside, hinside⟩ := Ty.closed_of_layer? hkinded h.closed hl
  refine ⟨?_, fun fuel hfuel => ?_, fun R hR => ?_⟩
  · rw [h.apply_around hspare hl hbindings]
    simp [Layer.around, hin.part]
  · rw [List.length_cons] at hfuel
    obtain ⟨n, rfl⟩ := Nat.exists_eq_add_of_lt hfuel
    have hrest : (resolver last).route (lifts.length + 1 + n) s.nextGoal =
        ⟨lifts, g.sel, record⟩ := hin.route _ (by omega)
    have hfind' : (resolver last).solutions.find? g.id =
        some (l.solution s.nextGoal (.free (s.innerVar l))) := hfind
    rw [Resolver.route, hfind']
    cases l <;> simp only [Layer.solution, Layer.toLift, hrest]
  · have hexpand := congrArg Ty.shape (Ty.expand_of_layer? hkinded hl)
    rw [Ty.shape_expand] at hexpand
    refine .shape hexpand.symm (Resolver.Spans.around ?_ ?_ ?_ (hin.spans R hR))
    · exact shape_zonk hR (congrArg Ty.shape (Subst.apply_of_closed _ hside))
    · exact shape_zonk hR (congrArg Ty.shape (Subst.apply_of_closed _ hinside))
    · exact shape_zonk hR hin.part

/-- The goal with the first id is solved through the goals with the other ones. -/
inductive State.SolvedThrough (s : State) : Int → List Int → Prop
  | direct {i : Int} {sel : Selector} {record : Ty} :
      s.solutions.find? i = some (.direct sel record) → s.SolvedThrough i [i]
  | sub {i j : Int} {soln : Solution} {ids : List Int} : s.solutions.find? i = some soln →
      soln.sub? = some j → s.SolvedThrough j ids → s.SolvedThrough i (i :: ids)

/-- The errors that are recorded for the goals with the given ids. -/
def errorsOf (ids : List Int) (visits : List Visit) : List Diagnostic :=
  (visits.filter fun v => v.goal.id ∈ ids).flatMap Visit.errors

theorem errorsOf_append (ids : List Int) (visits visits' : List Visit) :
    errorsOf ids (visits ++ visits') = errorsOf ids visits ++ errorsOf ids visits' := by
  rw [errorsOf, List.filter_append, List.flatMap_append]
  rfl

theorem errorsOf_eq_nil {ids : List Int} {visits : List Visit}
    (h : ∀ v ∈ visits, v.goal.id ∉ ids) : errorsOf ids visits = [] := by
  have hnone : visits.filter (fun v => v.goal.id ∈ ids) = [] :=
    List.filter_eq_nil_iff.mpr fun v hv => by simpa using h v hv
  rw [errorsOf, hnone, List.flatMap_nil]

theorem errorsOf_cons_of_ne {i : Int} {ids : List Int} {visits : List Visit}
    (h : ∀ v ∈ visits, v.goal.id ≠ i) : errorsOf (i :: ids) visits = errorsOf ids visits := by
  have hsame : visits.filter (fun v => v.goal.id ∈ i :: ids) =
      visits.filter fun v => v.goal.id ∈ ids :=
    List.filter_congr fun v hv => by simp [h v hv]
  rw [errorsOf, hsame]
  rfl

/-- A round in which the goal is solved next to others adds the errors for the goal. -/
theorem errorsOf_round {ids : List Int} {before after rest : List Visit} {es : List Diagnostic}
    (hbefore : ∀ v ∈ before, v.goal.id ∉ g.id :: ids)
    (hafter : ∀ v ∈ after, v.goal.id ∉ g.id :: ids) (hrest : ∀ v ∈ rest, v.goal.id ≠ g.id) :
    errorsOf (g.id :: ids) (before ++ ⟨g, es⟩ :: after ++ rest) = es ++ errorsOf ids rest := by
  have hgoal : errorsOf (g.id :: ids) (⟨g, es⟩ :: after) = es ++ errorsOf (g.id :: ids) after := by
    rw [errorsOf, List.filter_cons_of_pos (by simp), List.flatMap_cons]
    rfl
  rw [errorsOf_append, errorsOf_append, hgoal, errorsOf_eq_nil hbefore, errorsOf_eq_nil hafter,
    errorsOf_cons_of_ne hrest, List.nil_append, List.append_nil]

/-- What comes of a goal whose record type is closed: it is solved through the goals `ids`, and what
is set apart with it is kept. -/
structure Settles (c : Context) (I : Set Int) (n : ℕ) (s : State) (g : SelectorGoal) (v : TyVar)
    (visits : List Visit) (ids : List Int) (s' : State) : Prop where
  rounds : SelectorRounds c n s visits s'
  bindings : ∃ new, s'.subst.bindings = new ++ s.subst.bindings
  kept : ∀ i ∈ I, i ≠ g.id → s'.solutions.find? i = s.solutions.find? i
  solved : s'.SolvedThrough g.id ids
  later : ∀ i ∈ ids, i = g.id ∨ s.nextGoal ≤ i
  visited : ∀ x ∈ visits, x.goal.id ∈ ids ∨ x.goal.id ∉ I
  done : ∀ h ∈ s'.pending, h.id ∉ I ∧ h.id ∉ ids
  found : ∀ t, g.record.lift g.sel = some t → errorsOf ids visits = [] ∧
    ∃ lifts record, s.solutions.length + lifts.length < s'.solutions.length ∧
      lifts.length < g.record.size ∧ ∀ last, s'.KeptBy last → LeadsTo last g v t lifts record
  missing : g.record.lift g.sel = none → ∃ record,
    errorsOf ids visits = [⟨g.range.orElse c.range, .missingField g.sel record⟩]

section Round

variable {n i j : ℕ} {before after rest : List Visit} {ids : List Int} {s₂ : State}

section Around

variable {m : ℕ}

/-- The goals inside a layer come after all goals that were in the store. -/
theorem Settles.le_of_mem_inside (hspare : s₁.Spare (k + 1))
    (hrest : (s₁.through (g.range.orElse c.range) g v l).Leaves scopes
      (insert s₁.nextTypeVar K) (insert s₁.nextGoal I) j s₂)
    (hin : Settles c (insert s₁.nextGoal I) m s₂ (s₁.subgoal (g.range.orElse c.range) g l)
      (s₁.innerVar l) rest ids s') {i : Int} (hi : i ∈ ids) : s₁.nextGoal ≤ i := by
  have hnext : (s₁.through (g.range.orElse c.range) g v l).nextGoal = s₁.nextGoal + 1 :=
    hspare.next_goal
  have hlow := hrest.lowGoal
  rcases hin.later i hi with heq | hle
  · exact heq.ge
  · omega

/-- What is set apart with the goal is kept while the goal inside the layer is settled. -/
theorem Settles.find?_inside (hs : s₁.Apart scopes K I)
    (hrest : (s₁.through (g.range.orElse c.range) g v l).Leaves scopes
      (insert s₁.nextTypeVar K) (insert s₁.nextGoal I) j s₂)
    (hin : Settles c (insert s₁.nextGoal I) m s₂ (s₁.subgoal (g.range.orElse c.range) g l)
      (s₁.innerVar l) rest ids s') {i : Int} (hi : i ∈ I) :
    s'.solutions.find? i =
      Table.find? i (s₁.solutions.insert g.id (l.solution s₁.nextGoal (.free (s₁.innerVar l)))) := by
  rw [hin.kept i (Set.mem_insert_of_mem _ hi) (ne_of_lt (hs.goals i hi)),
    hrest.solutions i (Set.mem_insert_of_mem _ hi)]
  rfl

/-- The errors for the goals inside the layer are those for the goal around it. -/
theorem Settles.errorsOf_around (h : g.Ready v s₁) (hg : g.id ∈ I)
    (hids : ∀ i ∈ ids, s₁.nextGoal ≤ i)
    (hothers : ∀ x ∈ before ++ after, x.goal.id ∉ I ∧ x.goal.id < s₁.nextGoal)
    (hin : Settles c (insert s₁.nextGoal I) m s₂ (s₁.subgoal (g.range.orElse c.range) g l)
      (s₁.innerVar l) rest ids s') :
    errorsOf (g.id :: ids) (before ++ ⟨g, []⟩ :: after ++ rest) = errorsOf ids rest := by
  have hissued := h.issued
  have hnone : ∀ x ∈ before ++ after, x.goal.id ∉ g.id :: ids := fun x hx hmem => by
    obtain ⟨hI, hlt⟩ := hothers x hx
    rcases List.mem_cons.mp hmem with heq | hmem
    · exact hI (heq ▸ hg)
    · exact absurd (hids _ hmem) (by omega)
  have hrestne : ∀ x ∈ rest, x.goal.id ≠ g.id := fun x hx heq => by
    rcases hin.visited x hx with hmem | hmem
    · exact absurd (hids _ hmem) (by omega)
    · exact hmem (Set.mem_insert_of_mem _ (heq ▸ hg))
  exact errorsOf_round (fun x hx => hnone x (List.mem_append_left _ hx))
    (fun x hx => hnone x (List.mem_append_right _ hx)) hrestne

/-- What comes of the goal inside a layer comes of the goal around it. -/
theorem Settles.around (h : g.Ready v s₁) (hg : g.id ∈ I)
    (hs : s₁.Apart scopes K I) (hspare : s₁.Spare (k + 1)) (hl : g.record.layer? = some l)
    (hleaves : s.Leaves scopes K I i s₁)
    (hrest : (s₁.through (g.range.orElse c.range) g v l).Leaves scopes
      (insert s₁.nextTypeVar K) (insert s₁.nextGoal I) j s₂)
    (hrounds : SelectorRounds c n s (before ++ ⟨g, []⟩ :: after ++ rest) s')
    (hothers : ∀ x ∈ before ++ after, x.goal.id ∉ I ∧ x.goal.id < s.nextGoal)
    (hin : Settles c (insert s₁.nextGoal I) m s₂ (s₁.subgoal (g.range.orElse c.range) g l)
      (s₁.innerVar l) rest ids s') :
    Settles c I n s g v (before ++ ⟨g, []⟩ :: after ++ rest) (g.id :: ids) s' := by
  have hlow := hleaves.lowGoal
  have hids : ∀ i ∈ ids, s₁.nextGoal ≤ i := fun _ hi => hin.le_of_mem_inside hspare hrest hi
  have hfind : s'.solutions.find? g.id =
      some (l.solution s₁.nextGoal (.free (s₁.innerVar l))) :=
    (hin.find?_inside hs hrest hg).trans (Table.find?_insert_self ..)
  have herrors : errorsOf (g.id :: ids) (before ++ ⟨g, []⟩ :: after ++ rest) = errorsOf ids rest :=
    hin.errorsOf_around h hg hids fun x hx =>
      (hothers x hx).imp_right fun hlt => hlt.trans_le hlow
  obtain ⟨more, hmore⟩ := hin.bindings
  obtain ⟨new, hnew⟩ := hrest.grows.bindings
  obtain ⟨old, hold⟩ := hleaves.grows.bindings
  have hbindings : s'.subst.bindings =
      (more ++ new) ++ (v, l.around (.free (s₁.innerVar l))) :: s₁.subst.bindings := by
    rw [hmore, hnew, List.append_assoc]
    rfl
  have hlift : g.record.lift g.sel = (l.inside.lift g.sel).map l.around := Ty.lift_of_layer? hl
  have hsolved : s'.SolvedThrough g.id (g.id :: ids) :=
    .sub hfind (by cases l <;> rfl) hin.solved
  refine ⟨hrounds, ?_, fun i hi hne => ?_, hsolved, fun i hi => ?_, fun x hx => ?_,
    fun x hx => ?_, fun t ht => ?_, fun hnone => ?_⟩
  · exact ⟨more ++ new ++ (v, l.around (.free (s₁.innerVar l))) :: old, by
      rw [hbindings, hold]; simp only [List.append_assoc, List.cons_append]⟩
  · rw [hin.find?_inside hs hrest hi, Table.find?_insert, if_neg hne, hleaves.solutions i hi]
  · rcases List.mem_cons.mp hi with rfl | hi
    · exact .inl rfl
    · exact .inr (hlow.trans (hids i hi))
  · simp only [List.mem_append, List.mem_cons] at hx
    rcases hx with (hx | rfl | hx) | hx
    · exact .inr (hothers x (List.mem_append_left _ hx)).1
    · exact .inl List.mem_cons_self
    · exact .inr (hothers x (List.mem_append_right _ hx)).1
    · exact (hin.visited x hx).imp (List.mem_cons_of_mem _) fun hI hmem =>
        hI (Set.mem_insert_of_mem _ hmem)
  · obtain ⟨hI, hmem⟩ := hin.done x hx
    have hIx : x.id ∉ I := fun hxI => hI (Set.mem_insert_of_mem _ hxI)
    exact ⟨hIx, fun hcons => (List.mem_cons.mp hcons).elim (fun heq => hIx (heq ▸ hg)) hmem⟩
  · rw [hlift, Option.map_eq_some_iff] at ht
    obtain ⟨u, hu, rfl⟩ := ht
    obtain ⟨hnone, lifts, record, hlen, hsize, hleads⟩ := hin.found u hu
    refine ⟨herrors.trans hnone, l.toLift (.free (s₁.innerVar l)) :: lifts, record, ?_, ?_,
      fun last hlast => ?_⟩
    · have hgrown : (s₁.through (g.range.orElse c.range) g v l).solutions.length =
          s₁.solutions.length + 1 := Table.length_insert h.unsolved
      have h₁ := hleaves.length
      have h₂ := hrest.length
      rw [List.length_cons]
      omega
    · have hsmaller := Ty.size_of_layer? hl
      have hrecord : (s₁.subgoal (g.range.orElse c.range) g l).record = l.inside := rfl
      rw [hrecord] at hsize
      rw [List.length_cons]
      omega
    · obtain ⟨final, hfinal⟩ := hlast.bindings
      have hlastBindings : last.subst.bindings = (final ++ (more ++ new)) ++
          (v, l.around (.free (s₁.innerVar l))) :: s₁.subst.bindings := by
        rw [hfinal, hbindings]
        simp only [List.append_assoc]
      exact (hleads last hlast).through h hspare hl hlastBindings (hlast.solutions _ _ hfind)
  · rw [hlift, Option.map_eq_none_iff] at hnone
    obtain ⟨record, hrecord⟩ := hin.missing hnone
    refine ⟨record, herrors.trans (hrecord.trans ?_)⟩
    have hrange : (s₁.subgoal (g.range.orElse c.range) g l).range.orElse c.range =
        g.range.orElse c.range := Range.orElse_orElse ..
    rw [hrange]
    rfl

end Around

end Round

section ComesTo

variable {K' I' : Set Int} {n : ℕ} {before after : List SelectorGoal} {visits : List Visit}
  {es : List Diagnostic} {s₂ : State}

end ComesTo

end Infer

end SizedTypes
