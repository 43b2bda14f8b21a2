import ContextFree.Proofs.Language
import ContextFree.UnitFree

/-!
# Reachability through unit productions

Growing a set of names in rounds stops with a set that the rule cannot enlarge: each round but the
last takes at least one candidate, so the candidates suffice as a bound.  For unit productions the
closed set is exactly what one or more of them lead to.
-/

namespace ContextFree

/-! ## The closure is closed -/

/-- The candidates that are not taken yet. -/
def remaining (candidates seen : List Name) : List Name :=
  candidates.filter (· ∉ seen)

theorem mem_remaining {candidates seen : List Name} {name : Name} :
    name ∈ remaining candidates seen ↔ name ∈ candidates ∧ name ∉ seen := by
  simp [remaining]

/-- Taking a candidate leaves fewer of them. -/
theorem length_remaining_append_lt {candidates seen added : List Name} {name : Name}
    (hname : name ∈ remaining candidates seen) (hadded : name ∈ added) :
    (remaining candidates (seen ++ added)).length < (remaining candidates seen).length := by
  have hfilter : remaining candidates (seen ++ added) =
      (remaining candidates seen).filter (· ∉ added) := by
    simp only [remaining, List.filter_filter, List.mem_append, not_or, Bool.decide_and,
      Bool.and_comm]
  rw [hfilter]
  exact List.length_filter_lt_length_iff_exists.2 ⟨name, hname, by simpa using hadded⟩

theorem mem_grow_of_mem_step {candidates : List Name} {step : List Name → List Name}
    {rounds : Nat} {seen : List Name} (hrounds : (remaining candidates seen).length ≤ rounds)
    {name : Name} (hname : name ∈ candidates)
    (hstep : name ∈ step (grow candidates step rounds seen)) :
    name ∈ grow candidates step rounds seen := by
  induction rounds generalizing seen with
  | zero =>
    have hnone : remaining candidates seen = [] := List.length_eq_zero_iff.1 (by omega)
    apply Decidable.byContradiction
    intro hnew
    have hremaining : name ∈ remaining candidates seen := mem_remaining.2 ⟨hname, hnew⟩
    rw [hnone] at hremaining
    exact List.not_mem_nil hremaining
  | succ rounds ih =>
    unfold grow at hstep ⊢
    split at hstep
    · next hnone =>
      apply Decidable.byContradiction
      intro hnew
      have hadded : name ∈ newlyAdmitted candidates step seen :=
        mem_newlyAdmitted.2 ⟨hname, hnew, hstep⟩
      rw [hnone] at hadded
      exact List.not_mem_nil hadded
    · next hsome =>
      obtain ⟨first, hfirst⟩ := List.exists_mem_of_ne_nil _ hsome
      obtain ⟨hcandidate, hunseen, -⟩ := mem_newlyAdmitted.1 hfirst
      have hfewer := length_remaining_append_lt (mem_remaining.2 ⟨hcandidate, hunseen⟩) hfirst
      exact ih (by omega) hstep

/-- The rule admits no further candidate to a closure. -/
theorem mem_closure_of_mem_step {candidates : List Name} {step : List Name → List Name}
    {name : Name} (hname : name ∈ candidates) (hstep : name ∈ step (closure candidates step)) :
    name ∈ closure candidates step :=
  mem_grow_of_mem_step (List.length_filter_le _ candidates) hname hstep

namespace Grammar

variable {g : Grammar}

/-! ## Unit derivations -/

theorem UnitDerives.trans {l m n : Name} (hlm : g.UnitDerives l m) (hmn : g.UnitDerives m n) :
    g.UnitDerives l n := by
  induction hmn with
  | single hunit => exact hlm.tail hunit
  | tail _ hunit ih => exact ih.tail hunit

/-- Only a declared non-terminal leads anywhere. -/
theorem UnitDerives.mem_names {m n : Name} (h : g.UnitDerives m n) : m ∈ g.names := by
  induction h with
  | single hunit => exact mem_names_of_mem_productionsOf hunit
  | tail _ _ ih => exact ih

/-- Without unit productions nothing is derived through them. -/
theorem not_unitDerives {m n : Name} (hunits : ∀ m n, [.nonTerminal n] ∉ g.productionsOf m) :
    ¬ g.UnitDerives m n := by
  intro hderives
  cases hderives with
  | single hunit => exact hunits _ _ hunit
  | tail _ hunit => exact hunits _ _ hunit

theorem mem_unitTargets {m n : Name} :
    n ∈ g.unitTargets m ↔ [.nonTerminal n] ∈ g.productionsOf m := by
  simp only [unitTargets, List.mem_filterMap, Production.unitTarget?_eq_some_iff, exists_eq_right]

/-- The search through unit productions finds exactly what they lead to. -/
theorem mem_unitReachable_iff {m n : Name} :
    n ∈ g.unitReachable m ↔ n ∈ g.names ∧ g.UnitDerives m n := by
  constructor
  · refine closure_induction (motive := fun n ↦ n ∈ g.names ∧ g.UnitDerives m n) ?_ n
    intro seen hseen name hname hstep
    obtain ⟨source, hsource, htarget⟩ := List.mem_flatMap.1 hstep
    rw [mem_unitTargets] at htarget
    rcases List.mem_cons.1 hsource with rfl | hsource
    · exact ⟨hname, .single htarget⟩
    · exact ⟨hname, (hseen source hsource).2.tail htarget⟩
  · intro hreaches
    obtain ⟨hn, hderives⟩ := hreaches
    induction hderives with
    | single hunit =>
      refine mem_closure_of_mem_step hn (List.mem_flatMap.2 ⟨m, List.mem_cons_self, ?_⟩)
      exact mem_unitTargets.2 hunit
    | tail _ hunit ih =>
      have hsource := ih (mem_names_of_mem_productionsOf hunit)
      refine mem_closure_of_mem_step hn (List.mem_flatMap.2 ⟨_, List.mem_cons_of_mem m hsource, ?_⟩)
      exact mem_unitTargets.2 hunit

/-! ## Unit cycles -/

/-- The table of the cycle check: what each declared non-terminal reaches. -/
def reachableTable (g : Grammar) (name : Name) : List Name :=
  ((g.names.map fun name ↦ (name, g.unitReachable name)).lookup name).getD []

theorem mem_reachableTable_iff {m n : Name} :
    n ∈ g.reachableTable m ↔ n ∈ g.names ∧ g.UnitDerives m n := by
  have hdistinct : ((g.names.map fun name ↦ (name, g.unitReachable name)).map Prod.fst).Nodup := by
    simp [Function.comp_def]
  by_cases hm : m ∈ g.names
  · have hentry : (m, g.unitReachable m) ∈ g.names.map fun name ↦ (name, g.unitReachable name) :=
      List.mem_map_of_mem hm
    rw [reachableTable, (lookup_eq_some_iff hdistinct).2 hentry]
    exact mem_unitReachable_iff
  · have hnone : (g.names.map fun name ↦ (name, g.unitReachable name)).lookup m = none := by
      apply lookup_eq_none_of_notMem
      simpa using hm
    rw [reachableTable, hnone]
    simp only [Option.getD_none, List.not_mem_nil, false_iff, not_and]
    exact fun _ hderives ↦ hm hderives.mem_names

theorem unitCycle?_eq_findSome? (g : Grammar) : g.unitCycle? = g.names.findSome? fun name ↦
    if 1 < (g.unitPartners g.reachableTable name).length then
      some (.divergent name (.unitCycle (g.unitPartners g.reachableTable name)))
    else none := rfl

/-- The partners of a non-terminal are the others that it derives and that derive it. -/
theorem mem_unitPartners_iff {m n : Name} : n ∈ g.unitPartners g.reachableTable m ↔
    n ≠ m ∧ g.UnitDerives m n ∧ g.UnitDerives n m := by
  simp only [unitPartners, List.mem_filter, Bool.and_eq_true, decide_eq_true_eq,
    List.contains_iff_mem, mem_reachableTable_iff, ne_eq]
  constructor
  · intro hpartner
    obtain ⟨-, ⟨hne, -, hforth⟩, -, hback⟩ := hpartner
    exact ⟨hne, hforth, hback⟩
  · intro hpartner
    obtain ⟨hne, hforth, hback⟩ := hpartner
    exact ⟨hback.mem_names, ⟨hne, hback.mem_names, hforth⟩, hforth.mem_names, hback⟩

/-- The cycle check refuses with no other error. -/
theorem exists_unitCycle_of_unitCycle? {error : GrammarError} (herror : g.unitCycle? = some error) :
    ∃ name others, error = .divergent name (.unitCycle others) := by
  rw [unitCycle?_eq_findSome?] at herror
  obtain ⟨_, name, _, -, hname, -⟩ := List.findSome?_eq_some_iff.1 herror
  split at hname
  · exact ⟨name, _, (Option.some.inj hname).symm⟩
  · exact absurd hname.symm (Option.some_ne_none error)

/-- Without unit productions there is no cycle. -/
theorem unitCycle?_eq_none (hunits : ∀ m n, [.nonTerminal n] ∉ g.productionsOf m) :
    g.unitCycle? = none := by
  rw [unitCycle?_eq_findSome?, List.findSome?_eq_none_iff]
  intro name _
  have hnone : g.unitPartners g.reachableTable name = [] := by
    apply List.eq_nil_iff_forall_not_mem.2
    exact fun _ hother ↦ not_unitDerives hunits (mem_unitPartners_iff.1 hother).2.1
  rw [hnone]
  rfl

end Grammar

end ContextFree
