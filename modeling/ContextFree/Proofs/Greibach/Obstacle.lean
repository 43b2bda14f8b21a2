import ContextFree.Proofs.Greibach.Substitutable
import ContextFree.Proofs.SymbolKinds

/-!
# What stands in the way of Greibach normal form

A valid grammar is refused for the first of four obstacles, and each of them is a fact about its
productions and derivations: the two searches of the check find exactly the unit derivations and the
non-terminals that generate a string.  `Convertible` says what is left to ask of a grammar when
there is no obstacle.
-/

namespace ContextFree.Grammar

variable {g : Grammar} {n : Name} {error : GrammarError}

/-! ## Productive non-terminals -/

/-- A right-hand side reads some string exactly when each of its non-terminals stands for one. -/
theorem exists_reads_iff {meaning : Name → List Name → Prop} {p : Production} :
    (∃ w, Reads meaning p w) ↔ ∀ m, Symbol.nonTerminal m ∈ p → ∃ w, meaning m w := by
  induction p with
  | nil => simp [Reads]
  | cons s rest ih =>
    cases s with
    | terminal t =>
      have hrest : (∃ w, Reads meaning (.terminal t :: rest) w) ↔ ∃ v, Reads meaning rest v := by
        constructor
        · intro hreads
          obtain ⟨_, v, -, hv⟩ := hreads
          exact ⟨v, hv⟩
        · intro hreads
          obtain ⟨v, hv⟩ := hreads
          exact ⟨t :: v, v, rfl, hv⟩
      simpa using hrest.trans ih
    | epsilon => simpa [Reads] using ih
    | nonTerminal n =>
      have hboth : (∃ w, Reads meaning (.nonTerminal n :: rest) w) ↔
          (∃ u, meaning n u) ∧ ∃ v, Reads meaning rest v := by
        constructor
        · intro hreads
          obtain ⟨_, u, v, -, hu, hv⟩ := hreads
          exact ⟨⟨u, hu⟩, v, hv⟩
        · intro hreads
          obtain ⟨⟨u, hu⟩, v, hv⟩ := hreads
          exact ⟨u ++ v, u, v, rfl, hu, hv⟩
      rw [hboth, ih]
      simp

/-- A round of the search admits the left-hand sides of productions that mention only what was seen
before. -/
theorem mem_productive_round_iff {seen : List Name} :
    n ∈ (g.rules.filter (·.2.any fun p ↦ p.nonTerminals.all seen.contains)).map Prod.fst ↔
      ∃ p ∈ g.productionsOf n, ∀ m, Symbol.nonTerminal m ∈ p → m ∈ seen := by
  simp only [List.mem_map, List.mem_filter, List.any_eq_true, List.all_eq_true,
    Production.mem_nonTerminals, List.contains_iff_mem, mem_productionsOf_iff]
  constructor
  · intro h
    obtain ⟨rule, ⟨hrule, p, hp, hseen⟩, rfl⟩ := h
    exact ⟨p, ⟨rule.2, hrule, hp⟩, hseen⟩
  · intro h
    obtain ⟨p, ⟨productions, hrule, hp⟩, hseen⟩ := h
    exact ⟨_, ⟨hrule, p, hp, hseen⟩, rfl⟩

/-- The search finds exactly the non-terminals that generate a string. -/
theorem mem_productive_iff : n ∈ g.productive ↔ ∃ w, g.Generates n w := by
  constructor
  · refine closure_induction (motive := fun n ↦ ∃ w, g.Generates n w) ?_ n
    intro seen hseen name _ hround
    obtain ⟨p, hp, hmentions⟩ := mem_productive_round_iff.1 hround
    obtain ⟨w, hw⟩ := exists_reads_iff.2 fun m hm ↦ hseen m (hmentions m hm)
    exact ⟨w, generates_iff_reads.2 ⟨p, hp, hw⟩⟩
  · intro hgenerates
    obtain ⟨w, hw⟩ := hgenerates
    refine Generates.least (motive := fun m _ ↦ m ∈ g.productive) (fun m p hp u hu ↦ ?_) hw
    refine mem_closure_of_mem_step (mem_names_of_mem_productionsOf hp) ?_
    refine mem_productive_round_iff.2 ⟨p, hp, fun k hk ↦ ?_⟩
    obtain ⟨_, hproductive⟩ := exists_reads_iff.1 ⟨u, hu⟩ k hk
    exact hproductive

/-! ## The first obstacle -/

/-- The first obstacle in the order of the checks, with what the earlier checks have found in
order. -/
inductive FirstObstacle (g : Grammar) : GrammarError → Prop
  | strayEpsilon {n : Name} :
    First g.names (fun n ↦ g.start? ≠ some n ∧ Production.epsilon ∈ g.productionsOf n) n →
      FirstObstacle g (.malformed n .epsilonBesideStart)
  | usedEpsilon {start m : Name} {p : Production} : g.EpsilonAtStart → g.start? = some start →
    Production.epsilon ∈ g.productionsOf start → p ∈ g.productionsOf m →
      Symbol.nonTerminal start ∈ p → FirstObstacle g (.malformed start .epsilonOfUsedStart)
  | unitLoop {n : Name} : g.EpsilonAtStart → g.EmptyStartUnused →
    First g.names (fun n ↦ g.UnitDerives n n) n → FirstObstacle g (.divergent n .unitLoop)
  | barrenStart {start : Name} : g.EpsilonAtStart → g.EmptyStartUnused →
    (∀ n, ¬ g.UnitDerives n n) → g.start? = some start → g.productionsOf start ≠ [] →
      (∀ w, ¬ g.Generates start w) → FirstObstacle g (.divergent start .barrenStart)

theorem strayEpsilon?_eq_some_iff : g.strayEpsilon? = some error ↔
    ∃ n, First g.names (fun n ↦ g.start? ≠ some n ∧ Production.epsilon ∈ g.productionsOf n) n ∧
      error = .malformed n .epsilonBesideStart := by
  have hcheck : ∀ n, (!g.isStart n && (g.productionsOf n).contains Production.epsilon) = true ↔
      g.start? ≠ some n ∧ Production.epsilon ∈ g.productionsOf n := by
    intro n
    simp [isStart]
  rw [strayEpsilon?, rules_eq_map, List.findSome?_map]
  exact findSome?_eq_some_iff_first hcheck

theorem usedEpsilon?_eq_some_iff : g.usedEpsilon? = some error ↔
    ∃ start, g.start? = some start ∧ Production.epsilon ∈ g.productionsOf start ∧
      (∃ m, ∃ p ∈ g.productionsOf m, Symbol.nonTerminal start ∈ p) ∧
        GrammarError.malformed start .epsilonOfUsedStart = error := by
  simp only [usedEpsilon?, Option.bind_eq_some_iff, Option.ite_none_right_eq_some,
    Option.some.injEq, Bool.and_eq_true, List.contains_iff_mem, mentions_iff, and_assoc]

theorem unitLoop?_eq_some_iff : g.unitLoop? = some error ↔
    ∃ n, First g.names (fun n ↦ g.UnitDerives n n) n ∧ error = .divergent n .unitLoop := by
  have hcheck : ∀ n, (g.unitReachable n).contains n = true ↔ g.UnitDerives n n := by
    intro n
    rw [List.contains_iff_mem, mem_unitReachable_iff, and_iff_right_iff_imp]
    exact UnitDerives.mem_names
  exact findSome?_eq_some_iff_first hcheck

theorem barrenStart?_eq_some_iff : g.barrenStart? = some error ↔
    ∃ start, g.start? = some start ∧ g.productionsOf start ≠ [] ∧
      (∀ w, ¬ g.Generates start w) ∧ GrammarError.divergent start .barrenStart = error := by
  have hbarren : ∀ start, (!g.productive.contains start) = true ↔ ∀ w, ¬ g.Generates start w := by
    intro start
    rw [Bool.not_eq_true', ← Bool.not_eq_true, List.contains_iff_mem, mem_productive_iff,
      not_exists]
  simp only [barrenStart?, Option.bind_eq_some_iff, Option.ite_none_right_eq_some,
    Option.some.injEq, Bool.and_eq_true, decide_eq_true_eq, hbarren, and_assoc]

theorem greibachObstacle?_eq_some_iff :
    g.greibachObstacle? = some error ↔ g.FirstObstacle error := by
  simp only [greibachObstacle?, Option.orElse_eq_orElse, Option.orElse_eq_or,
    Option.or_eq_some_iff, strayEpsilon?_eq_none_iff, usedEpsilon?_eq_none_iff,
    unitLoop?_eq_none_iff, strayEpsilon?_eq_some_iff, usedEpsilon?_eq_some_iff,
    unitLoop?_eq_some_iff, barrenStart?_eq_some_iff]
  constructor
  · rintro (⟨n, hfirst, rfl⟩ | ⟨hstray, ⟨start, hstart, hepsilon, ⟨m, p, hp, hused⟩, rfl⟩ |
      ⟨hunused, ⟨n, hfirst, rfl⟩ | ⟨hloop, start, hstart, hne, hbarren, rfl⟩⟩⟩)
    · exact .strayEpsilon hfirst
    · exact .usedEpsilon hstray hstart hepsilon hp hused
    · exact .unitLoop hstray hunused hfirst
    · exact .barrenStart hstray hunused hloop hstart hne hbarren
  · intro hobstacle
    cases hobstacle with
    | strayEpsilon hfirst => exact .inl ⟨_, hfirst, rfl⟩
    | usedEpsilon hstray hstart hepsilon hp hused =>
      exact .inr ⟨hstray, .inl ⟨_, hstart, hepsilon, ⟨_, _, hp, hused⟩, rfl⟩⟩
    | unitLoop hstray hunused hfirst => exact .inr ⟨hstray, .inr ⟨hunused, .inl ⟨_, hfirst, rfl⟩⟩⟩
    | barrenStart hstray hunused hloop hstart hne hbarren =>
      exact .inr ⟨hstray, .inr ⟨hunused, .inr ⟨hloop, _, hstart, hne, hbarren, rfl⟩⟩⟩

/-! ## Grammars without obstacle -/

/-- What the change to Greibach normal form asks of a grammar. -/
structure Convertible (g : Grammar) : Prop where
  valid : g.Valid
  epsilonAtStart : g.EpsilonAtStart
  emptyStartUnused : g.EmptyStartUnused
  noUnitLoop : ∀ n, ¬ g.UnitDerives n n
  startGenerates : ∀ start, g.start? = some start →
    g.productionsOf start = [] ∨ ∃ w, g.Generates start w

theorem barrenStart?_eq_none_iff : g.barrenStart? = none ↔ ∀ start, g.start? = some start →
    g.productionsOf start = [] ∨ ∃ w, g.Generates start w := by
  rw [Option.eq_none_iff_forall_ne_some]
  simp only [ne_eq, barrenStart?_eq_some_iff]
  constructor
  · intro hnone start hstart
    by_cases hempty : g.productionsOf start = []
    · exact .inl hempty
    · refine .inr (Classical.byContradiction fun hbarren ↦ ?_)
      exact hnone _ ⟨start, hstart, hempty, fun w hw ↦ hbarren ⟨w, hw⟩, rfl⟩
  · intro hstarts error hsome
    obtain ⟨start, hstart, hne, hbarren, -⟩ := hsome
    rcases hstarts start hstart with hempty | ⟨w, hw⟩
    · exact hne hempty
    · exact hbarren w hw

theorem convertible_iff : g.Convertible ↔ g.Valid ∧ g.greibachObstacle? = none := by
  have hnone : g.greibachObstacle? = none ↔ g.EpsilonAtStart ∧ g.EmptyStartUnused ∧
      (∀ n, ¬ g.UnitDerives n n) ∧ ∀ start, g.start? = some start →
        g.productionsOf start = [] ∨ ∃ w, g.Generates start w := by
    simp only [greibachObstacle?, Option.orElse_eq_orElse, Option.orElse_eq_or,
      Option.or_eq_none_iff, strayEpsilon?_eq_none_iff, usedEpsilon?_eq_none_iff,
      unitLoop?_eq_none_iff, barrenStart?_eq_none_iff]
  rw [hnone]
  constructor
  · exact fun h ↦
      ⟨h.valid, h.epsilonAtStart, h.emptyStartUnused, h.noUnitLoop, h.startGenerates⟩
  · intro h
    obtain ⟨hvalid, hepsilon, hunused, hloop, hstart⟩ := h
    exact ⟨hvalid, hepsilon, hunused, hloop, hstart⟩

end ContextFree.Grammar
