import ContextFree.Proofs.Greibach.Obstacle
import ContextFree.Proofs.UnitReachability

/-!
# Finding the productive non-terminals in sweeps

The non-terminals that generate a string can also be found in sweeps over the rules.  A sweep admits
the left-hand side of a rule when one of its productions mentions admitted non-terminals only; those
that the same sweep has admitted on its way count already.  The sweeps go on for as long as they
change something.  Each of them but the last admits a declared name that was missing, so they end,
and what they find are the names in the closure.
-/

namespace ContextFree.Grammar

variable {g : Grammar} {n : Name} {admitted : List Name} {rules : List Rule} {rule : Rule}

/-- A sweep looks at a rule. -/
def sweepRule (admitted : List Name) (rule : Rule) : List Name :=
  if rule.1 ∈ admitted then admitted
  else if rule.2.any fun p ↦ p.nonTerminals.all admitted.contains then admitted ++ [rule.1]
  else admitted

/-- One sweep over all rules. -/
def sweep (g : Grammar) (admitted : List Name) : List Name :=
  g.rules.foldl sweepRule admitted

/-- A rule adds its left-hand side at the most, and only if that is missing. -/
theorem sweepRule_cases (admitted : List Name) (rule : Rule) :
    sweepRule admitted rule = admitted ∨
      sweepRule admitted rule = admitted ++ [rule.1] ∧ rule.1 ∉ admitted ∧
        ∃ p ∈ rule.2, ∀ m, Symbol.nonTerminal m ∈ p → m ∈ admitted := by
  unfold sweepRule
  split
  · exact .inl rfl
  · next hmissing =>
    split
    · next hadmits => exact .inr ⟨rfl, hmissing, by simpa using hadmits⟩
    · exact .inl rfl

/-- A sweep appends names that were missing. -/
theorem exists_foldl_sweepRule_eq (rules : List Rule) (admitted : List Name) :
    ∃ added, rules.foldl sweepRule admitted = admitted ++ added ∧
      ∀ n ∈ added, n ∈ rules.map Prod.fst ∧ n ∉ admitted := by
  induction rules generalizing admitted with
  | nil => exact ⟨[], by simp⟩
  | cons rule rules ih =>
    rw [List.foldl_cons]
    obtain ⟨added, hswept, hadded⟩ := ih (sweepRule admitted rule)
    rcases sweepRule_cases admitted rule with hsame | ⟨htaken, hmissing, -⟩
    · rw [hsame] at hswept hadded ⊢
      exact ⟨added, hswept, fun n hn ↦ ⟨List.mem_cons_of_mem _ (hadded n hn).1, (hadded n hn).2⟩⟩
    · rw [htaken] at hswept hadded
      refine ⟨rule.1 :: added, ?_, fun n hn ↦ ?_⟩
      · rw [htaken, hswept, List.append_assoc, List.singleton_append]
      · rcases List.mem_cons.1 hn with rfl | hlater
        · exact ⟨List.mem_cons_self, hmissing⟩
        · obtain ⟨hdeclared, hunseen⟩ := hadded n hlater
          exact ⟨List.mem_cons_of_mem _ hdeclared, fun hold ↦ hunseen (List.mem_append_left _ hold)⟩

theorem subset_foldl_sweepRule (rules : List Rule) (admitted : List Name) :
    admitted ⊆ rules.foldl sweepRule admitted := by
  obtain ⟨added, hswept, -⟩ := exists_foldl_sweepRule_eq rules admitted
  rw [hswept]
  exact List.subset_append_left _ _

/-- A sweep that changes something leaves fewer declared names missing. -/
theorem length_remaining_sweep_lt (hchanged : g.sweep admitted ≠ admitted) :
    (remaining g.names (g.sweep admitted)).length < (remaining g.names admitted).length := by
  obtain ⟨added, hswept, hadded⟩ := exists_foldl_sweepRule_eq g.rules admitted
  rw [sweep, hswept] at hchanged ⊢
  obtain ⟨first, hfirst⟩ := List.exists_mem_of_ne_nil added (by simpa using hchanged)
  exact length_remaining_append_lt (mem_remaining.2 (hadded first hfirst)) hfirst

/-- Sweeps until nothing changes. -/
def sweepOn (g : Grammar) (admitted : List Name) : List Name :=
  if g.sweep admitted = admitted then admitted else sweepOn g (g.sweep admitted)
termination_by (remaining g.names admitted).length
decreasing_by
  next hchanged => exact length_remaining_sweep_lt hchanged

/-- The non-terminals that derive a string of terminals, found in sweeps. -/
def productiveBySweeps (g : Grammar) : List Name :=
  g.sweepOn []

/-- Only names that generate a string are admitted. -/
theorem generates_of_mem_foldl_sweepRule (hrules : rules ⊆ g.rules)
    (hadmitted : ∀ n ∈ admitted, ∃ w, g.Generates n w) :
    ∀ n ∈ rules.foldl sweepRule admitted, ∃ w, g.Generates n w := by
  induction rules generalizing admitted with
  | nil => exact hadmitted
  | cons rule rules ih =>
    obtain ⟨hrule, hlater⟩ := List.cons_subset.1 hrules
    refine ih hlater ?_
    rcases sweepRule_cases admitted rule with hsame | ⟨htaken, -, p, hp, hmentions⟩
    · rwa [hsame]
    · have hproduction : p ∈ g.productionsOf rule.1 := mem_productionsOf_iff.2 ⟨rule.2, hrule, hp⟩
      obtain ⟨w, hw⟩ := exists_reads_iff.2 fun m hm ↦ hadmitted m (hmentions m hm)
      intro n hn
      rw [htaken, List.mem_append, List.mem_singleton] at hn
      rcases hn with hold | rfl
      · exact hadmitted n hold
      · exact ⟨w, generates_iff_reads.2 ⟨p, hproduction, hw⟩⟩

theorem mem_sweepRule {p : Production} (hp : p ∈ rule.2)
    (hmentions : ∀ m, Symbol.nonTerminal m ∈ p → m ∈ admitted) :
    rule.1 ∈ sweepRule admitted rule := by
  have hadmits : (rule.2.any fun p ↦ p.nonTerminals.all admitted.contains) = true := by
    simpa using ⟨p, hp, hmentions⟩
  rw [sweepRule, if_pos hadmits]
  split
  · assumption
  · exact List.mem_append_right _ (List.mem_singleton_self _)

/-- A production that mentions admitted names only gets its left-hand side admitted. -/
theorem mem_foldl_sweepRule {p : Production} (hrule : rule ∈ rules) (hp : p ∈ rule.2)
    (hmentions : ∀ m, Symbol.nonTerminal m ∈ p → m ∈ admitted) :
    rule.1 ∈ rules.foldl sweepRule admitted := by
  induction rules generalizing admitted with
  | nil => exact absurd hrule List.not_mem_nil
  | cons first rules ih =>
    rcases List.mem_cons.1 hrule with rfl | hlater
    · exact subset_foldl_sweepRule rules _ (mem_sweepRule hp hmentions)
    · exact ih hlater fun m hm ↦ subset_foldl_sweepRule [first] admitted (hmentions m hm)

/-- The sweeps end with exactly the names that generate a string. -/
theorem mem_sweepOn_iff (hadmitted : ∀ n ∈ admitted, ∃ w, g.Generates n w) :
    n ∈ g.sweepOn admitted ↔ ∃ w, g.Generates n w := by
  fun_induction sweepOn g admitted with
  | case1 admitted hstable =>
    refine ⟨hadmitted n, fun ⟨w, hw⟩ ↦ ?_⟩
    refine Generates.least (motive := fun m _ ↦ m ∈ admitted) (fun m p hp u hu ↦ ?_) hw
    obtain ⟨productions, hrule, hmember⟩ := mem_productionsOf_iff.1 hp
    rw [← hstable]
    refine mem_foldl_sweepRule hrule hmember fun k hk ↦ ?_
    obtain ⟨_, hseen⟩ := exists_reads_iff.1 ⟨u, hu⟩ k hk
    exact hseen
  | case2 admitted _ ih =>
    exact ih (generates_of_mem_foldl_sweepRule (List.Subset.refl _) hadmitted)

theorem mem_productiveBySweeps_iff : n ∈ g.productiveBySweeps ↔ ∃ w, g.Generates n w :=
  mem_sweepOn_iff (by simp)

/-- The check of the start symbol with the productive non-terminals found in sweeps. -/
def barrenStartBySweeps? (g : Grammar) : Option GrammarError :=
  g.start?.bind fun start ↦
    if g.productionsOf start ≠ [] && !g.productiveBySweeps.contains start then
      some (.divergent start .barrenStart)
    else none

/-- The sweeps and the closure serve the check alike. -/
theorem barrenStartBySweeps?_eq (g : Grammar) : g.barrenStartBySweeps? = g.barrenStart? := by
  have hsame : ∀ start, g.productiveBySweeps.contains start = g.productive.contains start := by
    intro start
    rw [Bool.eq_iff_iff, List.contains_iff_mem, List.contains_iff_mem, mem_productive_iff,
      mem_productiveBySweeps_iff]
  simp only [barrenStartBySweeps?, barrenStart?, hsame]

end ContextFree.Grammar
