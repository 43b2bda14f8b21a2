import ContextFree.Proofs.UnitCycles
import ContextFree.Proofs.UnitSearch

/-!
# Grammars refused for their unit productions

A valid grammar is refused by the removal of unit productions exactly when three different
non-terminals derive each other through them.  They need not lie on a simple cycle: two pairs that
share a member are enough.  The error names the first non-terminal with two partners and lists all
its partners, in the order of the declarations.

The reachability behind the check may as well be found by a search with a stack.
-/

namespace ContextFree.Grammar

variable {g : Grammar} {l m n : Name} {error : GrammarError}

/-! ## Three non-terminals that derive each other -/

theorem Partners.trans (hlm : g.Partners l m) (hmn : g.Partners m n) (hne : l ≠ n) :
    g.Partners l n :=
  ⟨hne, hlm.forth.trans hmn.forth, hmn.back.trans hlm.back⟩

/-- Three different non-terminals of which each derives the others through unit productions. -/
def HasUnitTriple (g : Grammar) : Prop :=
  ∃ l m n, g.Partners l m ∧ g.Partners l n ∧ g.Partners m n

/-- A non-terminal with two partners at least. -/
def HasTwoPartners (g : Grammar) (n : Name) : Prop :=
  ∃ first second, first ≠ second ∧ g.Partners n first ∧ g.Partners n second

/-- Two partners of a non-terminal are partners of each other. -/
theorem hasUnitTriple_iff : g.HasUnitTriple ↔ ∃ n ∈ g.names, g.HasTwoPartners n := by
  constructor
  · rintro ⟨l, m, n, hlm, hln, hmn⟩
    exact ⟨l, hlm.forth.mem_names, m, n, hmn.ne, hlm, hln⟩
  · rintro ⟨n, -, first, second, hne, hfirst, hsecond⟩
    exact ⟨n, first, second, hfirst, hsecond, hfirst.symm.trans hsecond hne⟩

/-! ## What the check finds -/

theorem mem_unitPartners_iff_partners :
    n ∈ g.unitPartners g.reachableTable m ↔ g.Partners m n := by
  rw [mem_unitPartners_iff]
  exact ⟨fun ⟨hne, hforth, hback⟩ ↦ ⟨hne.symm, hforth, hback⟩,
    fun hpartners ↦ ⟨hpartners.ne.symm, hpartners.forth, hpartners.back⟩⟩

instance (m n : Name) : Decidable (g.Partners m n) :=
  decidable_of_iff (n ∈ g.unitPartners g.reachableTable m) mem_unitPartners_iff_partners

/-- The partners of a non-terminal, in the order of the declarations. -/
def partnersOf (g : Grammar) (n : Name) : List Name :=
  g.names.filter (g.Partners n ·)

theorem mem_partnersOf : n ∈ g.partnersOf m ↔ g.Partners m n := by
  rw [partnersOf, List.mem_filter, decide_eq_true_iff]
  exact and_iff_right_of_imp fun hpartners ↦ hpartners.back.mem_names

theorem unitPartners_eq_partnersOf (g : Grammar) (m : Name) :
    g.unitPartners g.reachableTable m = g.partnersOf m := by
  apply List.filter_congr
  intro n hn
  rw [Bool.eq_iff_iff, decide_eq_true_iff, ← mem_unitPartners_iff_partners, unitPartners,
    List.mem_filter]
  exact (and_iff_right hn).symm

theorem one_lt_length_partnersOf_iff : 1 < (g.partnersOf n).length ↔ g.HasTwoPartners n := by
  have hdistinct : (g.partnersOf n).Nodup := List.filter_sublist.nodup g.names_nodup
  simp only [HasTwoPartners, ← mem_partnersOf]
  generalize g.partnersOf n = partners at hdistinct
  constructor
  · intro hlong
    match partners, hlong with
    | first :: second :: _, _ =>
      have hne : first ≠ second := by
        rintro rfl
        exact (List.nodup_cons.1 hdistinct).1 List.mem_cons_self
      exact ⟨first, second, hne, by simp, by simp⟩
  · rintro ⟨first, second, hne, hfirst, hsecond⟩
    match partners with
    | [] => exact absurd hfirst List.not_mem_nil
    | [other] =>
      rw [List.mem_singleton] at hfirst hsecond
      exact absurd (hfirst.trans hsecond.symm) hne
    | _ :: _ :: _ => simp

theorem unitCycle?_eq_findSome?_partnersOf (g : Grammar) :
    g.unitCycle? = g.names.findSome? fun n ↦
      if decide (1 < (g.partnersOf n).length) = true then
        some (.divergent n (.unitCycle (g.partnersOf n)))
      else none := by
  simp only [unitCycle?_eq_findSome?, unitPartners_eq_partnersOf, decide_eq_true_eq]

/-- The check stops at the first non-terminal with two partners. -/
theorem unitCycle?_eq_some_iff : g.unitCycle? = some error ↔
    ∃ n, First g.names g.HasTwoPartners n ∧
      error = .divergent n (.unitCycle (g.partnersOf n)) := by
  have hcheck : ∀ n, decide (1 < (g.partnersOf n).length) = true ↔ g.HasTwoPartners n := by
    intro n
    rw [decide_eq_true_iff, one_lt_length_partnersOf_iff]
  rw [unitCycle?_eq_findSome?_partnersOf]
  exact findSome?_eq_some_iff_first hcheck

theorem unitCycle?_eq_none_iff : g.unitCycle? = none ↔ ¬ g.HasUnitTriple := by
  have hcheck : ∀ n, ¬ decide (1 < (g.partnersOf n).length) = true ↔ ¬ g.HasTwoPartners n := by
    intro n
    rw [decide_eq_true_iff, one_lt_length_partnersOf_iff]
  simp only [unitCycle?_eq_findSome?_partnersOf, List.findSome?_eq_none_iff, ite_eq_right_iff,
    reduceCtorEq, imp_false, hcheck, hasUnitTriple_iff, not_exists, not_and]

/-- The cycle check with what the search with a stack finds. -/
def unitCycleBySearch? (g : Grammar) : Option GrammarError :=
  g.names.findSome? fun name ↦
    let others := g.unitPartners g.searchUnits name
    if 1 < others.length then some (.divergent name (.unitCycle others)) else none

theorem unitCycleBySearch?_eq (g : Grammar) : g.unitCycleBySearch? = g.unitCycle? := by
  have hsame : ∀ name, g.unitPartners g.searchUnits name = g.partnersOf name := by
    intro name
    apply List.filter_congr
    intro other _
    rw [Bool.eq_iff_iff, decide_eq_true_iff, ← mem_unitPartners_iff_partners, mem_unitPartners_iff]
    simp only [Bool.and_eq_true, decide_eq_true_eq, List.contains_iff_mem, mem_searchUnits_iff,
      and_assoc, ne_eq]
  simp only [unitCycleBySearch?, hsame, unitCycle?_eq_findSome?_partnersOf, decide_eq_true_eq]

/-! ## The outcome -/

/-- Unit productions are removed exactly from the valid grammars without three different
non-terminals that derive each other through them.  A valid grammar with such non-terminals is
refused with the first one that has two partners, and with all its partners; an invalid one for the
fault that the validation finds.  The check is one of what a search with a stack finds. -/
theorem eliminateUnits_outcome (g : Grammar) :
    ((∃ h, g.eliminateUnits = .ok h) ↔ g.Valid ∧ ¬ g.HasUnitTriple) ∧
      (g.Valid ∧ g.HasUnitTriple ↔ ∃ n, First g.names g.HasTwoPartners n ∧
        g.eliminateUnits = .error (.divergent n (.unitCycle (g.partnersOf n))) ∧
        (Divergence.unitCycle (g.partnersOf n)).message =
          "unit productions cycle through " ++ ", ".intercalate (g.partnersOf n)) ∧
      (∀ error, g.validate = .error error ↔ ¬ g.Valid ∧ g.eliminateUnits = .error error) ∧
      (∀ m n, n ∈ g.searchUnits m ↔ g.UnitDerives m n) ∧
      g.unitCycleBySearch? = g.unitCycle? := by
  refine ⟨?_, ?_, fun error ↦ ?_, fun _ _ ↦ mem_searchUnits_iff, unitCycleBySearch?_eq g⟩
  · simp only [eliminateUnits_eq_ok_iff, unitCycle?_eq_none_iff]
    exact ⟨fun ⟨_, hvalid, hnone, _⟩ ↦ ⟨hvalid, hnone⟩,
      fun ⟨hvalid, hnone⟩ ↦ ⟨_, hvalid, hnone, rfl⟩⟩
  · constructor
    · rintro ⟨hvalid, htriple⟩
      have hcycle : g.unitCycle? ≠ none := fun hnone ↦ unitCycle?_eq_none_iff.1 hnone htriple
      obtain ⟨error, herror⟩ := Option.ne_none_iff_exists'.1 hcycle
      obtain ⟨n, hfirst, rfl⟩ := unitCycle?_eq_some_iff.1 herror
      exact ⟨n, hfirst, eliminateUnits_eq_error_iff.2 (.inr ⟨hvalid, herror⟩), rfl⟩
    · rintro ⟨n, ⟨earlier, later, hnames, htwo, -⟩, hrefused, -⟩
      have hn : n ∈ g.names := hnames ▸ List.mem_append_right _ List.mem_cons_self
      rcases eliminateUnits_eq_error_iff.1 hrefused with hinvalid | ⟨hvalid, -⟩
      · obtain ⟨_, _, hmalformed⟩ := exists_malformed_of_validate hinvalid
        exact nomatch hmalformed
      · exact ⟨hvalid, hasUnitTriple_iff.2 ⟨n, hn, htwo⟩⟩
  · rw [eliminateUnits_eq_error_iff]
    constructor
    · exact fun hinvalid ↦ ⟨fun hvalid ↦ hvalid.validate_ne_error hinvalid, .inl hinvalid⟩
    · rintro ⟨hinvalid, hrefused | ⟨hvalid, -⟩⟩
      · exact hrefused
      · exact absurd hvalid hinvalid

/-- Two pairs that share a member, which is not the first of the names. -/
example : eliminateUnits { rules := [
    ("S", [[.nonTerminal "B"]]),
    ("A", [[.nonTerminal "B"], [.terminal "a"]]),
    ("B", [[.nonTerminal "C"], [.nonTerminal "A"]]),
    ("C", [[.nonTerminal "B"], [.nonTerminal "C"]])] } =
      .error (.divergent "A" (.unitCycle ["B", "C"])) := by
  rfl

end ContextFree.Grammar
