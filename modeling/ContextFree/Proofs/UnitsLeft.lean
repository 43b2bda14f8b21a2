import ContextFree.Proofs.Chomsky

/-!
# The unit productions that are left

The non-terminals are taken in order.  From a target before it a non-terminal gets the unit
productions of that target as they are by then, and from a target at its own place or after it those
that the target began with.  So all unit productions go away exactly when no unit production to the
same or a later non-terminal can be followed by one that leads anywhere but back, and this condition
decides, together with the leak of `λ`, whether the Chomsky normal form is reached.
-/

namespace ContextFree.Grammar

variable {g h c : Grammar} {n target : Name}

/-- A unit production to the same or a later non-terminal is followed there by unit productions back
to its own left-hand side only. -/
def ForwardUnitsReturn (g : Grammar) : Prop :=
  ∀ n middle, [.nonTerminal middle] ∈ g.productionsOf n →
    g.names.idxOf n ≤ g.names.idxOf middle →
      ∀ target, [.nonTerminal target] ∈ g.productionsOf middle → target = n

/-! ## The places of names -/

/-- What stands before a name comes first. -/
theorem idxOf_lt_idxOf_iff {earlier later : List Name} {m : Name}
    (hnames : g.names = earlier ++ n :: later) :
    g.names.idxOf m < g.names.idxOf n ↔ m ∈ earlier := by
  have hn : g.names.idxOf n = earlier.length := by
    rw [hnames, List.idxOf_append, if_neg (notMem_of_names_eq hnames).1, List.idxOf_cons_self,
      Nat.zero_add]
  rw [hn, hnames, List.idxOf_append]
  split
  · next hm => exact iff_of_true (List.idxOf_lt_length_of_mem hm) hm
  · next hm => exact iff_of_false (by omega) hm

/-! ## One pass over the names -/

theorem productionsOf_foldl_inlineUnits_of_notMem {names : List Name} (hn : n ∉ names) :
    (names.foldl inlineUnits g).productionsOf n = g.productionsOf n := by
  induction names generalizing g with
  | nil => rfl
  | cons left names ih =>
    obtain ⟨hne, hrest⟩ : n ≠ left ∧ n ∉ names := by simpa using hn
    rw [List.foldl_cons, ih hrest, productionsOf_inlineUnits_of_ne hne]

theorem unit_mem_inlineUnits_self_iff :
    [.nonTerminal target] ∈ (g.inlineUnits n).productionsOf n ↔ target ≠ n ∧ ∃ middle,
      [.nonTerminal middle] ∈ g.productionsOf n ∧
        [.nonTerminal target] ∈ g.productionsOf middle := by
  rw [mem_productionsOf_inlineUnits_self]
  constructor
  · intro h
    obtain ⟨q, hq, hwithout⟩ := h
    rcases mem_withoutUnit_iff.1 hwithout with ⟨hnone, rfl⟩ | ⟨middle, rfl, hmember, hback⟩
    · simp [Production.unitTarget?] at hnone
    · exact ⟨fun hsame ↦ hback (hsame ▸ rfl), middle, hq, hmember⟩
  · intro h
    obtain ⟨hne, middle, hmiddle, hmember⟩ := h
    refine ⟨_, hmiddle, mem_withoutUnit_iff.2 (.inr ⟨middle, rfl, hmember, ?_⟩)⟩
    simpa using hne

/-- A unit production is left that leads on from the target of one: as it is in the end if the
target comes before, as it was in the beginning if not. -/
theorem unit_mem_eliminateUnits_iff (hresult : g.eliminateUnits = .ok h) {earlier later : List Name}
    (hnames : g.names = earlier ++ n :: later) :
    [.nonTerminal target] ∈ h.productionsOf n ↔ target ≠ n ∧ ∃ middle,
      [.nonTerminal middle] ∈ g.productionsOf n ∧
        (middle ∈ earlier ∧ [.nonTerminal target] ∈ h.productionsOf middle ∨
          middle ∉ earlier ∧ [.nonTerminal target] ∈ g.productionsOf middle) := by
  obtain ⟨hearlier, hlater⟩ := notMem_of_names_eq hnames
  have hh := (eliminateUnits_eq_ok_iff.1 hresult).2.2
  rw [hnames, List.foldl_append, List.foldl_cons] at hh
  have hbefore : ∀ m ∈ earlier,
      h.productionsOf m = (earlier.foldl inlineUnits g).productionsOf m := by
    intro m hm
    have hne : m ≠ n := fun hsame ↦ hearlier (hsame ▸ hm)
    have hm' : m ∉ later := by
      have hdistinct := g.names_nodup
      rw [hnames, List.nodup_append] at hdistinct
      exact fun hmember ↦ hdistinct.2.2 m hm m (List.mem_cons_of_mem n hmember) rfl
    rw [hh, productionsOf_foldl_inlineUnits_of_notMem hm', productionsOf_inlineUnits_of_ne hne]
  rw [hh, productionsOf_foldl_inlineUnits_of_notMem hlater, ← hh, unit_mem_inlineUnits_self_iff,
    productionsOf_foldl_inlineUnits_of_notMem hearlier]
  apply and_congr_right
  intro _
  apply exists_congr
  intro middle
  apply and_congr_right
  intro _
  by_cases hmiddle : middle ∈ earlier
  · simp [hmiddle, hbefore middle hmiddle]
  · simp [hmiddle, productionsOf_foldl_inlineUnits_of_notMem hmiddle]

/-- No unit production is left exactly when the forward ones lead nowhere but back. -/
theorem forall_unit_notMem_eliminateUnits_iff (hresult : g.eliminateUnits = .ok h) :
    (∀ n target, [.nonTerminal target] ∉ h.productionsOf n) ↔ g.ForwardUnitsReturn := by
  constructor
  · intro hnone n middle hmiddle hforward target htarget
    obtain ⟨earlier, later, hnames⟩ := List.append_of_mem (mem_names_of_mem_productionsOf hmiddle)
    have hlate : middle ∉ earlier := by
      rw [← idxOf_lt_idxOf_iff hnames]
      omega
    apply Classical.byContradiction
    intro hne
    exact hnone n target ((unit_mem_eliminateUnits_iff hresult hnames).2
      ⟨hne, middle, hmiddle, .inr ⟨hlate, htarget⟩⟩)
  · intro hreturn n
    -- The induction is on the place of the name: those before it have lost their unit productions.
    induction hplace : g.names.idxOf n using Nat.strongRecOn generalizing n with
    | ind place ih =>
      intro target hunit
      have hn : n ∈ g.names := by
        rw [← names_eliminateUnits hresult]
        exact mem_names_of_mem_productionsOf hunit
      obtain ⟨earlier, later, hnames⟩ := List.append_of_mem hn
      obtain ⟨hne, middle, hmiddle, ⟨hearly, hleft⟩ | ⟨hlate, hold⟩⟩ :=
        (unit_mem_eliminateUnits_iff hresult hnames).1 hunit
      · have hbefore := (idxOf_lt_idxOf_iff hnames).2 hearly
        exact ih _ (hplace ▸ hbefore) middle rfl target hleft
      · rw [← idxOf_lt_idxOf_iff hnames, Nat.not_lt] at hlate
        exact hne (hreturn n middle hmiddle hlate target hold)

/-! ## The Chomsky normal form -/

/-- The result is in Chomsky normal form exactly when, once the empty productions are removed, the
forward unit productions lead nowhere but back and the start symbol hands no `λ` to another
non-terminal. -/
theorem isChomsky_toChomsky_iff (hresult : g.toChomsky = .ok c) :
    ∃ nullFree, g.eliminateNull g.nullable = .ok nullFree ∧
      (c.isChomsky = true ↔ nullFree.ForwardUnitsReturn ∧ ¬ nullFree.LeaksEpsilon) := by
  obtain ⟨nullFree, unitFree, binary, fresh, fresh', hnull, hunit, hbinary, hisolated⟩ :=
    toChomsky_eq_ok_iff.1 hresult
  have hform : ∀ n, ∀ p ∈ c.productionsOf n, p.NearlyChomsky c.names :=
    fun n p hp ↦ nearlyChomsky_of_isolateTerminals hbinary hisolated hp
  have hunits : ∀ n target, [.nonTerminal target] ∈ c.productionsOf n ↔
      [.nonTerminal target] ∈ unitFree.productionsOf n :=
    fun n target ↦ (singleton_mem_isolateTerminals_iff hisolated rfl).trans
      (singleton_mem_binarize_iff hbinary)
  have hepsilon : c.EpsilonAtStart ↔ ¬ nullFree.LeaksEpsilon :=
    (epsilonAtStart_isolateTerminals_iff hbinary hisolated).trans
      (epsilonAtStart_eliminateUnits_iff hunit (epsilonAtStart_eliminateNull hnull))
  refine ⟨nullFree, hnull, ?_⟩
  calc c.isChomsky = true
      ↔ (∀ n target, [.nonTerminal target] ∉ c.productionsOf n) ∧ c.EpsilonAtStart :=
        isChomsky_iff_of_nearlyChomsky hform
    _ ↔ nullFree.ForwardUnitsReturn ∧ ¬ nullFree.LeaksEpsilon := by
        simp only [hunits, hepsilon, forall_unit_notMem_eliminateUnits_iff hunit]

/-- A self loop, a mutual pair and a chain of unit productions, of which the chain is left. -/
def tangled : Grammar where
  rules := [
    ("S", [[.nonTerminal "S"], [.nonTerminal "A"], [.terminal "a"]]),
    ("A", [[.nonTerminal "B"], [.nonTerminal "S"]]),
    ("B", [[.nonTerminal "B"], [.terminal "b"]])]

def tangledChomsky : Grammar where
  rules := [
    ("S", [[.nonTerminal "A"], [.terminal "a"], [.nonTerminal "B"]]),
    ("A", [[.nonTerminal "B"], [.terminal "b"], [.terminal "a"]]),
    ("B", [[.terminal "b"]])]

theorem isChomsky_toChomsky_iff_tangled :
    tangled.toChomsky = .ok tangledChomsky ∧
      ∃ nullFree, tangled.eliminateNull tangled.nullable = .ok nullFree ∧
        (tangledChomsky.isChomsky = true ↔
          nullFree.ForwardUnitsReturn ∧ ¬ nullFree.LeaksEpsilon) :=
  ⟨by rfl, isChomsky_toChomsky_iff (by rfl)⟩

end ContextFree.Grammar
