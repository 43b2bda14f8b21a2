import ContextFree.Chomsky
import ContextFree.Proofs.Greibach.Outcome

/-!
# Grammars that the change to Greibach normal form leaves alone

Where no production starts with a non-terminal there is nothing to expand and no left recursion to
move, so neither way changes a grammar that lists no production twice.  The outcome of a conversion
is such a grammar: the way back has rid it of leading non-terminals and each of its lists of
repetitions.  That it passes the checks again is no matter of its form alone, since the start symbol
has to generate a string: it does because the language has been kept.
-/

namespace ContextFree.Grammar

variable {g h k : Grammar} {n : Name} {w : List Name} {productions : List Production}

/-! ## Neither way changes anything -/

theorem leading?_eq_none_of_leadInto {p : Production} (hleads : LeadInto [] productions)
    (hp : p ∈ productions) : p.leading? = none := by
  rw [Option.eq_none_iff_forall_ne_some]
  exact fun lead hlead ↦ List.not_mem_nil (hleads p hp lead hlead)

theorem foldl_expandEarlier_eq_self (earlier : List Name) (honce : productions.Nodup)
    (hleads : LeadInto [] productions) :
    earlier.foldl g.expandEarlier productions = productions := by
  induction earlier with
  | nil => rfl
  | cons first earlier ih =>
    have hfirst : g.expandEarlier productions first = productions := by
      refine eraseDups_flatMap_eq_self honce fun p hp ↦ ?_
      rw [leading?_eq_none_of_leadInto hleads hp, if_neg (Option.some_ne_none first).symm]
    rw [List.foldl_cons, hfirst, ih]

/-- Without leading non-terminals a turn of the way forward changes nothing. -/
theorem removeLeftRecursion_eq_self {state : Forward} (earlier : List Name) (current : Name)
    (honce : state.grammar.ListsOnce) (hleads : ∀ n, LeadInto [] (state.grammar.productionsOf n)) :
    Forward.removeLeftRecursion { state with grammar := state.grammar.expandAll earlier current }
      current = .ok state := by
  have hexpanded : state.grammar.expandAll earlier current = state.grammar :=
    modify_eq_self
      (foldl_expandEarlier_eq_self earlier (listsOnce_iff.1 honce current) (hleads current))
  have hrecursive : (state.grammar.productionsOf current).filter
      (·.leading? = some current) = [] := by
    rw [List.filter_eq_nil_iff]
    intro p hp
    simp [leading?_eq_none_of_leadInto (hleads current) hp]
  rw [hexpanded]
  dsimp only [Forward.removeLeftRecursion]
  rw [if_pos hrecursive]
  rfl

theorem run_eq_self {state : Forward} (earlier later : List Name) (honce : state.grammar.ListsOnce)
    (hleads : ∀ n, LeadInto [] (state.grammar.productionsOf n)) :
    state.run earlier later = .ok state := by
  induction later generalizing earlier with
  | nil => rfl
  | cons current later ih =>
    rw [run_cons, removeLeftRecursion_eq_self earlier current honce hleads]
    exact ih (earlier ++ [current])

theorem expandLeading_eq_self (honce : g.ListsOnce) (hleads : ∀ n, LeadInto [] (g.productionsOf n))
    (current : Name) : g.expandLeading current = g := by
  apply modify_eq_self
  refine eraseDups_flatMap_eq_self (listsOnce_iff.1 honce current) fun p hp ↦ ?_
  rw [leading?_eq_none_of_leadInto (hleads current) hp]

theorem foldl_expandLeading_eq_self (order : List Name) (honce : g.ListsOnce)
    (hleads : ∀ n, LeadInto [] (g.productionsOf n)) : order.foldl expandLeading g = g := by
  induction order with
  | nil => rfl
  | cons current order ih => rw [List.foldl_cons, expandLeading_eq_self honce hleads, ih]

/-- A convertible grammar without leading non-terminals and repetitions is its own Greibach normal
form. -/
theorem toGreibach_eq_self (hconvertible : g.Convertible) (honce : g.ListsOnce)
    (hleads : ∀ n, LeadInto [] (g.productionsOf n)) : g.toGreibach = .ok g := by
  obtain ⟨hvalid, hnone⟩ := convertible_iff.1 hconvertible
  exact toGreibach_eq_ok_iff.2 ⟨hvalid, hnone, { grammar := g },
    run_eq_self [] g.names honce hleads, (foldl_expandLeading_eq_self _ honce hleads).symm⟩

/-! ## The outcome of a conversion -/

section Result

variable (hresult : g.toGreibach = .ok h)
include hresult

/-- Every list has its turn on the way back, where it loses its repetitions. -/
theorem listsOnce_toGreibach : h.ListsOnce := by
  obtain ⟨-, -, state, hforward, rfl⟩ := toGreibach_eq_ok_iff.1 hresult
  exact listsOnce_foldl _
    (fun k n ↦ nodup_productionsOf_modify k n fun productions ↦ productions.flatMap k.expansions)
    (fun _ _ _ hne ↦ productionsOf_expandLeading_of_ne hne)
    (wayBack_perm (names_forward hforward).1).symm.subset

theorem start?_toGreibach : h.start? = g.start? := by
  refine (toGreibach_induction (motive := fun k ↦ g.names ⊆ k.names ∧ k.start? = g.start?) hresult
    ?_ ?_ ⟨List.Subset.refl _, rfl⟩).2
  · intro k k' _ hnames hk
    rwa [start?, hnames]
  · intro k k' current tail hcurrent hmoves hk
    have hstart := start?_of_names_append hmoves.names (hk.1 hcurrent.1)
    exact ⟨List.Subset.trans hk.1 hmoves.names_subset, hstart.trans hk.2⟩

/-- A non-terminal without productions gets none. -/
theorem productionsOf_toGreibach_eq_nil (hn : n ∈ g.names) (hnone : g.productionsOf n = []) :
    h.productionsOf n = [] := by
  refine (toGreibach_induction (motive := fun k ↦ n ∈ k.names ∧ k.productionsOf n = []) hresult
    ?_ ?_ ⟨hn, hnone⟩).2
  · intro k k' hunfolds hnames hk
    refine ⟨hnames ▸ hk.1, List.eq_nil_iff_forall_not_mem.2 fun p hp ↦ ?_⟩
    rcases hunfolds.justified n p hp with hold | ⟨lead, q, rest, hlead, -, -⟩
    · rw [hk.2] at hold
      exact List.not_mem_nil hold
    · rw [hk.2] at hlead
      exact List.not_mem_nil hlead
  · intro k k' current tail _ hmoves hk
    obtain ⟨rest, hrest⟩ := hmoves.recursive
    have hcurrent : n ≠ current := by
      rintro rfl
      rw [hk.2] at hrest
      exact List.not_mem_nil hrest
    have htail : n ≠ tail := fun hsame ↦ hmoves.tail_notMem (hsame ▸ hk.1)
    exact ⟨hmoves.names_subset hk.1, (hmoves.other n hcurrent htail).trans hk.2⟩

/-- No string is lost. -/
theorem generates_toGreibach_of_generates (hgenerates : g.Generates n w) : h.Generates n w :=
  toGreibach_induction (motive := fun k ↦ k.Generates n w) hresult
    (fun _ _ hunfolds _ hk ↦ hunfolds.generates_iff.2 hk)
    (fun _ _ _ _ _ hmoves hk ↦ hmoves.generates_of_generates_source hk) hgenerates

/-- The start symbol generates a string again, unless it has had no productions to begin with. -/
theorem startGenerates_toGreibach (start : Name) (hstart : h.start? = some start) :
    h.productionsOf start = [] ∨ ∃ w, h.Generates start w := by
  have hg : g.Convertible := exists_toGreibach_eq_ok_iff.1 ⟨h, hresult⟩
  rw [start?_toGreibach hresult] at hstart
  rcases hg.startGenerates start hstart with hempty | ⟨w, hw⟩
  · have hdeclared : start ∈ g.names := List.mem_of_head? hstart
    exact .inl (productionsOf_toGreibach_eq_nil hresult hdeclared hempty)
  · exact .inr ⟨w, generates_toGreibach_of_generates hresult hw⟩

/-- The outcome passes all the checks that the source passes. -/
theorem convertible_toGreibach : h.Convertible := by
  obtain ⟨hh, hleads⟩ := leadInto_nil_toGreibach hresult
  have hunits : ∀ m n, [.nonTerminal n] ∉ h.productionsOf m :=
    fun m n hunit ↦ List.not_mem_nil (hleads m _ hunit n rfl)
  exact {
    valid := hh.valid
    epsilonAtStart := hh.epsilonAtStart
    emptyStartUnused := fun start _ hepsilon ↦ hh.unused start hepsilon
    noUnitLoop := fun _ ↦ not_unitDerives hunits
    startGenerates := startGenerates_toGreibach hresult }

end Result

/-- The change to Greibach normal form is idempotent: the outcome passes the checks, and the second
conversion returns it as it is and mints no tail.  No production is listed twice in it. -/
theorem toGreibach_idempotent (hresult : g.toGreibach = .ok h) :
    h.toGreibach = .ok h ∧ h.forward = .ok { grammar := h } ∧ h.Convertible ∧ h.ListsOnce := by
  have honce := listsOnce_toGreibach hresult
  have hleads := (leadInto_nil_toGreibach hresult).2
  have hconvertible := convertible_toGreibach hresult
  exact ⟨toGreibach_eq_self hconvertible honce hleads, run_eq_self [] h.names honce hleads,
    hconvertible, honce⟩

/-- Sums with the left-recursive production listed twice, and a start symbol that may be empty. -/
def sums : Grammar where
  rules := [
    ("S", [[.nonTerminal "E"], [.epsilon]]),
    ("E", [[.nonTerminal "E", .terminal "+", .nonTerminal "E"], [.terminal "x"],
      [.nonTerminal "E", .terminal "+", .nonTerminal "E"]])]

def sumsGreibach : Grammar where
  rules := [
    ("S", [[.terminal "x"], [.terminal "x", .nonTerminal "T0"], [.epsilon]]),
    ("E", [[.terminal "x"], [.terminal "x", .nonTerminal "T0"]]),
    ("T0", [[.terminal "+", .nonTerminal "E"],
      [.terminal "+", .nonTerminal "E", .nonTerminal "T0"]])]

theorem toGreibach_idempotent_sums :
    sums.isChomsky = false ∧ sums.toGreibach = .ok sumsGreibach ∧
      sumsGreibach.toGreibach = .ok sumsGreibach ∧
      sumsGreibach.forward = .ok { grammar := sumsGreibach } ∧
      sumsGreibach.Convertible ∧ sumsGreibach.ListsOnce := by
  have hresult : sums.toGreibach = .ok sumsGreibach := by rfl
  exact ⟨by decide, hresult, toGreibach_idempotent hresult⟩

end ContextFree.Grammar
