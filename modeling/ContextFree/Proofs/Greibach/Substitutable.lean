import ContextFree.Proofs.Greibach.Language
import ContextFree.Proofs.UnitReachability

/-!
# Grammars whose productions may stand for a leading non-terminal

A production may take the place of a leading non-terminal as long as it is not `λ`.  That is so when
`λ` belongs to the start symbol alone and the start symbol occurs on no right-hand side, and both
kinds of steps keep it so.

A tail would have an empty production if its non-terminal had the unit production to itself.  The
unit productions that arise on the way are unit derivations of the source, and these lead no
non-terminal back to itself.
-/

namespace ContextFree.Grammar

variable {g h k k' : Grammar} {n : Name} {p q : Production}

/-! ## What stands in the way -/

theorem strayEpsilon?_eq_none_iff : g.strayEpsilon? = none ↔ g.EpsilonAtStart := by
  simp only [strayEpsilon?, List.findSome?_eq_none_iff, EpsilonAtStart, mem_productionsOf_iff]
  constructor
  · intro hnone n hepsilon
    obtain ⟨productions, hrule, hmember⟩ := hepsilon
    have hstart := hnone _ hrule
    simpa [hmember, isStart] using hstart
  · intro hstart rule hrule
    have hstray : g.start? ≠ some rule.1 → Production.epsilon ∉ rule.2 :=
      fun hne hmember ↦ hne (hstart rule.1 ⟨rule.2, hrule, hmember⟩)
    simpa [isStart] using hstray

theorem mentions_iff : g.mentions n = true ↔
    ∃ m, ∃ p ∈ g.productionsOf m, Symbol.nonTerminal n ∈ p := by
  simp only [mentions, List.any_eq_true, List.contains_iff_mem]
  exact exists_mem_productionsOf_iff.symm

theorem usedEpsilon?_eq_none_iff : g.usedEpsilon? = none ↔ g.EmptyStartUnused := by
  unfold usedEpsilon? EmptyStartUnused
  cases g.start? with
  | none => simp
  | some start =>
    have hmentions : ¬ (g.mentions start = true) ↔
        ∀ m, ∀ p ∈ g.productionsOf m, Symbol.nonTerminal start ∉ p := by
      rw [mentions_iff]
      simp only [not_exists, not_and]
    simp [← hmentions]

theorem unitLoop?_eq_none_iff : g.unitLoop? = none ↔ ∀ n, ¬ g.UnitDerives n n := by
  have hloop : ∀ n, (g.unitReachable n).contains n = true ↔ g.UnitDerives n n := by
    intro n
    rw [List.contains_iff_mem, mem_unitReachable_iff, and_iff_right_iff_imp]
    exact UnitDerives.mem_names
  simp only [unitLoop?, List.findSome?_eq_none_iff, ite_eq_right_iff, reduceCtorEq, imp_false,
    hloop]
  exact ⟨fun h n hn ↦ h n hn.mem_names hn, fun h n _ ↦ h n⟩

/-- A grammar without obstacle has its `λ` at the start symbol, which is not used then, and no unit
loop. -/
theorem of_greibachObstacle?_eq_none (hnone : g.greibachObstacle? = none) :
    g.strayEpsilon? = none ∧ g.usedEpsilon? = none ∧ g.unitLoop? = none ∧
      g.barrenStart? = none := by
  simpa only [greibachObstacle?, Option.orElse_eq_orElse, Option.orElse_eq_or,
    Option.or_eq_none_iff] using hnone

/-! ## Substitution keeps productions well formed -/

/-- A valid grammar in which only an unused start symbol may have the production `λ`. -/
structure Substitutable (g : Grammar) : Prop where
  valid : g.Valid
  epsilonAtStart : g.EpsilonAtStart
  unused : ∀ n, Production.epsilon ∈ g.productionsOf n →
    ∀ m, ∀ p ∈ g.productionsOf m, Symbol.nonTerminal n ∉ p

theorem substitutable_of_greibachObstacle? (hvalid : g.Valid)
    (hnone : g.greibachObstacle? = none) : g.Substitutable := by
  obtain ⟨hstray, hused, -, -⟩ := of_greibachObstacle?_eq_none hnone
  have hstart := strayEpsilon?_eq_none_iff.1 hstray
  exact ⟨hvalid, hstart, fun n hepsilon ↦
    usedEpsilon?_eq_none_iff.1 hused n (hstart n hepsilon) hepsilon⟩

namespace Substitutable

/-- A mentioned non-terminal has productions without `λ`. -/
theorem epsilon_notMem {m : Name} (hg : g.Substitutable) (hp : p ∈ g.productionsOf m)
    (hn : Symbol.nonTerminal n ∈ p) (hq : q ∈ g.productionsOf n) : Symbol.epsilon ∉ q := by
  intro hepsilon
  have hsame := (hg.valid.wellFormed hq).eq_epsilon_of_mem hepsilon
  exact hg.unused n (hsame ▸ hq) m p hp hn

/-- What follows a leading non-terminal is free of `λ`. -/
theorem epsilon_notMem_rest {lead : Name} {rest : Production} (hg : g.Substitutable)
    (hlead : .nonTerminal lead :: rest ∈ g.productionsOf n) : Symbol.epsilon ∉ rest := by
  intro hepsilon
  have hmember : Symbol.epsilon ∈ Symbol.nonTerminal lead :: rest :=
    List.mem_cons_of_mem _ hepsilon
  have hsame := (hg.valid.wellFormed hlead).eq_epsilon_of_mem hmember
  simp [Production.epsilon] at hsame

/-- An unfolded production is free of `λ`. -/
theorem epsilon_notMem_append {lead : Name} {rest : Production} (hg : g.Substitutable)
    (hlead : .nonTerminal lead :: rest ∈ g.productionsOf n) (hq : q ∈ g.productionsOf lead) :
    Symbol.epsilon ∉ q ++ rest := by
  rw [List.mem_append, not_or]
  exact ⟨hg.epsilon_notMem hlead List.mem_cons_self hq, hg.epsilon_notMem_rest hlead⟩

end Substitutable

/-- Unfolding brings no production `λ`. -/
theorem Unfolds.epsilon_mem_source (hunfolds : Unfolds g h) (hg : g.Substitutable)
    (hepsilon : Production.epsilon ∈ h.productionsOf n) :
    Production.epsilon ∈ g.productionsOf n := by
  rcases hunfolds.justified n _ hepsilon with hold | ⟨lead, q, rest, hlead, hq, hsame⟩
  · exact hold
  · apply absurd _ (hg.epsilon_notMem_append hlead hq)
    rw [← hsame]
    exact List.mem_singleton_self _

theorem Unfolds.substitutable (hunfolds : Unfolds g h) (hnames : h.names = g.names)
    (hg : g.Substitutable) : h.Substitutable := by
  refine ⟨valid_iff.2 fun n p hp ↦ ?_, fun n hn ↦ ?_, fun n hn m p hp hmember ↦ ?_⟩
  · have hdeclared := hunfolds.mentionsDeclared hnames hg.valid.mentionsDeclared n p hp
    rcases hunfolds.justified n p hp with hold | ⟨lead, q, rest, hlead, hq, rfl⟩
    · have hwell := hg.valid.wellFormed hold
      exact ⟨hwell.ne_nil, hwell.eq_epsilon_of_mem, hdeclared⟩
    · refine ⟨?_, fun hlambda ↦ absurd hlambda (hg.epsilon_notMem_append hlead hq), hdeclared⟩
      exact List.append_ne_nil_of_left_ne_nil (hg.valid.wellFormed hq).ne_nil rest
  · rw [start?, hnames]
    exact hg.epsilonAtStart n (hunfolds.epsilon_mem_source hg hn)
  · have hunused := hg.unused n (hunfolds.epsilon_mem_source hg hn)
    rcases hunfolds.justified m p hp with hold | ⟨lead, q, rest, hlead, hq, rfl⟩
    · exact hunused m p hold hmember
    · rcases List.mem_append.1 hmember with hmember | hmember
      · exact hunused lead q hq hmember
      · exact hunused m _ hlead (List.mem_cons_of_mem _ hmember)

namespace MovesLeftRecursion

variable {current tail : Name}

/-- Without the unit production of the non-terminal to itself, no part that the move leaves is empty
or has `λ` in it. -/
theorem exists_proper_part (hmoves : MovesLeftRecursion g h current tail) (hg : g.Substitutable)
    (hunit : [.nonTerminal current] ∉ g.productionsOf current) (hp : p ∈ h.productionsOf n) :
    p ∈ g.productionsOf n ∨ ∃ source ∈ g.productionsOf current, ∃ part, part ⊆ source ∧
      part ≠ [] ∧ Symbol.epsilon ∉ part ∧ (p = part ∨ p = part ++ [.nonTerminal tail]) := by
  rcases hmoves.exists_part hp with hold | ⟨source, hsource, part, hsubset, hpart, hcases⟩
  · exact .inl hold
  · refine .inr ⟨source, hsource, part, hsubset, ?_⟩
    rcases hpart with rfl | rfl
    · obtain ⟨rest, hrest⟩ := hmoves.recursive
      exact ⟨(hg.valid.wellFormed hsource).ne_nil,
        hg.epsilon_notMem hrest List.mem_cons_self hsource, hcases⟩
    · have hne : part ≠ [] := fun hempty ↦ hunit (hempty ▸ hsource)
      exact ⟨hne, hg.epsilon_notMem_rest hsource, hcases⟩

theorem epsilon_notMem_of_part {part : Production} (hfree : Symbol.epsilon ∉ part)
    (hcases : p = part ∨ p = part ++ [.nonTerminal tail]) : Symbol.epsilon ∉ p := by
  rcases hcases with rfl | rfl
  · exact hfree
  · simpa using hfree

/-- Moving left recursion brings no production `λ`. -/
theorem epsilon_mem_source (hmoves : MovesLeftRecursion g h current tail) (hg : g.Substitutable)
    (hunit : [.nonTerminal current] ∉ g.productionsOf current)
    (hepsilon : Production.epsilon ∈ h.productionsOf n) :
    Production.epsilon ∈ g.productionsOf n := by
  rcases hmoves.exists_proper_part hg hunit hepsilon with
    hold | ⟨-, -, part, -, -, hfree, hcases⟩
  · exact hold
  · exact absurd (List.mem_singleton_self _) (epsilon_notMem_of_part hfree hcases)

theorem substitutable (hmoves : MovesLeftRecursion g h current tail) (hg : g.Substitutable)
    (hunit : [.nonTerminal current] ∉ g.productionsOf current) : h.Substitutable := by
  refine ⟨valid_iff.2 fun n p hp ↦ ?_, fun n hn ↦ ?_, fun n hn m p hp hmember ↦ ?_⟩
  · have hdeclared := hmoves.mentionsDeclared hg.valid.mentionsDeclared n p hp
    rcases hmoves.exists_proper_part hg hunit hp with
      hold | ⟨-, -, part, -, hne, hfree, hcases⟩
    · have hwell := hg.valid.wellFormed hold
      exact ⟨hwell.ne_nil, hwell.eq_epsilon_of_mem, hdeclared⟩
    · have hlambda : Symbol.epsilon ∉ p := epsilon_notMem_of_part hfree hcases
      refine ⟨?_, fun hmember ↦ absurd hmember hlambda, hdeclared⟩
      rcases hcases with rfl | rfl
      · exact hne
      · exact List.append_ne_nil_of_left_ne_nil hne _
  · have hold := hmoves.epsilon_mem_source hg hunit hn
    rw [start?_of_names_append hmoves.names (mem_names_of_mem_productionsOf hold)]
    exact hg.epsilonAtStart n hold
  · have hold := hmoves.epsilon_mem_source hg hunit hn
    have hunused := hg.unused n hold
    rcases hmoves.exists_proper_part hg hunit hp with
      hsame | ⟨source, hsource, part, hsub, -, -, hcases⟩
    · exact hunused m p hsame hmember
    · have hapart : Symbol.nonTerminal n ∉ part :=
        fun hpart ↦ hunused current source hsource (hsub hpart)
      rcases hcases with rfl | rfl
      · exact hapart hmember
      · rcases List.mem_append.1 hmember with hmember | hmember
        · exact hapart hmember
        · cases List.mem_singleton.1 hmember
          exact hmoves.tail_notMem (mem_names_of_mem_productionsOf hold)

end MovesLeftRecursion

/-! ## Unit productions -/

theorem UnitDerives.target_mem_names {m : Name} (hderives : g.UnitDerives m n)
    (hdeclared : g.MentionsDeclared) : n ∈ g.names := by
  cases hderives with
  | single hunit => exact hdeclared m _ hunit n (List.mem_singleton_self _)
  | tail _ hunit => exact hdeclared _ _ hunit n (List.mem_singleton_self _)

/-- The unit productions of the old non-terminals are unit derivations of the source. -/
def UnitsFrom (g k : Grammar) : Prop :=
  ∀ m ∈ g.names, ∀ n, [.nonTerminal n] ∈ k.productionsOf m → g.UnitDerives m n

theorem Unfolds.unitsFrom (hunfolds : Unfolds k k') (hk : k.Substitutable)
    (hdeclared : g.MentionsDeclared) (hunits : UnitsFrom g k) : UnitsFrom g k' := by
  intro m hm n hunit
  rcases hunfolds.justified m _ hunit with hold | ⟨lead, q, rest, hlead, hq, hsame⟩
  · exact hunits m hm n hold
  · have hne : q ≠ [] := (hk.valid.wellFormed hq).ne_nil
    obtain ⟨rfl, rfl⟩ : q = [.nonTerminal n] ∧ rest = [] := by
      rcases List.append_eq_singleton_iff.1 hsame.symm with ⟨hempty, -⟩ | hparts
      · exact absurd hempty hne
      · exact hparts
    have hfirst : g.UnitDerives m lead := hunits m hm lead hlead
    exact hfirst.trans (hunits lead (hfirst.target_mem_names hdeclared) n hq)

theorem MovesLeftRecursion.unitsFrom {current tail : Name}
    (hmoves : MovesLeftRecursion k k' current tail) (hk : k.Substitutable)
    (hnames : g.names ⊆ k.names) (hunits : UnitsFrom g k) : UnitsFrom g k' := by
  intro m hm n hunit
  have htail : m ≠ tail := fun hsame ↦ hmoves.tail_notMem (hsame ▸ hnames hm)
  by_cases hcurrent : m = current
  · subst hcurrent
    obtain ⟨q, hq, -, hcases⟩ := (hmoves.mem_current _).1 hunit
    have hne : q ≠ [] := (hk.valid.wellFormed hq).ne_nil
    rcases hcases with rfl | hsame
    · exact hunits m hm n hq
    · rcases List.append_eq_singleton_iff.1 hsame.symm with ⟨hempty, -⟩ | ⟨-, hempty⟩
      · exact absurd hempty hne
      · exact absurd hempty (List.cons_ne_nil _ _)
  · rw [hmoves.other m hcurrent htail] at hunit
    exact hunits m hm n hunit

/-! ## The invariant of both ways -/

/-- What every grammar on the way from `g` has. -/
structure OnTheWay (g k : Grammar) : Prop where
  substitutable : k.Substitutable
  names_subset : g.names ⊆ k.names
  units : UnitsFrom g k

theorem onTheWay_self (hvalid : g.Valid) (hnone : g.greibachObstacle? = none) : OnTheWay g g :=
  ⟨substitutable_of_greibachObstacle? hvalid hnone, fun _ hn ↦ hn, fun _ _ _ ↦ .single⟩

theorem OnTheWay.unfolds (hk : OnTheWay g k) (hvalid : g.Valid)
    (hunfolds : Unfolds k k') (hnames : k'.names = k.names) : OnTheWay g k' :=
  ⟨hunfolds.substitutable hnames hk.substitutable, hnames ▸ hk.names_subset,
    hunfolds.unitsFrom hk.substitutable hvalid.mentionsDeclared hk.units⟩

/-- Without unit loops in the source no non-terminal gets the unit production to itself. -/
theorem OnTheWay.unit_notMem {current : Name} (hk : OnTheWay g k)
    (hnone : g.greibachObstacle? = none) (hcurrent : current ∈ g.names) :
    [.nonTerminal current] ∉ k.productionsOf current := by
  have hloop := unitLoop?_eq_none_iff.1 (of_greibachObstacle?_eq_none hnone).2.2.1 current
  exact fun hself ↦ hloop (hk.units current hcurrent current hself)

/-- So no tail gets an empty production. -/
theorem OnTheWay.moves {current tail : Name} (hk : OnTheWay g k)
    (hnone : g.greibachObstacle? = none) (hcurrent : current ∈ g.names)
    (hmoves : MovesLeftRecursion k k' current tail) : OnTheWay g k' :=
  ⟨hmoves.substitutable hk.substitutable (hk.unit_notMem hnone hcurrent),
    List.Subset.trans hk.names_subset hmoves.names_subset,
    hmoves.unitsFrom hk.substitutable hk.names_subset hk.units⟩

end ContextFree.Grammar
