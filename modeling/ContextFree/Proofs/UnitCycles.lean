import ContextFree.Proofs.Greibach.Outcome
import ContextFree.Proofs.UnitsLeft

/-!
# The unit cycles that are left

The cycle check admits unit productions that tie a non-terminal to itself and to at most one other,
its partner.  Removing unit productions resolves the loops and the pairs, but not every pair whose
members have loops as well.  A production back to the non-terminal at hand is not copied into it,
and that breaks the cycle; but the later partner keeps a way back to the earlier one through its own
loop.  So a cycle is left exactly at such pairs.
-/

namespace ContextFree.Grammar

variable {g h : Grammar} {l m n : Name}

/-! ## Partners -/

/-- Two non-terminals that derive each other through unit productions. -/
structure Partners (g : Grammar) (m n : Name) : Prop where
  ne : m ≠ n
  forth : g.UnitDerives m n
  back : g.UnitDerives n m

theorem Partners.symm (hpartners : g.Partners m n) : g.Partners n m :=
  ⟨hpartners.ne.symm, hpartners.back, hpartners.forth⟩

/-- No non-terminal has two partners. -/
def PartnersUnique (g : Grammar) : Prop :=
  ∀ l m n, g.Partners l m → g.Partners l n → m = n

/-- The cycle check lets pass at most one partner of each non-terminal. -/
theorem partnersUnique_of_unitCycle? (hcheck : g.unitCycle? = none) : g.PartnersUnique := by
  intro l m n hm hn
  rw [unitCycle?_eq_findSome?, List.findSome?_eq_none_iff] at hcheck
  have hfew : (g.unitPartners g.reachableTable l).length ≤ 1 := by
    have hl := hcheck l hm.forth.mem_names
    split at hl
    · exact absurd hl (Option.some_ne_none _)
    · omega
  have hfound : ∀ k, g.Partners l k → k ∈ g.unitPartners g.reachableTable l :=
    fun k hk ↦ mem_unitPartners_iff.2 ⟨hk.ne.symm, hk.forth, hk.back⟩
  match hpartners : g.unitPartners g.reachableTable l, hfew with
  | [], _ =>
    have hnone := hfound m hm
    rw [hpartners] at hnone
    exact absurd hnone List.not_mem_nil
  | [k], _ =>
    have hone := hfound m hm
    have hother := hfound n hn
    rw [hpartners, List.mem_singleton] at hone hother
    rw [hone, hother]

/-- A grammar that derives no more through unit productions has no more partners. -/
theorem PartnersUnique.mono (hunique : g.PartnersUnique)
    (hderives : ∀ m n, h.UnitDerives m n → g.UnitDerives m n) : h.PartnersUnique := by
  have hpartners : ∀ m n, h.Partners m n → g.Partners m n :=
    fun m n hmn ↦ ⟨hmn.ne, hderives m n hmn.forth, hderives n m hmn.back⟩
  exact fun l m n hm hn ↦ hunique l m n (hpartners l m hm) (hpartners l n hn)

/-- What lies between two partners is one of them. -/
theorem PartnersUnique.between (hunique : g.PartnersUnique) (hmn : g.Partners m n)
    (hforth : g.UnitDerives m l) (hback : g.UnitDerives l n) : l = m ∨ l = n := by
  by_cases hl : l = m
  · exact .inl hl
  · have hml : g.Partners m l := ⟨Ne.symm hl, hforth, hback.trans hmn.back⟩
    exact .inr (hunique m l n hml hmn)

/-- So partners have unit productions to each other. -/
theorem PartnersUnique.unit_mem (hunique : g.PartnersUnique) (hmn : g.Partners m n) :
    [.nonTerminal n] ∈ g.productionsOf m := by
  have hforth := hmn.forth
  have hback := hmn.back
  induction hforth with
  | single hunit => exact hunit
  | @tail k n hfirst hunit ih =>
    rcases hunique.between hmn hfirst (.single hunit) with rfl | rfl
    · exact hunit
    · exact ih hmn hback

/-! ## What is left of a pair -/

/-- Removing unit productions brings no unit derivation. -/
theorem unitDerives_of_eliminateUnits (hresult : g.eliminateUnits = .ok h)
    (hderives : h.UnitDerives m n) : g.UnitDerives m n := by
  have hunits : ∀ m n, [.nonTerminal n] ∈ h.productionsOf m → g.UnitDerives m n := by
    rw [(eliminateUnits_eq_ok_iff.1 hresult).2.2]
    refine foldl_inlineUnits_induction
      (motive := fun k ↦ ∀ m n, [.nonTerminal n] ∈ k.productionsOf m → g.UnitDerives m n) g.names
      (fun k left hk m n hunit ↦ ?_) (fun _ _ ↦ .single)
    rcases mem_productionsOf_of_mem_inlineUnits hunit with hold | ⟨rfl, target, htarget, hcopied⟩
    · exact hk m n hold
    · exact (hk m target htarget).trans (hk target n hcopied)
  induction hderives with
  | single hunit => exact hunits _ _ hunit
  | tail _ hunit ih => exact ih.trans (hunits _ _ hunit)

/-- The unit productions that are left, by the places of the names. -/
theorem unit_mem_eliminateUnits_iff_idxOf (hresult : g.eliminateUnits = .ok h)
    (hn : n ∈ g.names) : [.nonTerminal m] ∈ h.productionsOf n ↔ m ≠ n ∧ ∃ middle,
      [.nonTerminal middle] ∈ g.productionsOf n ∧
        (g.names.idxOf middle < g.names.idxOf n ∧ [.nonTerminal m] ∈ h.productionsOf middle ∨
          g.names.idxOf n ≤ g.names.idxOf middle ∧
            [.nonTerminal m] ∈ g.productionsOf middle) := by
  obtain ⟨earlier, later, hnames⟩ := List.append_of_mem hn
  simp only [unit_mem_eliminateUnits_iff hresult hnames, ← Nat.not_lt, idxOf_lt_idxOf_iff hnames]

/-- Of two partners the later one is left with the unit production to the earlier one exactly if it
has a loop. -/
theorem unit_mem_later_iff (hresult : g.eliminateUnits = .ok h) (hmn : g.Partners m n)
    (hplaces : g.names.idxOf m < g.names.idxOf n) :
    [.nonTerminal m] ∈ h.productionsOf n ↔ [.nonTerminal n] ∈ g.productionsOf n := by
  have hunique := partnersUnique_of_unitCycle? (eliminateUnits_eq_ok_iff.1 hresult).2.1
  rw [unit_mem_eliminateUnits_iff_idxOf hresult hmn.back.mem_names]
  constructor
  · intro hleft
    obtain ⟨-, middle, hmiddle, ⟨hearly, hunit⟩ | ⟨hlate, hunit⟩⟩ := hleft
    · -- The way through the earlier partner would need the loop that it has lost.
      have hback := unitDerives_of_eliminateUnits hresult (.single hunit)
      rcases hunique.between hmn.symm (.single hmiddle) hback with rfl | rfl
      · omega
      · exact absurd rfl ((unit_mem_eliminateUnits_iff_idxOf hresult hmn.forth.mem_names).1 hunit).1
    · rcases hunique.between hmn.symm (.single hmiddle) (.single hunit) with rfl | rfl
      · exact hmiddle
      · omega
  · intro hloop
    exact ⟨hmn.ne, n, hloop, .inr ⟨Nat.le_refl _, hunique.unit_mem hmn.symm⟩⟩

/-- The loop of the later partner also keeps the unit production of the earlier one. -/
theorem unit_mem_earlier (hresult : g.eliminateUnits = .ok h) (hmn : g.Partners m n)
    (hplaces : g.names.idxOf m < g.names.idxOf n)
    (hloop : [.nonTerminal n] ∈ g.productionsOf n) : [.nonTerminal n] ∈ h.productionsOf m := by
  have hunique := partnersUnique_of_unitCycle? (eliminateUnits_eq_ok_iff.1 hresult).2.1
  rw [unit_mem_eliminateUnits_iff_idxOf hresult hmn.forth.mem_names]
  exact ⟨hmn.ne.symm, n, hunique.unit_mem hmn, .inr ⟨Nat.le_of_lt hplaces, hloop⟩⟩

/-! ## The cycles -/

/-- Two non-terminals with unit productions to each other, of which the later one also has the unit
production to itself. -/
structure LoopingPair (g : Grammar) (first second : Name) : Prop where
  places : g.names.idxOf first < g.names.idxOf second
  forth : [.nonTerminal second] ∈ g.productionsOf first
  back : [.nonTerminal first] ∈ g.productionsOf second
  loop : [.nonTerminal second] ∈ g.productionsOf second

theorem loopingPair_iff {first second : Name} : g.LoopingPair first second ↔
    g.names.idxOf first < g.names.idxOf second ∧ second ∈ g.unitTargets first ∧
      first ∈ g.unitTargets second ∧ second ∈ g.unitTargets second := by
  simp only [mem_unitTargets]
  exact ⟨fun ⟨hplaces, hforth, hback, hloop⟩ ↦ ⟨hplaces, hforth, hback, hloop⟩,
    fun ⟨hplaces, hforth, hback, hloop⟩ ↦ ⟨hplaces, hforth, hback, hloop⟩⟩

instance (first second : Name) : Decidable (g.LoopingPair first second) :=
  decidable_of_iff _ loopingPair_iff.symm

theorem LoopingPair.partners {first second : Name} (hpair : g.LoopingPair first second) :
    g.Partners first second where
  ne hsame := Nat.lt_irrefl _ (hsame ▸ hpair.places)
  forth := .single hpair.forth
  back := .single hpair.back

/-- A cycle goes through a pair of partners, since no loop is left. -/
theorem exists_partners_of_unitDerives_self (hresult : g.eliminateUnits = .ok h)
    (hcycle : h.UnitDerives n n) : ∃ m, h.Partners m n := by
  have hne : ∀ {m k}, [.nonTerminal k] ∈ h.productionsOf m → k ≠ m := by
    intro m k hunit
    have hm : m ∈ g.names :=
      names_eliminateUnits hresult ▸ mem_names_of_mem_productionsOf hunit
    exact ((unit_mem_eliminateUnits_iff_idxOf hresult hm).1 hunit).1
  generalize hlast : n = last at hcycle
  cases hcycle with
  | single hunit => exact absurd hlast (hne (hlast ▸ hunit))
  | @tail m _ hfirst hunit =>
    subst hlast
    exact ⟨m, (hne hunit).symm, .single hunit, hfirst⟩

/-- A cycle is left at the looping pairs and nowhere else. -/
theorem unitDerives_self_iff (hresult : g.eliminateUnits = .ok h) :
    h.UnitDerives n n ↔ ∃ first second, g.LoopingPair first second ∧ (n = first ∨ n = second) := by
  constructor
  · intro hcycle
    obtain ⟨m, hmn⟩ := exists_partners_of_unitDerives_self hresult hcycle
    have hunique := partnersUnique_of_unitCycle? (eliminateUnits_eq_ok_iff.1 hresult).2.1
    have hleft : h.PartnersUnique :=
      hunique.mono fun _ _ ↦ unitDerives_of_eliminateUnits hresult
    have hg : g.Partners m n := ⟨hmn.ne, unitDerives_of_eliminateUnits hresult hmn.forth,
      unitDerives_of_eliminateUnits hresult hmn.back⟩
    have hplaces : g.names.idxOf m ≠ g.names.idxOf n :=
      fun hsame ↦ hmn.ne ((List.idxOf_inj hg.forth.mem_names).1 hsame)
    rcases Nat.lt_or_gt_of_ne hplaces with hbefore | hafter
    · have hloop := (unit_mem_later_iff hresult hg hbefore).1 (hleft.unit_mem hmn.symm)
      exact ⟨m, n, ⟨hbefore, hunique.unit_mem hg, hunique.unit_mem hg.symm, hloop⟩, .inr rfl⟩
    · have hloop := (unit_mem_later_iff hresult hg.symm hafter).1 (hleft.unit_mem hmn)
      exact ⟨n, m, ⟨hafter, hunique.unit_mem hg.symm, hunique.unit_mem hg, hloop⟩, .inl rfl⟩
  · intro hpair
    obtain ⟨first, second, hpair, hn⟩ := hpair
    have hforth : h.UnitDerives first second :=
      .single (unit_mem_earlier hresult hpair.partners hpair.places hpair.loop)
    have hback : h.UnitDerives second first :=
      .single ((unit_mem_later_iff hresult hpair.partners hpair.places).2 hpair.loop)
    rcases hn with rfl | rfl
    · exact hforth.trans hback
    · exact hback.trans hforth

/-- Removing unit productions leaves a cycle of them exactly at the pairs of which the later member
has a loop.  Without such a pair the outcome is not refused for a cycle on the way to Greibach
normal form. -/
theorem unitCycles_eliminateUnits (hresult : g.eliminateUnits = .ok h) :
    (∀ n, h.UnitDerives n n ↔
      ∃ first second, g.LoopingPair first second ∧ (n = first ∨ n = second)) ∧
    ((∀ first second, ¬ g.LoopingPair first second) →
      (∀ n, ¬ h.UnitDerives n n) ∧ ∀ n, h.toGreibach ≠ .error (.divergent n .unitLoop)) := by
  refine ⟨fun n ↦ unitDerives_self_iff hresult, fun hnone ↦ ?_⟩
  have hacyclic : ∀ n, ¬ h.UnitDerives n n := by
    intro n hcycle
    obtain ⟨first, second, hpair, -⟩ := (unitDerives_self_iff hresult).1 hcycle
    exact hnone first second hpair
  refine ⟨hacyclic, fun n hrefused ↦ ?_⟩
  rcases toGreibach_eq_error_iff.1 hrefused with hinvalid | ⟨-, hobstacle⟩
  · obtain ⟨_, _, hmalformed⟩ := exists_malformed_of_validate hinvalid
    exact nomatch hmalformed
  · cases hobstacle with
    | unitLoop _ _ hfirst =>
      obtain ⟨_, _, -, hcycle, -⟩ := hfirst
      exact hacyclic n hcycle

/-- A loop at the earlier member of a pair, which goes away with the pair. -/
def loopBefore : Grammar where
  rules := [
    ("A", [[.nonTerminal "A"], [.nonTerminal "B"], [.terminal "a"]]),
    ("B", [[.nonTerminal "A"], [.terminal "b"]])]

def loopBeforeResolved : Grammar where
  rules := [
    ("A", [[.nonTerminal "B"], [.terminal "a"], [.terminal "b"]]),
    ("B", [[.terminal "a"], [.terminal "b"]])]

/-- A loop at the later member of a pair. -/
def loopBehind : Grammar where
  rules := [
    ("A", [[.nonTerminal "B"], [.terminal "a"]]),
    ("B", [[.nonTerminal "B"], [.nonTerminal "A"], [.terminal "b"]])]

def loopBehindLeft : Grammar where
  rules := [
    ("A", [[.nonTerminal "B"], [.terminal "b"], [.terminal "a"]]),
    ("B", [[.nonTerminal "A"], [.terminal "b"], [.terminal "a"]])]

theorem unitCycles_eliminateUnits_loops :
    loopBefore.eliminateUnits = .ok loopBeforeResolved ∧
      (∀ n, ¬ loopBeforeResolved.UnitDerives n n) ∧
      (∀ n, loopBeforeResolved.toGreibach ≠ .error (.divergent n .unitLoop)) ∧
      loopBehind.eliminateUnits = .ok loopBehindLeft ∧ loopBehind.LoopingPair "A" "B" ∧
      loopBehindLeft.UnitDerives "B" "B" := by
  have hbefore : loopBefore.eliminateUnits = .ok loopBeforeResolved := by rfl
  have hbehind : loopBehind.eliminateUnits = .ok loopBehindLeft := by rfl
  have hnone : ∀ first second, ¬ loopBefore.LoopingPair first second := by
    have hdeclared : ∀ first ∈ loopBefore.names, ∀ second ∈ loopBefore.names,
        ¬ loopBefore.LoopingPair first second := by decide
    intro first second hpair
    exact hdeclared first hpair.partners.forth.mem_names second hpair.partners.back.mem_names hpair
  have hpair : loopBehind.LoopingPair "A" "B" := by decide
  obtain ⟨hacyclic, hgreibach⟩ := (unitCycles_eliminateUnits hbefore).2 hnone
  exact ⟨hbefore, hacyclic, hgreibach, hbehind, hpair,
    ((unitCycles_eliminateUnits hbehind).1 "B").2 ⟨"A", "B", hpair, .inr rfl⟩⟩

/-- A cycle of two unit productions that is left where the cycle check has found nothing to refuse,
and for which the outcome is refused afterwards. -/
theorem unit_cycle_of_loopBehind :
    loopBehind.eliminateUnits = .ok loopBehindLeft ∧ loopBehindLeft.UnitDerives "A" "A" ∧
      loopBehindLeft.toGreibach = .error (.divergent "A" .unitLoop) := by
  refine ⟨by rfl, ?_, by rfl⟩
  have hforth : [.nonTerminal "B"] ∈ loopBehindLeft.productionsOf "A" := by decide
  have hback : [.nonTerminal "A"] ∈ loopBehindLeft.productionsOf "B" := by decide
  exact .tail (.single hforth) hback

end ContextFree.Grammar
