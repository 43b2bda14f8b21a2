import ContextFree.Proofs.Greibach.LeftRecursion
import ContextFree.Proofs.Repetitions

/-!
# The steps on the way to Greibach normal form

Both ways, the one forward and the one back, change a grammar by unfoldings of leading non-terminals
and by moves of left recursion into tails.  A property of grammars that these two steps keep holds
of the result if it holds of the source (`toGreibach_induction`).
-/

namespace ContextFree.Grammar

variable {g h : Grammar} {n : Name} {p q : Production}

/-! ## Unfolding at one non-terminal -/

theorem mem_productionsOf_modify {left : Name} {f : List Production → List Production}
    (hleft : left ∈ g.names) : p ∈ (g.modify left f).productionsOf n ↔
      n = left ∧ p ∈ f (g.productionsOf left) ∨ n ≠ left ∧ p ∈ g.productionsOf n := by
  by_cases hn : n = left
  · subst hn
    simp [productionsOf_modify_self hleft]
  · simp [productionsOf_modify_of_ne hn, hn]

/-- Changing productions to what they are is no change. -/
theorem modify_productionsOf (g : Grammar) (left : Name) :
    (g.modify left fun _ ↦ g.productionsOf left) = g :=
  modify_eq_self rfl

theorem mem_expandEarlier_iff {productions : List Production} {earlier : Name} :
    p ∈ g.expandEarlier productions earlier ↔
      p ∈ productions ∧ p.leading? ≠ some earlier ∨
        ∃ rest, .nonTerminal earlier :: rest ∈ productions ∧
          ∃ q ∈ g.productionsOf earlier, p = q ++ rest := by
  rw [expandEarlier, List.mem_eraseDups, List.mem_flatMap]
  constructor
  · intro h
    obtain ⟨source, hsource, hp⟩ := h
    split at hp
    · next hlead =>
      obtain ⟨rest, rfl⟩ := Production.leading?_eq_some_iff.1 hlead
      obtain ⟨q, hq, rfl⟩ := List.mem_map.1 hp
      exact .inr ⟨rest, hsource, q, hq, rfl⟩
    · next hlead =>
      obtain rfl := List.mem_singleton.1 hp
      exact .inl ⟨hsource, hlead⟩
  · intro h
    rcases h with ⟨hp, hlead⟩ | ⟨rest, hrest, q, hq, rfl⟩
    · exact ⟨p, hp, by simp [hlead]⟩
    · refine ⟨_, hrest, ?_⟩
      rw [if_pos (Production.leading?_eq_some_iff.2 ⟨rest, rfl⟩)]
      exact List.mem_map.2 ⟨q, hq, rfl⟩

theorem mem_productionsOf_expandLeading_iff {current : Name} :
    p ∈ (g.expandLeading current).productionsOf current ↔
      p ∈ g.productionsOf current ∧ p.leading? = none ∨
        ∃ lead rest, .nonTerminal lead :: rest ∈ g.productionsOf current ∧
          ∃ q ∈ g.productionsOf lead, p = q ++ rest := by
  by_cases hcurrent : current ∈ g.names
  · rw [expandLeading, productionsOf_modify_self hcurrent, List.mem_eraseDups, List.mem_flatMap]
    constructor
    · intro h
      obtain ⟨source, hsource, hp⟩ := h
      split at hp
      · next lead hlead =>
        obtain ⟨rest, rfl⟩ := Production.leading?_eq_some_iff.1 hlead
        obtain ⟨q, hq, rfl⟩ := List.mem_map.1 hp
        exact .inr ⟨lead, rest, hsource, q, hq, rfl⟩
      · next hlead =>
        obtain rfl := List.mem_singleton.1 hp
        exact .inl ⟨hsource, hlead⟩
    · intro h
      rcases h with ⟨hp, hlead⟩ | ⟨lead, rest, hrest, q, hq, rfl⟩
      · exact ⟨p, hp, by simp [hlead]⟩
      · exact ⟨_, hrest, List.mem_map.2 ⟨q, hq, rfl⟩⟩
  · have hnone : current ∉ (g.expandLeading current).names := by rwa [expandLeading, names_modify]
    simp [productionsOf_eq_nil hcurrent, productionsOf_eq_nil hnone]

theorem productionsOf_expandLeading_of_ne {current : Name} (hne : n ≠ current) :
    (g.expandLeading current).productionsOf n = g.productionsOf n :=
  productionsOf_modify_of_ne hne _

@[simp]
theorem names_expandLeading (current : Name) : (g.expandLeading current).names = g.names :=
  names_modify g current _

theorem unfolds_expandLeading (g : Grammar) (current : Name) :
    Unfolds g (g.expandLeading current) where
  kept n p hp := by
    by_cases hn : n = current
    · subst hn
      cases hlead : p.leading? with
      | none => exact .inl (mem_productionsOf_expandLeading_iff.2 (.inl ⟨hp, hlead⟩))
      | some lead =>
        obtain ⟨rest, rfl⟩ := Production.leading?_eq_some_iff.1 hlead
        refine .inr ⟨lead, rest, rfl, fun q hq ↦ .inl ?_⟩
        exact mem_productionsOf_expandLeading_iff.2 (.inr ⟨lead, rest, hp, q, hq, rfl⟩)
    · left
      rwa [productionsOf_expandLeading_of_ne hn]
  justified n p hp := by
    by_cases hn : n = current
    · subst hn
      rcases mem_productionsOf_expandLeading_iff.1 hp with
        ⟨hold, -⟩ | ⟨lead, rest, hrest, q, hq, rfl⟩
      · exact .inl hold
      · exact .inr ⟨lead, q, rest, hrest, hq, rfl⟩
    · left
      rwa [productionsOf_expandLeading_of_ne hn] at hp

/-- Expanding one earlier non-terminal, the others being as they are in `g`. -/
theorem unfolds_expandEarlier {current earlier : Name} (productions : List Production)
    (hcurrent : current ∈ g.names) (hne : earlier ≠ current) :
    Unfolds (g.modify current fun _ ↦ productions)
      (g.modify current fun _ ↦ g.expandEarlier productions earlier) where
  kept n p hp := by
    rcases (mem_productionsOf_modify hcurrent).1 hp with ⟨rfl, hold⟩ | ⟨hn, hold⟩
    · by_cases hlead : p.leading? = some earlier
      · obtain ⟨rest, rfl⟩ := Production.leading?_eq_some_iff.1 hlead
        refine .inr ⟨earlier, rest, rfl, fun q hq ↦ .inl ?_⟩
        rw [productionsOf_modify_of_ne hne] at hq
        refine (mem_productionsOf_modify hcurrent).2 (.inl ⟨rfl, ?_⟩)
        exact mem_expandEarlier_iff.2 (.inr ⟨rest, hold, q, hq, rfl⟩)
      · refine .inl ((mem_productionsOf_modify hcurrent).2 (.inl ⟨rfl, ?_⟩))
        exact mem_expandEarlier_iff.2 (.inl ⟨hold, hlead⟩)
    · exact .inl ((mem_productionsOf_modify hcurrent).2 (.inr ⟨hn, hold⟩))
  justified n p hp := by
    rcases (mem_productionsOf_modify hcurrent).1 hp with ⟨rfl, hnew⟩ | ⟨hn, hold⟩
    · rcases mem_expandEarlier_iff.1 hnew with ⟨hold, -⟩ | ⟨rest, hrest, q, hq, rfl⟩
      · exact .inl ((mem_productionsOf_modify hcurrent).2 (.inl ⟨rfl, hold⟩))
      · refine .inr ⟨earlier, q, rest, ?_, ?_, rfl⟩
        · exact (mem_productionsOf_modify hcurrent).2 (.inl ⟨rfl, hrest⟩)
        · rwa [productionsOf_modify_of_ne hne]
    · exact .inl ((mem_productionsOf_modify hcurrent).2 (.inr ⟨hn, hold⟩))

/-! ## The way forward -/

/-- The grammar in which the productions of one non-terminal have been expanded by those of the
earlier ones. -/
def expandAll (g : Grammar) (earlier : List Name) (current : Name) : Grammar :=
  g.modify current fun _ ↦ earlier.foldl g.expandEarlier (g.productionsOf current)

@[simp]
theorem names_expandAll (earlier : List Name) (current : Name) :
    (g.expandAll earlier current).names = g.names :=
  names_modify g current _

theorem productionsOf_expandAll_of_ne {earlier : List Name} {current : Name} (hne : n ≠ current) :
    (g.expandAll earlier current).productionsOf n = g.productionsOf n :=
  productionsOf_modify_of_ne hne _

theorem run_cons (state : Forward) (earlier : List Name) (current : Name) (later : List Name) :
    state.run earlier (current :: later) =
      Forward.removeLeftRecursion
        { state with grammar := state.grammar.expandAll earlier current } current >>=
      fun next ↦ next.run (earlier ++ [current]) later := rfl

/-- A property that unfolding keeps is kept by expanding all the earlier non-terminals. -/
theorem expandAll_induction {motive : Grammar → Prop} {earlier : List Name} {current : Name}
    (hunfold : ∀ k k', Unfolds k k' → k'.names = k.names → motive k → motive k')
    (hcurrent : current ∈ g.names) (hnew : current ∉ earlier) (hstart : motive g) :
    motive (g.expandAll earlier current) := by
  have hfold : ∀ productions, motive (g.modify current fun _ ↦ productions) →
      motive (g.modify current fun _ ↦ earlier.foldl g.expandEarlier productions) := by
    induction earlier with
    | nil => exact fun _ h ↦ h
    | cons first earlier ih =>
      intro productions h
      obtain ⟨hne, hrest⟩ : current ≠ first ∧ current ∉ earlier := by simpa using hnew
      have hunfolds := unfolds_expandEarlier productions hcurrent hne.symm
      refine ih hrest _ (hunfold _ _ hunfolds ?_ h)
      rw [names_modify, names_modify]
  apply hfold
  rwa [modify_productionsOf]

/-- A property of the names taken, the names to come and the state holds at the end of the way
forward if it holds at its beginning and each turn keeps it. -/
theorem forward_induction {motive : List Name → List Name → Forward → Prop} {final : Forward}
    (hforward : g.forward = .ok final)
    (hstep : ∀ earlier current later state next, g.names = earlier ++ current :: later →
      Forward.removeLeftRecursion
        { state with grammar := state.grammar.expandAll earlier current } current = .ok next →
      motive earlier (current :: later) state → motive (earlier ++ [current]) later next)
    (hstart : motive [] g.names { grammar := g }) : motive g.names [] final := by
  have hrun : ∀ later earlier state, g.names = earlier ++ later → motive earlier later state →
      state.run earlier later = .ok final → motive g.names [] final := by
    intro later
    induction later with
    | nil =>
      intro earlier state hnames hmotive hresult
      rw [List.append_nil] at hnames
      rw [hnames]
      exact Except.ok.inj hresult ▸ hmotive
    | cons current later ih =>
      intro earlier state hnames hmotive hresult
      rw [run_cons] at hresult
      obtain ⟨next, hnext, hrest⟩ := bind_eq_ok_iff.1 hresult
      refine ih (earlier ++ [current]) next ?_ ?_ hrest
      · rw [hnames, List.append_assoc, List.singleton_append]
      · exact hstep earlier current later state next hnames hnext hmotive
  exact hrun g.names [] _ rfl hstart hforward

/-- A property of grammars that both kinds of steps keep holds after the way forward. -/
theorem grammar_forward_induction {motive : Grammar → Prop} {final : Forward}
    (hforward : g.forward = .ok final)
    (hunfold : ∀ k k', Unfolds k k' → k'.names = k.names → motive k → motive k')
    (hmove : ∀ k k' current tail,
      current ∈ g.names ∧ (∃ number, tail = FreshNames.numbered tailBase number) →
      MovesLeftRecursion k k' current tail → motive k → motive k')
    (hstart : motive g) : motive final.grammar := by
  refine (forward_induction (motive := fun _ _ state ↦
    g.names ⊆ state.grammar.names ∧ motive state.grammar) hforward ?_ ⟨fun _ h ↦ h, hstart⟩).2
  intro earlier current later state next hnames hnext hmotive
  have hcurrent : current ∈ g.names := by simp [hnames]
  have hnew : current ∉ earlier := (notMem_of_names_eq hnames).1
  have hexpanded : motive (state.grammar.expandAll earlier current) :=
    expandAll_induction hunfold (hmotive.1 hcurrent) hnew hmotive.2
  have hsubset : g.names ⊆ (state.grammar.expandAll earlier current).names := by
    rw [names_expandAll]
    exact hmotive.1
  rcases removeLeftRecursion_cases hnext with ⟨rfl, -⟩ | ⟨tail, hmoves, hminted, -⟩
  · exact ⟨hsubset, hexpanded⟩
  · have hmoved : motive next.grammar :=
      hmove _ _ current tail ⟨hcurrent, FreshNames.exists_numbered_of_mint hminted⟩ hmoves hexpanded
    exact ⟨List.Subset.trans hsubset hmoves.names_subset, hmoved⟩

/-! ## Both ways -/

theorem toGreibach_eq_ok_iff :
    g.toGreibach = .ok h ↔ g.Valid ∧ g.greibachObstacle? = none ∧ ∃ state,
      g.forward = .ok state ∧ h = (state.wayBack g.names).foldl expandLeading state.grammar := by
  unfold toGreibach
  rw [validate_bind_eq_ok_iff]
  cases g.greibachObstacle? with
  | none => simp only [bind_eq_ok_iff, pure_eq_ok_iff, true_and]
  | some error => simp

/-- A property that unfolding keeps is kept on the way back. -/
theorem foldl_expandLeading_induction {motive : Grammar → Prop} (order : List Name)
    (hunfold : ∀ k k', Unfolds k k' → k'.names = k.names → motive k → motive k')
    (hstart : motive g) : motive (order.foldl expandLeading g) := by
  induction order generalizing g with
  | nil => exact hstart
  | cons current order ih =>
    exact ih (hunfold _ _ (unfolds_expandLeading g current) (names_expandLeading current) hstart)

theorem names_foldl_expandLeading (order : List Name) :
    (order.foldl expandLeading g).names = g.names :=
  foldl_expandLeading_induction (motive := fun k ↦ k.names = g.names) order
    (fun _ _ _ hsame hk ↦ hsame.trans hk) rfl

/-- The way back takes every non-terminal, the tails too. -/
theorem wayBack_perm {state : Forward}
    (hnames : state.grammar.names = g.names ++ state.tails.map Prod.snd) :
    (state.wayBack g.names).Perm state.grammar.names := by
  rw [hnames]
  exact (List.reverse_perm g.names).append_right _

/-- A property of grammars that both kinds of steps keep holds of the result. -/
theorem toGreibach_induction {motive : Grammar → Prop} (hresult : g.toGreibach = .ok h)
    (hunfold : ∀ k k', Unfolds k k' → k'.names = k.names → motive k → motive k')
    (hmove : ∀ k k' current tail,
      current ∈ g.names ∧ (∃ number, tail = FreshNames.numbered tailBase number) →
      MovesLeftRecursion k k' current tail → motive k → motive k')
    (hstart : motive g) : motive h := by
  obtain ⟨-, -, state, hforward, rfl⟩ := toGreibach_eq_ok_iff.1 hresult
  exact foldl_expandLeading_induction _ hunfold
    (grammar_forward_induction hforward hunfold hmove hstart)

end ContextFree.Grammar
