import ContextFree.Proofs.Greibach.Substitutable

/-!
# The order of the leading non-terminals

On the way forward the productions of a taken non-terminal come to start with terminals or with
non-terminals yet to be taken, and those of a tail with declared non-terminals or with tails created
before it.  So along the way back every non-terminal starts its productions only with those that
come before it, and one expansion of each leaves no leading non-terminal at all.
-/

namespace ContextFree

/-- The leading non-terminals of the productions are among the targets. -/
def LeadInto (targets : List Name) (productions : List Production) : Prop :=
  ∀ p ∈ productions, ∀ lead, p.leading? = some lead → lead ∈ targets

theorem Production.leading?_append {p q : Production} (hp : p ≠ []) :
    (p ++ q).leading? = p.leading? := by
  cases p with
  | nil => exact absurd rfl hp
  | cons s rest => cases s <;> rfl

theorem Production.mem_of_leading? {p : Production} {lead : Name} (hlead : p.leading? = some lead) :
    Symbol.nonTerminal lead ∈ p := by
  obtain ⟨rest, rfl⟩ := Production.leading?_eq_some_iff.1 hlead
  exact List.mem_cons_self

theorem LeadInto.mono {targets larger : List Name} {productions : List Production}
    (hleads : LeadInto targets productions) (hsubset : targets ⊆ larger) :
    LeadInto larger productions :=
  fun p hp lead hlead ↦ hsubset (hleads p hp lead hlead)

namespace Grammar

variable {g h k k' : Grammar} {n : Name} {targets base order : List Name}

/-- Taken in order, each non-terminal starts its productions only with those of the base and those
before it. -/
def Ascends (g : Grammar) : List Name → List Name → Prop
  | _, [] => True
  | base, n :: order => LeadInto base (g.productionsOf n) ∧ g.Ascends (n :: base) order

/-- The order depends on the productions of its non-terminals only. -/
theorem Ascends.congr (hascends : k.Ascends base order)
    (hsame : ∀ n ∈ order, k'.productionsOf n = k.productionsOf n) : k'.Ascends base order := by
  induction order generalizing base with
  | nil => trivial
  | cons n order ih =>
    obtain ⟨hfirst, hrest⟩ := hascends
    refine ⟨?_, ih hrest fun m hm ↦ hsame m (List.mem_cons_of_mem n hm)⟩
    rwa [hsame n List.mem_cons_self]

theorem ascends_append_iff {last : List Name} :
    k.Ascends base (order ++ last) ↔
      k.Ascends base order ∧ k.Ascends (order.reverse ++ base) last := by
  induction order generalizing base with
  | nil => simp [Ascends]
  | cons n order ih =>
    rw [List.cons_append, Ascends, Ascends, ih, and_assoc, List.reverse_cons, List.append_assoc,
      List.singleton_append]

/-! ## Going forward -/

/-- Expanding the earlier non-terminals, whose productions start with later ones each, leaves
productions that start with none of them. -/
theorem leadInto_foldl_expandEarlier {earlier : List Name} {productions : List Production}
    (hvalid : g.Valid) (hascends : g.Ascends base earlier.reverse)
    (hleads : LeadInto (earlier ++ base) productions) :
    LeadInto base (earlier.foldl g.expandEarlier productions) := by
  induction earlier generalizing productions with
  | nil => exact hleads
  | cons first earlier ih =>
    rw [List.reverse_cons, ascends_append_iff, List.reverse_reverse] at hascends
    obtain ⟨hrest, hfirst, -⟩ := hascends
    apply ih hrest
    intro p hp lead hlead
    rcases mem_expandEarlier_iff.1 hp with ⟨hold, hne⟩ | ⟨rest, -, q, hq, rfl⟩
    · have hmember : lead ∈ first :: (earlier ++ base) := hleads p hold lead hlead
      rcases List.mem_cons.1 hmember with rfl | hmember
      · exact absurd hlead hne
      · exact hmember
    · rw [Production.leading?_append (hvalid.wellFormed hq).ne_nil] at hlead
      exact hfirst q hq lead hlead

/-- Once its left recursion is gone, a non-terminal starts no production with itself. -/
theorem MovesLeftRecursion.leadInto_current {current tail : Name}
    (hmoves : MovesLeftRecursion g h current tail) (hvalid : g.Valid)
    (hleads : LeadInto (current :: targets) (g.productionsOf current)) :
    LeadInto targets (h.productionsOf current) := by
  intro p hp lead hlead
  obtain ⟨q, hq, hne, hcases⟩ := (hmoves.mem_current p).1 hp
  have hsame : p.leading? = q.leading? := by
    rcases hcases with rfl | rfl
    · rfl
    · exact Production.leading?_append (hvalid.wellFormed hq).ne_nil
  rw [hsame] at hlead
  rcases List.mem_cons.1 (hleads q hq lead hlead) with rfl | hmember
  · exact absurd hlead hne
  · exact hmember

/-- A new tail starts its productions with what was declared before it. -/
theorem MovesLeftRecursion.leadInto_tail {current tail : Name}
    (hmoves : MovesLeftRecursion g h current tail) (hvalid : g.Valid)
    (hunit : [.nonTerminal current] ∉ g.productionsOf current) :
    LeadInto g.names (h.productionsOf tail) := by
  intro p hp lead hlead
  obtain ⟨rest, hrest, hcases⟩ := (hmoves.mem_tail p).1 hp
  have hne : rest ≠ [] := fun hempty ↦ hunit (hempty ▸ hrest)
  have hsame : p.leading? = Production.leading? rest := by
    rcases hcases with rfl | rfl
    · rfl
    · exact Production.leading?_append hne
  rw [hsame] at hlead
  have hmember : Symbol.nonTerminal lead ∈ rest := Production.mem_of_leading? hlead
  exact hvalid.mentionsDeclared current _ hrest lead (List.mem_cons_of_mem _ hmember)

/-- The state on the way forward, between the non-terminals taken and those to come. -/
structure Forward.Ordered (g : Grammar) (earlier later : List Name) (state : Forward) : Prop where
  onTheWay : OnTheWay g state.grammar
  names : state.grammar.names = g.names ++ state.tails.map Prod.snd
  untouched : ∀ n ∈ later, state.grammar.productionsOf n = g.productionsOf n
  ascends : state.grammar.Ascends later (state.wayBack earlier)

namespace Forward.Ordered

variable {earlier later : List Name} {current : Name} {state next : Forward}

/-- At the beginning nothing is taken. -/
theorem init (hvalid : g.Valid) (hnone : g.greibachObstacle? = none) :
    Forward.Ordered g [] g.names { grammar := g } where
  onTheWay := onTheWay_self hvalid hnone
  names := (List.append_nil g.names).symm
  untouched _ _ := rfl
  ascends := trivial

/-- The non-terminal whose turn it is starts its productions with itself or with later ones, once
the earlier ones are expanded. -/
theorem leadInto_expandAll (hordered : Forward.Ordered g earlier (current :: later) state)
    (hvalid : g.Valid) (hnames : g.names = earlier ++ current :: later) :
    LeadInto (current :: later)
      ((state.grammar.expandAll earlier current).productionsOf current) := by
  have hcurrent : current ∈ state.grammar.names := by
    apply hordered.onTheWay.names_subset
    simp [hnames]
  rw [expandAll, productionsOf_modify_self hcurrent,
    hordered.untouched current List.mem_cons_self]
  apply leadInto_foldl_expandEarlier hordered.onTheWay.substitutable.valid
  · exact (ascends_append_iff.1 hordered.ascends).1
  · intro p hp lead hlead
    rw [← hnames]
    exact hvalid.mentionsDeclared current p hp lead (Production.mem_of_leading? hlead)

/-- The non-terminal whose turn it is is not yet on the way back. -/
theorem notMem_wayBack (hordered : Forward.Ordered g earlier (current :: later) state)
    (hnames : g.names = earlier ++ current :: later) : current ∉ state.wayBack earlier := by
  have hcurrent : current ∈ g.names := by simp [hnames]
  have htails : current ∉ state.tails.map Prod.snd :=
    fun hmember ↦ notMem_of_names_append hordered.names hmember hcurrent
  rw [Forward.wayBack, List.mem_append, List.mem_reverse, not_or]
  exact ⟨(notMem_of_names_eq hnames).1, htails⟩

/-- What is taken and what is to come are all the non-terminals. -/
theorem mem_names_iff (hordered : Forward.Ordered g earlier later state)
    (hnames : g.names = earlier ++ later) :
    n ∈ state.grammar.names ↔ n ∈ state.wayBack earlier ∨ n ∈ later := by
  rw [hordered.names, hnames, Forward.wayBack, List.mem_append, List.mem_append, List.mem_append,
    List.mem_reverse, or_right_comm]

/-- A turn that changes the productions of its non-terminal, and may add tails after the others. -/
theorem step_of_added (added : List (Name × Name))
    (hordered : Forward.Ordered g earlier (current :: later) state)
    (hnames : g.names = earlier ++ current :: later) (hnext : OnTheWay g next.grammar)
    (htails : next.tails = state.tails ++ added)
    (hnextNames : next.grammar.names = state.grammar.names ++ added.map Prod.snd)
    (hother : ∀ n ∈ state.grammar.names, n ≠ current →
      next.grammar.productionsOf n = state.grammar.productionsOf n)
    (hleads : LeadInto later (next.grammar.productionsOf current))
    (hadded : next.grammar.Ascends ((state.wayBack earlier).reverse ++ current :: later)
      (added.map Prod.snd)) :
    Forward.Ordered g (earlier ++ [current]) later next where
  onTheWay := hnext
  names := by
    rw [hnextNames, hordered.names, htails, List.map_append, List.append_assoc]
  untouched n hn := by
    have hlater : n ∈ current :: later := List.mem_cons_of_mem current hn
    have hne : n ≠ current := fun hsame ↦ (notMem_of_names_eq hnames).2 (hsame ▸ hn)
    rw [hother n ((hordered.mem_names_iff hnames).2 (.inr hlater)) hne]
    exact hordered.untouched n hlater
  ascends := by
    have hrest : next.grammar.Ascends (current :: later) (state.wayBack earlier) := by
      apply hordered.ascends.congr
      intro n hn
      apply hother n ((hordered.mem_names_iff hnames).2 (.inl hn))
      exact fun hsame ↦ hordered.notMem_wayBack hnames (hsame ▸ hn)
    have hback : next.wayBack (earlier ++ [current]) =
        current :: (state.wayBack earlier ++ added.map Prod.snd) := by
      simp [Forward.wayBack, htails]
    rw [hback]
    exact ⟨hleads, ascends_append_iff.2 ⟨hrest, hadded⟩⟩

/-- A turn takes one more non-terminal. -/
theorem step (hordered : Forward.Ordered g earlier (current :: later) state) (hvalid : g.Valid)
    (hnone : g.greibachObstacle? = none) (hnames : g.names = earlier ++ current :: later)
    (hstep : Forward.removeLeftRecursion
      { state with grammar := state.grammar.expandAll earlier current } current = .ok next) :
    Forward.Ordered g (earlier ++ [current]) later next := by
  have hcurrent : current ∈ g.names := by simp [hnames]
  have hexpanded : OnTheWay g (state.grammar.expandAll earlier current) :=
    expandAll_induction (fun _ _ hunfolds hsame hk ↦ hk.unfolds hvalid hunfolds hsame)
      (hordered.onTheWay.names_subset hcurrent) (notMem_of_names_eq hnames).1 hordered.onTheWay
  have hleads := hordered.leadInto_expandAll hvalid hnames
  rcases removeLeftRecursion_cases hstep with ⟨rfl, hnotself⟩ | ⟨tail, hmoves, -, htails⟩
  · refine hordered.step_of_added [] hnames hexpanded (List.append_nil _).symm ?_
      (fun n _ hne ↦ productionsOf_expandAll_of_ne hne) ?_ trivial
    · rw [names_expandAll, List.map_nil, List.append_nil]
    · intro p hp lead hlead
      rcases List.mem_cons.1 (hleads p hp lead hlead) with rfl | hmember
      · exact absurd hlead (hnotself p hp)
      · exact hmember
  · have hvalidExpanded := hexpanded.substitutable.valid
    have hnext : OnTheWay g next.grammar := hexpanded.moves hnone hcurrent hmoves
    refine hordered.step_of_added [(current, tail)] hnames hnext htails ?_ (fun n hn hne ↦ ?_)
      (hmoves.leadInto_current hvalidExpanded hleads) ⟨?_, trivial⟩
    · rw [hmoves.names, names_expandAll]
      rfl
    · have htail : n ≠ tail := by
        intro hsame
        apply hmoves.tail_notMem
        rwa [names_expandAll, ← hsame]
      rw [hmoves.other n hne htail, productionsOf_expandAll_of_ne hne]
    · apply (hmoves.leadInto_tail hvalidExpanded (hexpanded.unit_notMem hnone hcurrent)).mono
      intro n hn
      rw [names_expandAll, hordered.mem_names_iff hnames] at hn
      rwa [List.mem_append, List.mem_reverse]

end Forward.Ordered

/-- After the way forward every non-terminal is in order. -/
theorem ordered_of_forward {state : Forward} (hvalid : g.Valid) (hnone : g.greibachObstacle? = none)
    (hforward : g.forward = .ok state) : Forward.Ordered g g.names [] state :=
  forward_induction hforward
    (fun _ _ _ _ _ hnames hstep hordered ↦ hordered.step hvalid hnone hnames hstep)
    (Forward.Ordered.init hvalid hnone)

/-! ## Going backward -/

/-- Expanding a non-terminal whose leading non-terminals have no leading non-terminals left. -/
theorem leadInto_expandLeading {current : Name} (hvalid : k.Valid)
    (hbase : ∀ n ∈ base, LeadInto [] (k.productionsOf n))
    (hleads : LeadInto base (k.productionsOf current)) :
    LeadInto [] ((k.expandLeading current).productionsOf current) := by
  intro p hp lead hlead
  rcases mem_productionsOf_expandLeading_iff.1 hp with
    ⟨-, hnone⟩ | ⟨first, rest, hfirst, q, hq, rfl⟩
  · rw [hnone] at hlead
    exact absurd hlead (Option.some_ne_none lead).symm
  · rw [Production.leading?_append (hvalid.wellFormed hq).ne_nil] at hlead
    have hmember : first ∈ base := hleads _ hfirst first rfl
    exact hbase first hmember q hq lead hlead

/-- Expanding the non-terminals in order leaves no leading non-terminal. -/
theorem leadInto_foldl_expandLeading (hk : k.Substitutable) (hdistinct : order.Nodup)
    (hascends : k.Ascends base order) (hbase : ∀ n ∈ base, LeadInto [] (k.productionsOf n)) :
    ∀ n ∈ order.reverse ++ base, LeadInto [] ((order.foldl expandLeading k).productionsOf n) := by
  induction order generalizing k base with
  | nil => exact hbase
  | cons current order ih =>
    obtain ⟨hleads, hrest⟩ := hascends
    obtain ⟨hnew, hdistinct⟩ := List.nodup_cons.1 hdistinct
    have hnext : (k.expandLeading current).Substitutable :=
      (unfolds_expandLeading k current).substitutable (names_expandLeading current) hk
    rw [List.reverse_cons, List.append_assoc, List.singleton_append]
    apply ih hnext hdistinct
    · refine hrest.congr fun n hn ↦ productionsOf_expandLeading_of_ne ?_
      exact fun hsame ↦ hnew (hsame ▸ hn)
    · intro n hn
      by_cases hsame : n = current
      · rw [hsame]
        exact leadInto_expandLeading hk.valid hbase hleads
      · rw [productionsOf_expandLeading_of_ne hsame]
        exact hbase n ((List.mem_cons.1 hn).resolve_left hsame)

/-- The result starts no production with a non-terminal. -/
theorem leadInto_nil_toGreibach (hresult : g.toGreibach = .ok h) :
    h.Substitutable ∧ ∀ n, LeadInto [] (h.productionsOf n) := by
  obtain ⟨hvalid, hnone, state, hforward, rfl⟩ := toGreibach_eq_ok_iff.1 hresult
  have hordered := ordered_of_forward hvalid hnone hforward
  have hperm : (state.wayBack g.names).Perm state.grammar.names := wayBack_perm hordered.names
  have hdistinct : (state.wayBack g.names).Nodup :=
    hperm.nodup_iff.2 state.grammar.names_nodup
  have hsubstitutable := hordered.onTheWay.substitutable
  have hleads := leadInto_foldl_expandLeading hsubstitutable hdistinct hordered.ascends
    (List.forall_mem_nil _)
  constructor
  · exact foldl_expandLeading_induction (motive := Substitutable) _
      (fun _ _ hunfolds hsame hk ↦ hunfolds.substitutable hsame hk) hsubstitutable
  · intro n
    by_cases hn : n ∈ state.grammar.names
    · apply hleads
      rw [List.append_nil, List.mem_reverse]
      exact hperm.mem_iff.2 hn
    · rw [productionsOf_eq_nil (by rwa [names_foldl_expandLeading])]
      exact List.forall_mem_nil _

end Grammar

end ContextFree
