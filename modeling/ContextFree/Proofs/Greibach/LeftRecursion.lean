import ContextFree.Greibach
import ContextFree.Proofs.FreshNames

/-!
# Moving left recursion into a tail

The strings of the tail are those that may follow a string of the left-recursive non-terminal and
give another one.  With that reading in mind no derivation has to be turned around: the tail's
productions only extend strings to the right, and so does a left-recursive production.
-/

namespace ContextFree.Grammar

/-- The immediate left recursion of a non-terminal has been moved into a new non-terminal. -/
structure MovesLeftRecursion (g h : Grammar) (current tail : Name) : Prop where
  names : h.names = g.names ++ [tail]
  recursive : ∃ rest, .nonTerminal current :: rest ∈ g.productionsOf current
  mem_current : ∀ p, p ∈ h.productionsOf current ↔ ∃ q ∈ g.productionsOf current,
    q.leading? ≠ some current ∧ (p = q ∨ p = q ++ [.nonTerminal tail])
  mem_tail : ∀ p, p ∈ h.productionsOf tail ↔ ∃ rest,
    .nonTerminal current :: rest ∈ g.productionsOf current ∧
      (p = rest ∨ p = rest ++ [.nonTerminal tail])
  other : ∀ n, n ≠ current → n ≠ tail → h.productionsOf n = g.productionsOf n

theorem mem_withTail_iff {tail : Symbol} {p q : Production} :
    p ∈ q.withTail tail ↔ p = q ∨ p = q ++ [tail] := by
  simp [Production.withTail]

theorem mem_filter_leading_eq_iff {productions : List Production} {n : Name} {p : Production} :
    p ∈ productions.filter (·.leading? = some n) ↔
      ∃ rest, p = .nonTerminal n :: rest ∧ .nonTerminal n :: rest ∈ productions := by
  rw [List.mem_filter, decide_eq_true_eq, Production.leading?_eq_some_iff]
  constructor
  · intro h
    obtain ⟨hmember, rest, rfl⟩ := h
    exact ⟨rest, rfl, hmember⟩
  · intro h
    obtain ⟨rest, rfl, hmember⟩ := h
    exact ⟨hmember, rest, rfl⟩

/-- Splitting the productions of a non-terminal by their first symbol moves its left recursion. -/
theorem movesLeftRecursion_of_insertFresh {g h : Grammar} {current tail : Name}
    (hrecursive : (g.productionsOf current).filter (·.leading? = some current) ≠ [])
    (hinserted : (g.modify current fun _ ↦
        (((g.productionsOf current).filter (·.leading? ≠ some current)).flatMap
          (Production.withTail (.nonTerminal tail))).eraseDups).insertFresh tail
      ((((g.productionsOf current).filter (·.leading? = some current)).map (·.drop 1)).flatMap
        (Production.withTail (.nonTerminal tail))).eraseDups = .ok h) :
    MovesLeftRecursion g h current tail := by
  obtain ⟨first, hfirst⟩ := List.exists_mem_of_ne_nil _ hrecursive
  obtain ⟨rest, rfl, hrest⟩ := mem_filter_leading_eq_iff.1 hfirst
  have hcurrent : current ∈ g.names := mem_names_of_mem_productionsOf hrest
  rw [insertFresh_eq_ok_iff] at hinserted
  have hnames : h.names = g.names ++ [tail] := by
    rw [names_of_append hinserted, names_modify]
    rfl
  refine ⟨hnames, ⟨rest, hrest⟩, fun p ↦ ?_, fun p ↦ ?_, fun n hn htail ↦ ?_⟩
  · rw [productionsOf_of_append hinserted (by rwa [names_modify]),
      productionsOf_modify_self hcurrent, List.mem_eraseDups, List.mem_flatMap]
    simp only [List.mem_filter, mem_withTail_iff, decide_eq_true_eq, and_assoc]
  · rw [productionsOf_of_mem_added hinserted (List.mem_singleton_self _), List.mem_eraseDups,
      List.mem_flatMap]
    simp only [List.mem_map, mem_filter_leading_eq_iff, mem_withTail_iff]
    constructor
    · intro hp
      obtain ⟨_, ⟨_, ⟨rest, rfl, hmember⟩, rfl⟩, hcases⟩ := hp
      exact ⟨rest, hmember, hcases⟩
    · intro hp
      obtain ⟨rest, hmember, hcases⟩ := hp
      exact ⟨rest, ⟨_, ⟨rest, rfl, hmember⟩, rfl⟩, hcases⟩
  · by_cases hdeclared : n ∈ g.names
    · rw [productionsOf_of_append hinserted (by rwa [names_modify]), productionsOf_modify_of_ne hn]
    · have hnew : n ∉ h.names := by
        rw [hnames, List.mem_append, List.mem_singleton, not_or]
        exact ⟨hdeclared, htail⟩
      rw [productionsOf_eq_nil hdeclared, productionsOf_eq_nil hnew]

/-- What a step does: nothing without left recursion, else it mints a tail for it. -/
theorem removeLeftRecursion_cases {state next : Forward} {current : Name}
    (hstep : state.removeLeftRecursion current = .ok next) :
    next = state ∧ (∀ p ∈ state.grammar.productionsOf current, p.leading? ≠ some current) ∨
      ∃ tail, MovesLeftRecursion state.grammar next.grammar current tail ∧
        state.fresh.mint tailBase state.grammar.names = (tail, next.fresh) ∧
        next.tails = state.tails ++ [(current, tail)] := by
  dsimp only [Forward.removeLeftRecursion] at hstep
  split at hstep
  · next hnone =>
    left
    refine ⟨pure_eq_ok_iff.1 hstep, fun p hp hlead ↦ ?_⟩
    simpa [hlead] using List.filter_eq_nil_iff.1 hnone p hp
  · next hsome =>
    right
    obtain ⟨inserted, hinserted, hnext⟩ := bind_eq_ok_iff.1 hstep
    obtain rfl := pure_eq_ok_iff.1 hnext
    exact ⟨_, movesLeftRecursion_of_insertFresh hsome hinserted, rfl, rfl⟩

/-- The reading in which the tail means the strings that every string of the non-terminal may be
followed by, and the others mean what they generate. -/
def TailFollows (g : Grammar) (current tail m : Name) (w : List Name) : Prop :=
  (m ∈ g.names → g.Generates m w) ∧
    (m = tail → ∀ u, g.Generates current u → g.Generates current (u ++ w))

namespace MovesLeftRecursion

variable {g h : Grammar} {current tail n : Name} {u v w : List Name}
  (hmoves : MovesLeftRecursion g h current tail)
include hmoves

theorem tail_notMem : tail ∉ g.names :=
  notMem_of_names_append hmoves.names (List.mem_singleton_self tail)

theorem names_subset : g.names ⊆ h.names := by
  rw [hmoves.names]
  exact List.subset_append_left _ _

/-- Every production afterwards is an old one, or it is a production of the left-recursive
non-terminal, perhaps without its first symbol, and perhaps with the tail at its end. -/
theorem exists_part {p : Production} (hp : p ∈ h.productionsOf n) :
    p ∈ g.productionsOf n ∨ ∃ source ∈ g.productionsOf current, ∃ part, part ⊆ source ∧
      (part = source ∨ source = .nonTerminal current :: part) ∧
        (p = part ∨ p = part ++ [.nonTerminal tail]) := by
  by_cases hcurrent : n = current
  · subst hcurrent
    obtain ⟨q, hq, -, hcases⟩ := (hmoves.mem_current p).1 hp
    exact .inr ⟨q, hq, q, List.Subset.refl q, .inl rfl, hcases⟩
  · by_cases htail : n = tail
    · subst htail
      obtain ⟨rest, hrest, hcases⟩ := (hmoves.mem_tail p).1 hp
      exact .inr ⟨_, hrest, rest, List.subset_cons_self _ _, .inr rfl, hcases⟩
    · rw [hmoves.other n hcurrent htail] at hp
      exact .inl hp

/-! ## The source within the result -/

/-- A string of the tail may be followed by what a left-recursive production appends. -/
theorem generates_tail_append {rest : Production}
    (hrest : .nonTerminal current :: rest ∈ g.productionsOf current)
    (htail : h.Generates tail u) (hv : Reads h.Generates rest v) :
    h.Generates tail (u ++ v) := by
  have hlast : h.Generates tail v :=
    generates_iff_reads.2 ⟨rest, (hmoves.mem_tail rest).2 ⟨rest, hrest, .inl rfl⟩, hv⟩
  refine (Generates.least (motive := fun m x ↦
    h.Generates m x ∧ (m = tail → h.Generates tail (x ++ v))) ?_ htail).2 rfl
  intro m p hp x hx
  refine ⟨generates_iff_reads.2 ⟨p, hp, hx.mono fun _ _ _ hy ↦ hy.1⟩, fun hm ↦ ?_⟩
  subst hm
  obtain ⟨first, hfirst, hcases⟩ := (hmoves.mem_tail p).1 hp
  have hlong : first ++ [.nonTerminal m] ∈ h.productionsOf m :=
    (hmoves.mem_tail _).2 ⟨first, hfirst, .inr rfl⟩
  rcases hcases with rfl | rfl
  · have hreads : Reads h.Generates p x := hx.mono fun _ _ _ hy ↦ hy.1
    exact generates_append_of_mem hlong hreads hlast
  · obtain ⟨y, z, rfl, hy, hz⟩ := reads_append_iff.1 hx
    have hreads : Reads h.Generates first y := hy.mono fun _ _ _ hy ↦ hy.1
    have hagain : h.Generates m (z ++ v) := (reads_singleton_nonTerminal.1 hz).2 rfl
    rw [List.append_assoc]
    exact generates_append_of_mem hlong hreads hagain

/-- So may a string of the non-terminal itself. -/
theorem generates_current_append {rest : Production}
    (hrest : .nonTerminal current :: rest ∈ g.productionsOf current)
    (hcurrent : h.Generates current u) (hv : Reads h.Generates rest v) :
    h.Generates current (u ++ v) := by
  obtain ⟨p, hp, hu⟩ := generates_iff_reads.1 hcurrent
  obtain ⟨q, hq, hlead, hcases⟩ := (hmoves.mem_current p).1 hp
  have hlong : q ++ [.nonTerminal tail] ∈ h.productionsOf current :=
    (hmoves.mem_current _).2 ⟨q, hq, hlead, .inr rfl⟩
  rcases hcases with rfl | rfl
  · have hlast : h.Generates tail v :=
      generates_iff_reads.2 ⟨rest, (hmoves.mem_tail rest).2 ⟨rest, hrest, .inl rfl⟩, hv⟩
    exact generates_append_of_mem hlong hu hlast
  · obtain ⟨x, y, rfl, hx, hy⟩ := reads_append_iff.1 hu
    have hagain : h.Generates tail (y ++ v) :=
      hmoves.generates_tail_append hrest (reads_singleton_nonTerminal.1 hy) hv
    rw [List.append_assoc]
    exact generates_append_of_mem hlong hx hagain

theorem generates_of_generates_source (hgenerates : g.Generates n w) : h.Generates n w := by
  refine Generates.least (motive := h.Generates) (fun m p hp x hx ↦ ?_) hgenerates
  by_cases hm : m = current
  · subst hm
    by_cases hlead : p.leading? = some m
    · obtain ⟨rest, rfl⟩ := Production.leading?_eq_some_iff.1 hlead
      obtain ⟨y, z, rfl, hy, hz⟩ := hx
      exact hmoves.generates_current_append hp hy hz
    · exact generates_iff_reads.2 ⟨p, (hmoves.mem_current p).2 ⟨p, hp, hlead, .inl rfl⟩, hx⟩
  · have htail : m ≠ tail := by
      intro hsame
      exact hmoves.tail_notMem (hsame ▸ mem_names_of_mem_productionsOf hp)
    rw [← hmoves.other m hm htail] at hp
    exact generates_iff_reads.2 ⟨p, hp, hx⟩

/-! ## The result within the source -/

theorem generates_source_of_generates (hdeclared : g.MentionsDeclared)
    (hn : n ∈ g.names) (hgenerates : h.Generates n w) : g.Generates n w := by
  have hne : ∀ m ∈ g.names, m ≠ tail := fun m hm hsame ↦ hmoves.tail_notMem (hsame ▸ hm)
  refine (Generates.least (motive := g.TailFollows current tail) ?_ hgenerates).1 hn
  intro m p hp x hx
  have hsource : ∀ (q : Production) z, (∀ k, Symbol.nonTerminal k ∈ q → k ∈ g.names) →
      Reads (g.TailFollows current tail) q z → Reads g.Generates q z :=
    fun q z hq hz ↦ hz.mono fun k hk _ hy ↦ hy.1 (hq k hk)
  refine ⟨fun hm ↦ ?_, fun hm y hy ↦ ?_⟩
  · by_cases hcurrent : m = current
    · subst hcurrent
      obtain ⟨q, hq, -, rfl | rfl⟩ := (hmoves.mem_current p).1 hp
      · exact generates_iff_reads.2 ⟨p, hq, hsource p x (hdeclared m p hq) hx⟩
      · obtain ⟨y, z, rfl, hy, hz⟩ := reads_append_iff.1 hx
        have hfirst : g.Generates m y :=
          generates_iff_reads.2 ⟨q, hq, hsource q y (hdeclared m q hq) hy⟩
        exact (reads_singleton_nonTerminal.1 hz).2 rfl y hfirst
    · rw [hmoves.other m hcurrent (hne m hm)] at hp
      exact generates_iff_reads.2 ⟨p, hp, hsource p x (hdeclared m p hp) hx⟩
  · subst hm
    obtain ⟨rest, hrest, hcases⟩ := (hmoves.mem_tail p).1 hp
    have happend : ∀ z, Reads g.Generates rest z → g.Generates current (y ++ z) :=
      fun z hz ↦ generates_iff_reads.2 ⟨_, hrest, y, z, rfl, hy, hz⟩
    have hmentions : ∀ k, Symbol.nonTerminal k ∈ rest → k ∈ g.names :=
      fun k hk ↦ hdeclared current _ hrest k (List.mem_cons_of_mem _ hk)
    rcases hcases with rfl | rfl
    · exact happend x (hsource p x hmentions hx)
    · obtain ⟨a, b, rfl, ha, hb⟩ := reads_append_iff.1 hx
      rw [← List.append_assoc]
      exact (reads_singleton_nonTerminal.1 hb).2 rfl _ (happend a (hsource rest a hmentions ha))

/-- Moving left recursion leaves the language of every declared non-terminal as it is. -/
theorem generates_iff (hdeclared : g.MentionsDeclared) (hn : n ∈ g.names) :
    h.Generates n w ↔ g.Generates n w :=
  ⟨hmoves.generates_source_of_generates hdeclared hn, hmoves.generates_of_generates_source⟩

end MovesLeftRecursion

end ContextFree.Grammar
