import ContextFree.Proofs.NullFree

/-!
# The languages before and after removing empty productions

The names to make up for are free to choose.  Making up for them adds no string that an empty
production for each of them would not add, and whatever is derived without the empty productions
that are dropped is still derived.

For the grammar's own nullable names nothing is added at all, but strings may be lost, since a
production gets one variant for each name and not one for each set of occurrences.  No string but
the empty one is lost if every production mentions nullable names in one place at most, and every
non-terminal behind the start symbol that derives the empty string has the production `λ`.  The
start symbol may derive it in any way: it gets the production `λ` if it needs one.
-/

namespace ContextFree

namespace Grammar

variable {g h : Grammar} {names : List Name} {n : Name} {p q : Production} {w : List Name}

/-! ## Bounds for any names -/

/-- The grammar without the productions `λ`, of which only the start symbol keeps its own. -/
def dropEpsilon (g : Grammar) : Grammar :=
  g.mapProductions fun left productions ↦
    if g.isStart left then productions else productions.filter (· ≠ Production.epsilon)

/-- The grammar with the production `λ` for further non-terminals.  A name that is not declared
stays so. -/
def addEpsilon (g : Grammar) (names : List Name) : Grammar :=
  g.mapProductions fun left productions ↦
    if left ∈ names then productions ++ [Production.epsilon] else productions

theorem mem_productionsOf_dropEpsilon : p ∈ g.dropEpsilon.productionsOf n ↔
    p ∈ g.productionsOf n ∧ (p = Production.epsilon → g.isStart n = true) := by
  rw [dropEpsilon, mem_productionsOf_mapProductions]
  constructor
  · intro ⟨_, hp⟩
    split at hp
    · next hstart => exact ⟨hp, fun _ ↦ hstart⟩
    · obtain ⟨hmember, hother⟩ := List.mem_filter.1 hp
      exact ⟨hmember, fun hepsilon ↦ absurd hepsilon (of_decide_eq_true hother)⟩
  · intro ⟨hp, hstart⟩
    refine ⟨mem_names_of_mem_productionsOf hp, ?_⟩
    split
    · exact hp
    · next hother =>
      exact List.mem_filter.2 ⟨hp, decide_eq_true fun hepsilon ↦ hother (hstart hepsilon)⟩

theorem mem_productionsOf_addEpsilon : p ∈ (g.addEpsilon names).productionsOf n ↔
    p ∈ g.productionsOf n ∨ n ∈ g.names ∧ n ∈ names ∧ p = Production.epsilon := by
  have hdeclared : n ∈ g.names ∧ p ∈ g.productionsOf n ↔ p ∈ g.productionsOf n :=
    and_iff_right_of_imp mem_names_of_mem_productionsOf
  rw [addEpsilon, mem_productionsOf_mapProductions]
  split
  · next hn => simp [hn, and_or_left, hdeclared]
  · next hn => simp [hn, hdeclared]

section Result

variable (hresult : g.eliminateNull names = .ok h)
include hresult

/-- What a production reads with a name deleted is read off a production afterwards.  If nothing is
left of the production, that takes the start symbol. -/
theorem exists_reads_of_reads_erase {meaning : Name → List Name → Prop} {m : Name} (hm : m ∈ names)
    (hp : p ∈ g.productionsOf n) (hmember : .nonTerminal m ∈ p)
    (hstart : p.erase (.nonTerminal m) = [] → g.isStart n = true)
    (hreads : Reads meaning (p.erase (.nonTerminal m)) w) :
    ∃ q ∈ h.productionsOf n, Reads meaning q w := by
  have hkept : p = Production.epsilon → g.isStart n = true := by
    intro hepsilon
    rw [hepsilon] at hmember
    exact nomatch List.mem_singleton.1 hmember
  have hvariant : ∀ q, p.nullVariant? (g.isStart n) m = some q → q ∈ h.productionsOf n :=
    fun q hq ↦ (mem_productionsOf_eliminateNull hresult).2
      ⟨p, hp, Production.mem_nullVariants_iff.2 ⟨hkept, .inr ⟨m, hm, hq⟩⟩⟩
  by_cases hempty : p.erase (.nonTerminal m) = []
  · refine ⟨Production.epsilon, hvariant _ (Production.nullVariant?_eq_some_iff.2 ?_), ?_⟩
    · exact ⟨hmember, .inr ⟨hempty, hstart hempty, rfl⟩⟩
    · rw [hempty] at hreads
      exact hreads
  · refine ⟨_, hvariant _ (Production.nullVariant?_eq_some_iff.2 ?_), hreads⟩
    exact ⟨hmember, .inl ⟨hempty, rfl⟩⟩

theorem generates_eliminateNull_of_generates_dropEpsilon
    (hgenerates : g.dropEpsilon.Generates n w) : h.Generates n w := by
  apply hgenerates.transfer
  intro m p hp u hu
  obtain ⟨hmember, hstart⟩ := mem_productionsOf_dropEpsilon.1 hp
  exact ⟨p, mem_productionsOf_eliminateNull_of_mem hresult hmember hstart, hu⟩

/-- Each variant is justified by an empty production of the name that is deleted. -/
theorem generates_addEpsilon_of_generates_eliminateNull (hgenerates : h.Generates n w) :
    (g.addEpsilon names).Generates n w := by
  have hvalid := (eliminateNull_eq_ok_iff.1 hresult).1
  apply hgenerates.transfer
  intro m q hq u hu
  obtain ⟨p, hp, hvariant⟩ := (mem_productionsOf_eliminateNull hresult).1 hq
  refine ⟨p, mem_productionsOf_addEpsilon.2 (.inl hp), ?_⟩
  -- A name that can be deleted is mentioned, and so it is declared.
  refine reads_of_mem_nullVariants (fun name hname hmember ↦ ?_) hvariant hu
  have hdeclared : name ∈ g.names := hvalid.mentionsDeclared m p hp name hmember
  exact generates_nil_of_epsilon_mem
    (mem_productionsOf_addEpsilon.2 (.inr ⟨hdeclared, hname, rfl⟩))

/-- The start symbol has the production `λ` afterwards if it had it before, or a production that
nothing is left of. -/
theorem epsilon_mem_eliminateNull_iff {start : Name} (hstart : g.start? = some start) :
    Production.epsilon ∈ h.productionsOf start ↔ Production.epsilon ∈ g.productionsOf start ∨
      ∃ name ∈ names, [.nonTerminal name] ∈ g.productionsOf start := by
  have hvalid := (eliminateNull_eq_ok_iff.1 hresult).1
  have hisStart : g.isStart start = true := beq_iff_eq.2 hstart
  constructor
  · intro hepsilon
    obtain ⟨p, hp, hvariant⟩ := (mem_productionsOf_eliminateNull hresult).1 hepsilon
    rcases (Production.mem_nullVariants_iff.1 hvariant).2 with rfl | ⟨name, hname, hsome⟩
    · exact .inl hp
    · obtain ⟨hmember, ⟨-, hsame⟩ | ⟨hempty, -, -⟩⟩ := Production.nullVariant?_eq_some_iff.1 hsome
      · have hleft : Symbol.epsilon ∈ p.erase (.nonTerminal name) := by
          rw [← hsame]
          exact List.mem_singleton_self _
        have halone := (hvalid.wellFormed hp).eq_epsilon_of_mem (List.mem_of_mem_erase hleft)
        exact .inl (halone ▸ hp)
      · refine .inr ⟨name, hname, ?_⟩
        have hperm := List.perm_cons_erase hmember
        rw [hempty] at hperm
        rwa [← List.perm_singleton.1 hperm]
  · rintro (hepsilon | ⟨name, hname, hunit⟩)
    · exact mem_productionsOf_eliminateNull_of_mem hresult hepsilon fun _ ↦ hisStart
    · refine (mem_productionsOf_eliminateNull hresult).2 ⟨_, hunit, ?_⟩
      refine Production.mem_nullVariants_iff.2 ⟨fun _ ↦ hisStart, .inr ⟨name, hname, ?_⟩⟩
      exact Production.nullVariant?_eq_some_iff.2
        ⟨List.mem_singleton_self _, .inr ⟨by simp, hisStart, rfl⟩⟩

end Result

/-- What removing empty productions leaves, for any names to make up for: the languages lie between
those without the empty productions that are dropped and those with one for every such name. -/
structure NullBounds (g h : Grammar) (names : List Name) : Prop where
  names_eq : h.names = g.names
  epsilon_notMem : ∀ n ∈ g.names, g.start? ≠ some n → Production.epsilon ∉ h.productionsOf n
  epsilon_mem_iff : ∀ start, g.start? = some start → (Production.epsilon ∈ h.productionsOf start ↔
    Production.epsilon ∈ g.productionsOf start ∨
      ∃ name ∈ names, [.nonTerminal name] ∈ g.productionsOf start)
  lower : ∀ n ∈ g.names, ∀ w, g.dropEpsilon.Generates n w → h.Generates n w
  upper : ∀ n ∈ g.names, ∀ w, h.Generates n w → (g.addEpsilon names).Generates n w
  adds_nothing : names = g.nullable → ∀ n ∈ g.names, ∀ w, h.Generates n w → g.Generates n w

theorem nullBounds_eliminateNull (hvalid : g.Valid) (names : List Name) :
    ∃ h, g.eliminateNull names = .ok h ∧ NullBounds g h names := by
  obtain ⟨h, hresult⟩ := exists_eliminateNull_eq_ok hvalid names
  refine ⟨h, hresult, ⟨names_eliminateNull hresult, fun n _ hother hepsilon ↦ hother ?_,
    fun _ hstart ↦ epsilon_mem_eliminateNull_iff hresult hstart,
    fun _ _ _ ↦ generates_eliminateNull_of_generates_dropEpsilon hresult,
    fun _ _ _ ↦ generates_addEpsilon_of_generates_eliminateNull hresult, fun hown _ _ _ ↦ ?_⟩⟩
  · rw [← start?_eliminateNull hresult]
    exact epsilonAtStart_eliminateNull hresult n hepsilon
  · exact generates_of_generates_eliminateNull_nullable (hown ▸ hresult)

/-- The start symbol has a production of one non-terminal. -/
def headed : Grammar where
  rules := [
    ("S", [[.nonTerminal "A"], [.nonTerminal "A", .nonTerminal "S", .nonTerminal "A"]]),
    ("A", [[.terminal "a"], [.nonTerminal "B"], [.epsilon]]),
    ("B", [[.terminal "b"]])]

def beheaded : Grammar where
  rules := [
    ("S", [[.epsilon], [.nonTerminal "A"], [.nonTerminal "A", .nonTerminal "A"],
      [.nonTerminal "S", .nonTerminal "A"],
      [.nonTerminal "A", .nonTerminal "S", .nonTerminal "A"]]),
    ("A", [[.terminal "a"], [.nonTerminal "B"]]),
    ("B", [[.terminal "b"]])]

/-- The same for the only name with an empty production. -/
def beheadedByOwn : Grammar where
  rules := [
    ("S", [[.epsilon], [.nonTerminal "A"], [.nonTerminal "S", .nonTerminal "A"],
      [.nonTerminal "A", .nonTerminal "S", .nonTerminal "A"]]),
    ("A", [[.terminal "a"], [.nonTerminal "B"]]),
    ("B", [[.terminal "b"]])]

/-- Names that derive no empty string, or are not declared, may be made up for as well; for the
grammar's own names nothing is added to a language. -/
theorem nullBounds_eliminateNull_headed :
    headed.Valid ∧ (headed.eliminateNull ["X", "S", "B", "A"] = .ok beheaded ∧
      NullBounds headed beheaded ["X", "S", "B", "A"]) ∧
      headed.eliminateNull headed.nullable = .ok beheadedByOwn ∧
        NullBounds headed beheadedByOwn headed.nullable ∧
        ∀ n ∈ headed.names, ∀ w, beheadedByOwn.Generates n w → headed.Generates n w := by
  have hvalid : headed.Valid := validate_eq_ok_iff.1 (by rfl)
  have hresult : headed.eliminateNull ["X", "S", "B", "A"] = .ok beheaded := by rfl
  have hown : headed.eliminateNull headed.nullable = .ok beheadedByOwn := by rfl
  obtain ⟨h, hsame, hbounds⟩ := nullBounds_eliminateNull hvalid ["X", "S", "B", "A"]
  obtain rfl : beheaded = h := Except.ok.inj (hresult.symm.trans hsame)
  obtain ⟨k, hsameOwn, hboundsOwn⟩ := nullBounds_eliminateNull hvalid headed.nullable
  obtain rfl : beheadedByOwn = k := Except.ok.inj (hown.symm.trans hsameOwn)
  exact ⟨hvalid, ⟨hresult, hbounds⟩, hown, hboundsOwn, hboundsOwn.adds_nothing rfl⟩

end Grammar

/-! ## Nothing lost but the empty string -/

namespace Production

variable {names : List Name} {m : Name} {s : Symbol} {rest : Production}

/-- Non-terminals of a list stand in one place at most, all of them taken together. -/
def MentionsOnce (names : List Name) (p : Production) : Prop :=
  (p.nonTerminals.filter (· ∈ names)).length ≤ 1

instance {p : Production} : Decidable (p.MentionsOnce names) :=
  inferInstanceAs (Decidable (_ ≤ _))

theorem MentionsOnce.of_cons (honce : MentionsOnce names (s :: rest)) :
    MentionsOnce names rest := by
  have htail : rest.nonTerminals.Sublist (nonTerminals (s :: rest)) :=
    (List.sublist_cons_self s rest).filterMap _
  exact Nat.le_trans (htail.filter _).length_le honce

/-- After one of the names there is no further one. -/
theorem MentionsOnce.notMem_of_cons (honce : MentionsOnce names (.nonTerminal m :: rest))
    (hm : m ∈ names) {k : Name} (hk : k ∈ names) : .nonTerminal k ∉ rest := by
  intro hmember
  have hlater : k ∈ rest.nonTerminals.filter (· ∈ names) :=
    List.mem_filter.2 ⟨mem_nonTerminals.2 hmember, decide_eq_true hk⟩
  have hfirst : nonTerminals (.nonTerminal m :: rest) = m :: rest.nonTerminals := rfl
  have hpositive := List.length_pos_of_mem hlater
  rw [MentionsOnce, hfirst, List.filter_cons_of_pos (by simpa using hm), List.length_cons] at honce
  omega

end Production

namespace Grammar

variable {g h : Grammar} {names : List Name} {n : Name} {p : Production} {w : List Name}

/-- If every string of a non-terminal may be read in another way, but for an empty string of one of
the names, then so may what is read off a production that mentions the names once, with that one
deleted if need be. -/
theorem reads_or_reads_erase {meaning other : Name → List Name → Prop}
    (honce : p.MentionsOnce names)
    (hother : ∀ m, .nonTerminal m ∈ p → ∀ u, meaning m u → other m u ∨ m ∈ names ∧ u = [])
    (hreads : Reads meaning p w) : Reads other p w ∨
      ∃ m ∈ names, .nonTerminal m ∈ p ∧ Reads other (p.erase (.nonTerminal m)) w := by
  induction p generalizing w with
  | nil => exact .inl hreads
  | cons s rest ih =>
    rw [← List.singleton_append, reads_append_iff] at hreads
    obtain ⟨u, v, rfl, hu, hv⟩ := hreads
    have hfirst : Reads other [s] u ∨ ∃ k ∈ names, s = .nonTerminal k ∧ u = [] := by
      cases s with
      | terminal t => exact .inl hu
      | epsilon => exact .inl hu
      | nonTerminal k =>
        rw [reads_singleton_nonTerminal] at hu
        rcases hother k List.mem_cons_self u hu with hread | ⟨hk, hnil⟩
        · exact .inl (reads_singleton_nonTerminal.2 hread)
        · exact .inr ⟨k, hk, rfl, hnil⟩
    have hlater : ∀ m, .nonTerminal m ∈ rest → ∀ u, meaning m u → other m u ∨ m ∈ names ∧ u = [] :=
      fun m hm ↦ hother m (List.mem_cons_of_mem s hm)
    rcases hfirst with hread | ⟨k, hk, rfl, rfl⟩
    · rcases ih honce.of_cons hlater hv with hrest | ⟨m, hm, hmember, hrest⟩
      · exact .inl ((reads_append_iff (p := [s])).2 ⟨u, v, rfl, hread, hrest⟩)
      · -- The name that is deleted stands further on, so it does not stand first as well.
        have hne : s ≠ .nonTerminal m := by
          rintro rfl
          exact honce.notMem_of_cons hm hm hmember
        refine .inr ⟨m, hm, List.mem_cons_of_mem s hmember, ?_⟩
        rw [List.erase_cons_tail (by simpa using hne)]
        exact (reads_append_iff (p := [s])).2 ⟨u, v, rfl, hread, hrest⟩
    · refine .inr ⟨k, hk, List.mem_cons_self, ?_⟩
      rw [List.erase_cons_head, List.nil_append]
      refine hv.mono fun m hmember x hx ↦ ?_
      rcases hlater m hmember x hx with hread | ⟨hm, -⟩
      · exact hread
      · exact absurd hmember (honce.notMem_of_cons hk hm)

/-- One deletion makes up for all the empty strings in a production. -/
structure SingleDeletions (g : Grammar) : Prop where
  once : ∀ rule ∈ g.rules, ∀ p ∈ rule.2, p.MentionsOnce g.nullable
  epsilon_mem : ∀ n ∈ g.names, g.start? ≠ some n → g.Generates n [] →
    Production.epsilon ∈ g.productionsOf n

/-- Whatever is derived, but for the empty string behind the start symbol, is still derived. -/
theorem generates_eliminateNull_of_single (hresult : g.eliminateNull g.nullable = .ok h)
    (hsingle : g.SingleDeletions) (hgenerates : g.Generates n w)
    (hkept : w ≠ [] ∨ g.start? = some n) : h.Generates n w := by
  -- Whether a name can be deleted depends on what it derives before, so that has to be remembered.
  refine (Generates.least (motive := fun m u ↦ g.Generates m u ∧
    (u ≠ [] ∨ g.start? = some m → h.Generates m u)) ?_ hgenerates).2 hkept
  intro m p hp u hu
  refine ⟨generates_iff_reads.2 ⟨p, hp, hu.mono fun _ _ _ hv ↦ hv.1⟩, fun hkept ↦ ?_⟩
  have hstart : u = [] → g.isStart m = true :=
    fun hnil ↦ beq_iff_eq.2 (hkept.resolve_left (not_not_intro hnil))
  obtain ⟨productions, hrule, hmember⟩ := mem_productionsOf_iff.1 hp
  have hcases : ∀ k, .nonTerminal k ∈ p → ∀ v,
      g.Generates k v ∧ (v ≠ [] ∨ g.start? = some k → h.Generates k v) →
        h.Generates k v ∨ k ∈ g.nullable ∧ v = [] := by
    intro k _ v ⟨hbefore, hafter⟩
    by_cases hsure : v ≠ [] ∨ g.start? = some k
    · exact .inl (hafter hsure)
    · rw [not_or, Decidable.not_not] at hsure
      obtain ⟨rfl, hbehind⟩ := hsure
      have hk : k ∈ g.names := by
        obtain ⟨q, hq, -⟩ := hbefore
        exact mem_names_of_mem_productionsOf hq
      exact .inr ⟨mem_nullable_iff.2 (hsingle.epsilon_mem k hk hbehind hbefore), rfl⟩
  rcases reads_or_reads_erase (hsingle.once _ hrule p hmember) hcases hu with
    hread | ⟨k, hk, hmentioned, hread⟩
  · have hmember : p ∈ h.productionsOf m := by
      refine mem_productionsOf_eliminateNull_of_mem hresult hp fun hepsilon ↦ hstart ?_
      rw [hepsilon] at hread
      exact hread
    exact generates_iff_reads.2 ⟨p, hmember, hread⟩
  · refine generates_iff_reads.2 (exists_reads_of_reads_erase hresult hk hp hmentioned ?_ hread)
    intro hempty
    rw [hempty] at hread
    exact hstart hread

/-- Removing empty productions loses no string but the empty one, and that one behind the start
symbol only, if single deletions make up for all of them. -/
theorem generates_eliminateNull_iff_of_single (hvalid : g.Valid) (hsingle : g.SingleDeletions) :
    ∃ h, g.eliminateNull g.nullable = .ok h ∧
      (∀ n ∈ g.names, ∀ w, w ≠ [] → (g.Generates n w ↔ h.Generates n w)) ∧
      ∀ start, g.start? = some start → (g.Generates start [] ↔ h.Generates start []) := by
  obtain ⟨h, hresult⟩ := exists_eliminateNull_eq_ok hvalid g.nullable
  have hback : ∀ n w, h.Generates n w → g.Generates n w :=
    fun _ _ ↦ generates_of_generates_eliminateNull_nullable hresult
  refine ⟨h, hresult, fun n _ w hne ↦ ⟨fun hgenerates ↦ ?_, hback n w⟩,
    fun start hstart ↦ ⟨fun hgenerates ↦ ?_, hback start []⟩⟩
  · exact generates_eliminateNull_of_single hresult hsingle hgenerates (.inl hne)
  · exact generates_eliminateNull_of_single hresult hsingle hgenerates (.inr hstart)

/-- The start symbol is used, and derives the empty string without having the production `λ`. -/
def silent : Grammar where
  rules := [
    ("S", [[.nonTerminal "A"], [.nonTerminal "B", .nonTerminal "S"]]),
    ("A", [[.epsilon], [.terminal "a", .nonTerminal "A", .nonTerminal "S"]]),
    ("B", [[.terminal "b"], [.nonTerminal "S", .nonTerminal "B", .nonTerminal "A"]])]

def unsilenced : Grammar where
  rules := [
    ("S", [[.epsilon], [.nonTerminal "A"], [.nonTerminal "B", .nonTerminal "S"]]),
    ("A", [[.terminal "a", .nonTerminal "S"], [.terminal "a", .nonTerminal "A", .nonTerminal "S"]]),
    ("B", [[.terminal "b"], [.nonTerminal "S", .nonTerminal "B"],
      [.nonTerminal "S", .nonTerminal "B", .nonTerminal "A"]])]

theorem singleDeletions_silent : silent.SingleDeletions := by
  -- Of the non-terminals behind the start symbol only `B` lacks the production `λ`.
  have hnonempty : ∀ n w, silent.Generates n w → n = "B" → w ≠ [] := by
    intro n w
    refine Generates.least (motive := fun n w ↦ n = "B" → w ≠ []) ?_
    rintro m p hp u hu rfl
    have hproductions : silent.productionsOf "B" =
      [[.terminal "b"], [.nonTerminal "S", .nonTerminal "B", .nonTerminal "A"]] := by rfl
    rw [hproductions, List.mem_cons, List.mem_singleton] at hp
    rcases hp with rfl | rfl
    · obtain ⟨v, rfl, -⟩ := hu
      exact List.cons_ne_nil "b" v
    · obtain ⟨x, _, rfl, -, y, z, rfl, hy, -⟩ := hu
      simp [hy rfl]
  refine ⟨by decide, fun n hn hbehind hnil ↦ ?_⟩
  have hcases : n = "S" ∨ n = "A" ∨ n = "B" := by simpa [silent, Grammar.names] using hn
  rcases hcases with rfl | rfl | rfl
  · exact absurd rfl hbehind
  · exact List.mem_cons_self
  · exact absurd rfl (hnonempty "B" [] hnil rfl)

theorem generates_eliminateNull_iff_of_single_silent :
    silent.Valid ∧ silent.SingleDeletions ∧ silent.eliminateNull silent.nullable = .ok unsilenced ∧
      (∀ n ∈ silent.names, ∀ w, w ≠ [] → (silent.Generates n w ↔ unsilenced.Generates n w)) ∧
      ∀ start, silent.start? = some start →
        (silent.Generates start [] ↔ unsilenced.Generates start []) := by
  have hvalid : silent.Valid := validate_eq_ok_iff.1 (by rfl)
  have hresult : silent.eliminateNull silent.nullable = .ok unsilenced := by rfl
  obtain ⟨h, hsame, hlanguages⟩ :=
    generates_eliminateNull_iff_of_single hvalid singleDeletions_silent
  obtain rfl : unsilenced = h := Except.ok.inj (hresult.symm.trans hsame)
  exact ⟨hvalid, singleDeletions_silent, hresult, hlanguages⟩

end Grammar

end ContextFree
