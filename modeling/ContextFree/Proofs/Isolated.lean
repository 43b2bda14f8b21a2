import ContextFree.Isolated
import ContextFree.Proofs.FreshNames

/-!
# What isolating terminals does

The table has one new non-terminal for each terminal that occurs beside other symbols, and the rule
of that non-terminal is the terminal alone.  A symbol and its replacement therefore read alike, and
no terminal is left beside other symbols.
-/

namespace ContextFree

namespace TerminalTable

variable {declared : List Name} {table : TerminalTable}

theorem map_fst_ofTerminals (fresh : FreshNames) (terminals : List Name) :
    (ofTerminals declared fresh terminals).1.map Prod.fst = terminals := by
  induction terminals generalizing fresh with
  | nil => rfl
  | cons terminal rest ih => exact congrArg (terminal :: ·) (ih _)

/-- The new non-terminals have minted names. -/
theorem exists_numbered_of_mem_ofTerminals {fresh : FreshNames} {terminals : List Name}
    {entry : Name × Name} (hentry : entry ∈ (ofTerminals declared fresh terminals).1) :
    ∃ number, entry.2 = FreshNames.numbered base number := by
  induction terminals generalizing fresh with
  | nil => exact absurd hentry List.not_mem_nil
  | cons terminal rest ih =>
    rcases List.mem_cons.1 hentry with rfl | hentry
    · exact FreshNames.exists_numbered_of_mint rfl
    · exact ih hentry

/-- A terminal of the table is replaced by a non-terminal whose rule the table gives. -/
theorem exists_replace_eq {terminal : Name} (hterminal : terminal ∈ table.map Prod.fst) :
    ∃ name, table.replace (.terminal terminal) = .nonTerminal name ∧
      (name, [[.terminal terminal]]) ∈ table.rules := by
  cases hlookup : table.lookup terminal with
  | none =>
    obtain ⟨⟨key, name⟩, hentry, rfl⟩ := List.mem_map.1 hterminal
    have habsent := List.lookup_eq_none_iff.1 hlookup (key, name) hentry
    simp at habsent
  | some name =>
    refine ⟨name, by simp [replace, hlookup], ?_⟩
    obtain ⟨before, after, hsplit, -⟩ := List.lookup_eq_some_iff.1 hlookup
    exact List.mem_map.2 ⟨(terminal, name), by simp [hsplit], rfl⟩

theorem replace_eq_or (table : TerminalTable) (s : Symbol) :
    table.replace s = s ∨ ∃ terminal name, s = .terminal terminal ∧
      table.replace s = .nonTerminal name ∧ (name, [[.terminal terminal]]) ∈ table.rules := by
  cases s with
  | nonTerminal name => exact .inl rfl
  | epsilon => exact .inl rfl
  | terminal terminal =>
    by_cases hterminal : terminal ∈ table.map Prod.fst
    · obtain ⟨name, hreplace, hrule⟩ := exists_replace_eq hterminal
      exact .inr ⟨terminal, name, rfl, hreplace, hrule⟩
    · left
      have hlookup : table.lookup terminal = none := Grammar.lookup_eq_none_of_notMem hterminal
      simp [replace, hlookup]

end TerminalTable

@[simp]
theorem Production.length_isolate (table : TerminalTable) (p : Production) :
    (p.isolate table).length = p.length := by
  unfold Production.isolate
  split
  · rfl
  · exact List.length_map _

/-- Isolating terminals brings in non-terminals of the table only. -/
theorem Production.mem_or_of_mem_isolate {table : TerminalTable} {p : Production} {s : Symbol}
    (hs : s ∈ p.isolate table) : s ∈ p ∨ ∃ entry ∈ table, s = .nonTerminal entry.2 := by
  unfold Production.isolate at hs
  split at hs
  · exact .inl hs
  · obtain ⟨symbol, hsymbol, rfl⟩ := List.mem_map.1 hs
    rcases table.replace_eq_or symbol with hsame | ⟨terminal, name, rfl, hreplace, hrule⟩
    · exact .inl (by rwa [hsame])
    · obtain ⟨entry, hentry, hsame⟩ := List.mem_map.1 hrule
      obtain ⟨rfl, -⟩ := Prod.mk.inj hsame
      exact .inr ⟨entry, hentry, hreplace⟩

namespace Grammar

variable {g h : Grammar} {fresh fresh' : FreshNames} {n : Name} {p q : Production}
  {w : List Name}

/-- A production reads what it does with its terminals isolated. -/
theorem alike_isolate (table : TerminalTable) (p : Production) :
    Alike table.rules p (p.isolate table) := by
  intro meaning hsolves w
  unfold Production.isolate
  split
  · rfl
  · refine (reads_map_iff fun s _ u ↦ ?_).symm
    rcases table.replace_eq_or s with hsame | ⟨terminal, name, rfl, hreplace, hrule⟩
    · rw [hsame]
    · rw [hreplace, reads_singleton_nonTerminal, hsolves _ hrule u]
      simp

/-- The non-terminals for the terminals that occur beside other symbols. -/
def terminalTable (g : Grammar) (fresh : FreshNames) : TerminalTable :=
  (TerminalTable.ofTerminals g.names fresh g.mixedTerminals).1

/-- The grammar with its terminals isolated, before the new rules are appended. -/
def isolated (g : Grammar) (table : TerminalTable) : Grammar :=
  g.mapProductions fun _ productions ↦ productions.map (·.isolate table)

theorem isolateTerminals_eq_ok_iff :
    g.isolateTerminals fresh = .ok (h, fresh') ↔ g.Valid ∧
      h.rules = (g.isolated (g.terminalTable fresh)).rules ++ (g.terminalTable fresh).rules ∧
      fresh' = (TerminalTable.ofTerminals g.names fresh g.mixedTerminals).2 := by
  unfold isolateTerminals
  rw [validate_bind_eq_ok_iff]
  apply and_congr_right
  intro _
  simp only [bind_eq_ok_iff, pure_eq_ok_iff, insertAllFresh_eq_ok_iff, Prod.mk.injEq]
  constructor
  · intro hresult
    obtain ⟨k, hk, rfl, rfl⟩ := hresult
    exact ⟨hk, rfl⟩
  · intro hresult
    exact ⟨h, hresult.1, rfl, hresult.2⟩

@[simp]
theorem names_isolated (g : Grammar) (table : TerminalTable) :
    (g.isolated table).names = g.names :=
  names_mapProductions g _

theorem mem_productionsOf_isolated {table : TerminalTable} :
    q ∈ (g.isolated table).productionsOf n ↔ ∃ p ∈ g.productionsOf n, p.isolate table = q := by
  rw [isolated, mem_productionsOf_mapProductions, List.mem_map]
  exact and_iff_right_of_imp fun ⟨p, hp, _⟩ ↦ mem_names_of_mem_productionsOf hp

theorem mem_mixedTerminals_iff {t : Name} : t ∈ g.mixedTerminals ↔
    ∃ n, ∃ p ∈ g.productionsOf n, 1 < p.length ∧ Symbol.terminal t ∈ p := by
  simp only [mixedTerminals, List.mem_eraseDups, List.mem_flatMap, List.mem_filter,
    decide_eq_true_eq, Production.mem_terminals, mem_productionsOf_iff]
  constructor
  · intro ht
    obtain ⟨p, ⟨⟨rule, hrule, hp⟩, hlong⟩, hmember⟩ := ht
    exact ⟨rule.1, p, ⟨rule.2, hrule, hp⟩, hlong, hmember⟩
  · intro ht
    obtain ⟨n, p, ⟨productions, hrule, hp⟩, hlong, hmember⟩ := ht
    exact ⟨p, ⟨⟨_, hrule, hp⟩, hlong⟩, hmember⟩

section Result

variable (hresult : g.isolateTerminals fresh = .ok (h, fresh'))
include hresult

theorem rules_isolateTerminals :
    h.rules = (g.isolated (g.terminalTable fresh)).rules ++ (g.terminalTable fresh).rules :=
  (isolateTerminals_eq_ok_iff.1 hresult).2.1

theorem names_isolateTerminals :
    h.names = g.names ++ (g.terminalTable fresh).map Prod.snd := by
  rw [names_of_append (rules_isolateTerminals hresult), names_isolated]
  simp [TerminalTable.rules, Function.comp_def]

/-- Isolating terminals leaves the language of every declared non-terminal as it is. -/
theorem generates_isolateTerminals_iff (hn : n ∈ g.names) :
    h.Generates n w ↔ g.Generates n w := by
  refine generates_iff_of_replaced (isolateTerminals_eq_ok_iff.1 hresult).1
    (names_isolated g _) (rules_isolateTerminals hresult) ?_ ?_ hn
  · intro m p hp
    exact ⟨_, mem_productionsOf_isolated.2 ⟨p, hp, rfl⟩, alike_isolate _ p⟩
  · intro m q hq
    obtain ⟨p, hp, rfl⟩ := mem_productionsOf_isolated.1 hq
    exact ⟨p, hp, alike_isolate _ p⟩

/-- A production afterwards is a production with its terminals isolated, or the terminal that a new
non-terminal stands for. -/
theorem mem_productionsOf_isolateTerminals (hq : q ∈ h.productionsOf n) :
    (∃ p ∈ g.productionsOf n, p.isolate (g.terminalTable fresh) = q) ∨
      n ∉ g.names ∧ ∃ terminal ∈ g.mixedTerminals, q = [.terminal terminal] := by
  have hrules := rules_isolateTerminals hresult
  rcases (mem_productionsOf_of_append hrules).1 hq with hold | ⟨productions, hrule, hmember⟩
  · exact .inl (mem_productionsOf_isolated.1 hold)
  · right
    have hnew := notMem_names_of_mem_added hrules hrule
    rw [names_isolated] at hnew
    refine ⟨hnew, ?_⟩
    obtain ⟨⟨terminal, name⟩, hentry, hsame⟩ := List.mem_map.1 hrule
    obtain ⟨rfl, rfl⟩ := Prod.mk.inj hsame
    have hterminal : terminal ∈ (g.terminalTable fresh).map Prod.fst := List.mem_map_of_mem hentry
    rw [terminalTable, TerminalTable.map_fst_ofTerminals] at hterminal
    exact ⟨terminal, hterminal, List.mem_singleton.1 hmember⟩

/-! ## The form afterwards -/

/-- In a production of two or more symbols every symbol becomes a declared non-terminal. -/
theorem exists_nonTerminal_of_mem_isolate (hp : p ∈ g.productionsOf n) (hlong : 1 < p.length)
    {s : Symbol} (hs : s ∈ p.isolate (g.terminalTable fresh)) :
    ∃ m ∈ h.names, s = .nonTerminal m := by
  have hvalid := (isolateTerminals_eq_ok_iff.1 hresult).1
  have hnames := names_of_append (rules_isolateTerminals hresult)
  rw [names_isolated] at hnames
  rw [Production.isolate, if_neg (Nat.not_lt.2 hlong)] at hs
  obtain ⟨symbol, hsymbol, rfl⟩ := List.mem_map.1 hs
  cases symbol with
  | nonTerminal m =>
    have hm : m ∈ g.names := hvalid.mentionsDeclared n p hp m hsymbol
    exact ⟨m, hnames ▸ List.mem_append_left _ hm, rfl⟩
  | epsilon =>
    have halone := (hvalid.wellFormed hp).eq_epsilon_of_mem hsymbol
    rw [halone] at hlong
    exact absurd hlong (Nat.lt_irrefl 1)
  | terminal t =>
    have hkey : t ∈ (g.terminalTable fresh).map Prod.fst := by
      rw [terminalTable, TerminalTable.map_fst_ofTerminals]
      exact mem_mixedTerminals_iff.2 ⟨n, p, hp, hlong, hsymbol⟩
    obtain ⟨name, hreplace, hrule⟩ := TerminalTable.exists_replace_eq hkey
    have hname : name ∈ (g.terminalTable fresh).rules.map Prod.fst :=
      List.mem_map.2 ⟨_, hrule, rfl⟩
    exact ⟨name, hnames ▸ List.mem_append_right _ hname, hreplace⟩

/-- The result is valid, as the source is. -/
theorem valid_isolateTerminals : h.Valid := by
  have hvalid := (isolateTerminals_eq_ok_iff.1 hresult).1
  have hsubset : g.names ⊆ h.names := by
    rw [names_isolateTerminals hresult]
    exact List.subset_append_left _ _
  refine valid_iff.2 fun n q hq ↦ ?_
  rcases mem_productionsOf_isolateTerminals hresult hq with ⟨p, hp, rfl⟩ | ⟨-, t, -, rfl⟩
  · have hwell := hvalid.wellFormed hp
    by_cases hlong : 1 < p.length
    · have hsymbols : ∀ s ∈ p.isolate (g.terminalTable fresh), ∃ m ∈ h.names, s = .nonTerminal m :=
        fun s hs ↦ exists_nonTerminal_of_mem_isolate hresult hp hlong hs
      refine ⟨?_, fun hepsilon ↦ ?_, fun m hm ↦ ?_⟩
      · apply List.ne_nil_of_length_pos
        rw [Production.length_isolate]
        omega
      · obtain ⟨m, -, hsame⟩ := hsymbols _ hepsilon
        exact Symbol.noConfusion hsame
      · obtain ⟨k, hk, hsame⟩ := hsymbols _ hm
        rwa [Symbol.nonTerminal.inj hsame]
    · rw [Production.isolate, if_pos (by omega)]
      exact ⟨hwell.ne_nil, hwell.eq_epsilon_of_mem, fun m hm ↦ hsubset (hwell.declared_of_mem m hm)⟩
  · exact ⟨List.cons_ne_nil _ _, by simp, by simp⟩

/-- Isolating terminals leaves a symbol alone that stands alone.  A terminal may come to stand alone
under a new name. -/
theorem singleton_mem_isolateTerminals_iff {s : Symbol} (hs : s.terminal? = none) :
    [s] ∈ h.productionsOf n ↔ [s] ∈ g.productionsOf n := by
  constructor
  · intro hmember
    rcases mem_productionsOf_isolateTerminals hresult hmember with ⟨p, hp, hsame⟩ | ⟨-, t, -, hsame⟩
    · have hlength : p.length = 1 := by
        have hlengths := congrArg List.length hsame
        rwa [Production.length_isolate, List.length_singleton] at hlengths
      rw [Production.isolate, if_pos (by omega)] at hsame
      rwa [← hsame]
    · obtain rfl := List.singleton_inj.1 hsame
      exact absurd hs (by simp [Symbol.terminal?])
  · intro hmember
    have hisolated := mem_productionsOf_isolated.2
      ⟨_, hmember, (rfl : Production.isolate (g.terminalTable fresh) [s] = _)⟩
    exact (mem_productionsOf_of_append (rules_isolateTerminals hresult)).2 (.inl hisolated)

/-- Isolating terminals keeps the non-terminals with the production `λ`. -/
theorem epsilon_mem_isolateTerminals_iff :
    Production.epsilon ∈ h.productionsOf n ↔ Production.epsilon ∈ g.productionsOf n :=
  singleton_mem_isolateTerminals_iff hresult rfl

end Result

end Grammar

end ContextFree
