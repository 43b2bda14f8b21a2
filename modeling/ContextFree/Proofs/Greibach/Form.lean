import ContextFree.Proofs.Chomsky
import ContextFree.Proofs.Greibach.Order

/-!
# The Greibach normal form is reached

The order of the leading non-terminals takes care of the first symbol of a production, and nothing
else is promised about a grammar whose productions hold terminals behind the first symbol.  Where
they hold none there, neither kind of step puts one, and the result is in Greibach normal form.  The
outcome of a change to Chomsky normal form is such a grammar, with its unit productions too.
-/

namespace ContextFree

/-- Behind the first symbol there are non-terminals only. -/
def Production.EndsInNonTerminals (p : Production) : Prop :=
  ∀ s ∈ p.drop 1, ∃ m, s = .nonTerminal m

namespace Production

theorem EndsInNonTerminals.append {p q : Production} (hp : p.EndsInNonTerminals)
    (hq : ∀ s ∈ q, ∃ m, s = .nonTerminal m) : EndsInNonTerminals (p ++ q) := by
  intro s hs
  rw [List.drop_append] at hs
  rcases List.mem_append.1 hs with hs | hs
  · exact hp s hs
  · exact hq s (List.mem_of_mem_drop hs)

/-- Non-terminals throughout. -/
theorem endsInNonTerminals_of_forall {p : Production} (hp : ∀ s ∈ p, ∃ m, s = .nonTerminal m) :
    p.EndsInNonTerminals :=
  fun s hs ↦ hp s (List.mem_of_mem_drop hs)

theorem NearlyChomsky.endsInNonTerminals {declared : List Name} {p : Production}
    (hp : p.NearlyChomsky declared) : p.EndsInNonTerminals := by
  intro s hs
  cases hp with
  | terminal t => cases hs
  | pair hfirst hsecond => exact ⟨_, List.mem_singleton.1 hs⟩
  | unit n => cases hs
  | epsilon => cases hs

theorem isGreibach_terminal {declared : List Name} {isStart : Bool} {t : Name} {rest : Production}
    (hends : EndsInNonTerminals (.terminal t :: rest))
    (hdeclared : ∀ n, Symbol.nonTerminal n ∈ rest → n ∈ declared) :
    isGreibach declared isStart (.terminal t :: rest) = true := by
  rw [isGreibach, List.all_eq_true]
  intro s hs
  obtain ⟨m, rfl⟩ := hends s hs
  have hm : m ∈ declared := hdeclared m hs
  simpa [Symbol.nonTerminal?] using hm

end Production

namespace Grammar

variable {g h : Grammar} {n : Name}

/-- Every production of the grammar has non-terminals only behind its first symbol. -/
def EndsInNonTerminals (g : Grammar) : Prop :=
  ∀ n, ∀ p ∈ g.productionsOf n, p.EndsInNonTerminals

/-! ## Behind the first symbol -/

theorem Unfolds.endsInNonTerminals (hunfolds : Unfolds g h) (hg : g.EndsInNonTerminals) :
    h.EndsInNonTerminals := by
  intro n p hp
  rcases hunfolds.justified n p hp with hold | ⟨lead, q, rest, hlead, hq, rfl⟩
  · exact hg n p hold
  · exact (hg lead q hq).append (hg n _ hlead)

theorem MovesLeftRecursion.endsInNonTerminals {current tail : Name}
    (hmoves : MovesLeftRecursion g h current tail) (hg : g.EndsInNonTerminals) :
    h.EndsInNonTerminals := by
  have htail : ∀ s ∈ [Symbol.nonTerminal tail], ∃ m, s = .nonTerminal m :=
    fun s hs ↦ ⟨tail, List.mem_singleton.1 hs⟩
  intro n p hp
  rcases hmoves.exists_part hp with hold | ⟨source, hsource, part, -, hpart, hcases⟩
  · exact hg n p hold
  · have hpartEnds : Production.EndsInNonTerminals part := by
      rcases hpart with rfl | rfl
      · exact hg current part hsource
      · exact Production.endsInNonTerminals_of_forall (hg current _ hsource)
    rcases hcases with rfl | rfl
    · exact hpartEnds
    · exact hpartEnds.append htail

theorem endsInNonTerminals_toGreibach (hresult : g.toGreibach = .ok h)
    (hg : g.EndsInNonTerminals) : h.EndsInNonTerminals :=
  toGreibach_induction hresult (fun _ _ hunfolds _ hk ↦ hunfolds.endsInNonTerminals hk)
    (fun _ _ _ _ _ hmoves hk ↦ hmoves.endsInNonTerminals hk) hg

theorem endsInNonTerminals_toChomsky {c : Grammar} (hresult : g.toChomsky = .ok c) :
    c.EndsInNonTerminals := by
  obtain ⟨_, _, _, _, _, -, -, hbinary, hisolated⟩ := toChomsky_eq_ok_iff.1 hresult
  exact fun n p hp ↦ (nearlyChomsky_of_isolateTerminals hbinary hisolated hp).endsInNonTerminals

/-! ## The form of the result -/

/-- Without leading non-terminals a well-formed production starts with a terminal, unless it is the
`λ` of the start symbol. -/
theorem Substitutable.terminal_or_epsilon {p : Production} (hh : h.Substitutable)
    (hleads : LeadInto [] (h.productionsOf n)) (hp : p ∈ h.productionsOf n) :
    (∃ t rest, p = .terminal t :: rest) ∨ p = Production.epsilon ∧ h.start? = some n := by
  have hwell := hh.valid.wellFormed hp
  match p with
  | [] => exact absurd rfl hwell.ne_nil
  | .terminal t :: rest => exact .inl ⟨t, rest, rfl⟩
  | .nonTerminal lead :: rest => exact absurd (hleads _ hp lead rfl) List.not_mem_nil
  | .epsilon :: rest =>
    have hsame := hwell.eq_epsilon_of_mem List.mem_cons_self
    rw [hsame] at hp ⊢
    exact .inr ⟨rfl, hh.epsilonAtStart n hp⟩

theorem Substitutable.isGreibach (hh : h.Substitutable)
    (hleads : ∀ n, LeadInto [] (h.productionsOf n)) (hends : h.EndsInNonTerminals) :
    h.isGreibach = true := by
  simp only [Grammar.isGreibach, List.all_eq_true]
  intro rule hrule p hp
  have hmember : p ∈ h.productionsOf rule.1 := mem_productionsOf_iff.2 ⟨rule.2, hrule, hp⟩
  rcases hh.terminal_or_epsilon (hleads rule.1) hmember with ⟨t, rest, rfl⟩ | ⟨rfl, hstart⟩
  · apply Production.isGreibach_terminal (hends rule.1 _ hmember)
    intro n hn
    exact hh.valid.mentionsDeclared rule.1 _ hmember n (List.mem_cons_of_mem _ hn)
  · exact beq_iff_eq.2 hstart

/-- Every production of the result starts with a terminal or is the `λ` of the start symbol.  The
result is in Greibach normal form when the source has only non-terminals behind the first symbols,
and so whenever the source itself comes from a change to Chomsky normal form. -/
theorem isGreibach_toGreibach (hresult : g.toGreibach = .ok h) :
    (∀ rule ∈ h.rules, ∀ p ∈ rule.2,
      (∃ t rest, p = .terminal t :: rest) ∨ p = Production.epsilon ∧ h.start? = some rule.1) ∧
    ((∀ rule ∈ g.rules, ∀ p ∈ rule.2, ∀ s ∈ p.drop 1, ∃ m, s = .nonTerminal m) →
      h.isGreibach = true) ∧
    ∀ source : Grammar, source.toChomsky = .ok g → h.isGreibach = true := by
  obtain ⟨hh, hleads⟩ := leadInto_nil_toGreibach hresult
  have hform : g.EndsInNonTerminals → h.isGreibach = true :=
    fun hends ↦ hh.isGreibach hleads (endsInNonTerminals_toGreibach hresult hends)
  refine ⟨fun rule hrule p hp ↦ ?_, fun hends ↦ hform fun n p hp ↦ ?_, fun source hsource ↦ ?_⟩
  · exact hh.terminal_or_epsilon (hleads rule.1) (mem_productionsOf_iff.2 ⟨rule.2, hrule, hp⟩)
  · obtain ⟨productions, hrule, hmember⟩ := mem_productionsOf_iff.1 hp
    exact hends (n, productions) hrule p hmember
  · exact hform (endsInNonTerminals_toChomsky hsource)

/-- Three non-terminals in a row of unit productions, the last one left-recursive. -/
def chained : Grammar where
  rules := [("S", [[.nonTerminal "A"]]), ("A", [[.nonTerminal "B"]]),
    ("B", [[.nonTerminal "B", .terminal "a"], [.terminal "b"]])]

/-- The unit production of `S` is left. -/
def chainedChomsky : Grammar where
  rules := [("S", [[.nonTerminal "B"]]),
    ("A", [[.nonTerminal "B", .nonTerminal "T0"], [.terminal "b"]]),
    ("B", [[.nonTerminal "B", .nonTerminal "T0"], [.terminal "b"]]), ("T0", [[.terminal "a"]])]

def chainedGreibach : Grammar where
  rules := [
    ("S", [[.terminal "b"], [.terminal "b", .nonTerminal "T1"]]),
    ("A", [[.terminal "b", .nonTerminal "T0"],
      [.terminal "b", .nonTerminal "T1", .nonTerminal "T0"], [.terminal "b"]]),
    ("B", [[.terminal "b"], [.terminal "b", .nonTerminal "T1"]]),
    ("T0", [[.terminal "a"]]),
    ("T1", [[.terminal "a"], [.terminal "a", .nonTerminal "T1"]])]

theorem isGreibach_toGreibach_chained :
    chained.toChomsky = .ok chainedChomsky ∧ chainedChomsky.isChomsky = false ∧
      chainedChomsky.toGreibach = .ok chainedGreibach ∧ chainedGreibach.isGreibach = true :=
  ⟨by rfl, by decide, by rfl,
    (isGreibach_toGreibach (g := chainedChomsky) (by rfl)).2.2 chained (by rfl)⟩

end Grammar

end ContextFree
