import ContextFree.Conversion
import ContextFree.Proofs.Json.Grammar
import ContextFree.Proofs.NewSymbols

/-!
# Normal forms that JSON keeps

A normal form of a grammar that was read from text is written as JSON and read back.  It comes back
as it was exactly when no name that was minted on the way is the name of a terminal: a minted name
is new among the declared names, and the terminals are not looked at.
-/

namespace ContextFree.Grammar

variable {g c r : Grammar} {text : String}

/-- A grammar whose symbols come from one that was read from text comes back from JSON exactly when
its new names are apart from its terminals. -/
theorem SymbolsFrom.ofJson_toJson_eq_ok_iff {h : Grammar} (hsymbols : SymbolsFrom g h)
    (hread : ofText text = .ok g) (hvalid : h.Valid) :
    ofJson h.toJson = .ok h ↔ g.NewNamesApart h := by
  have hkinds : g.NamesTellKinds := (namesTellKinds_ofText hread).2
  rw [Grammar.ofJson_toJson_eq_ok_iff, and_iff_right hvalid, hsymbols.namesTellKinds_iff hkinds]

/-- The Chomsky normal form of what a text says comes back from JSON exactly when no minted name is
the name of a terminal, and so does the Greibach normal form. -/
theorem ofJson_normalForms_eq_ok_iff (hread : ofText text = .ok g)
    (hchomsky : g.toChomsky = .ok c) :
    (ofJson (chomskyToJson text) = .ok c ↔ g.NewNamesApart c) ∧
      ∀ r, c.toGreibach = .ok r →
        (ofJson (greibachToJson text) = .ok r ↔ g.NewNamesApart r) := by
  have hc : SymbolsFrom g c := symbolsFrom_toChomsky hchomsky
  constructor
  · have hresult : (ofText text).bind toChomsky = .ok c := by
      rw [hread, Except.bind, hchomsky]
    rw [chomskyToJson, hresult]
    exact hc.ofJson_toJson_eq_ok_iff hread (valid_toChomsky hchomsky)
  · intro r hgreibach
    have hr : SymbolsFrom g r := hc.trans (symbolsFrom_toGreibach hgreibach)
    have hresult : ((ofText text).bind fun g ↦ g.toChomsky.bind toGreibach) = .ok r := by
      rw [hread, Except.bind, hchomsky, Except.bind, hgreibach]
    rw [greibachToJson, hresult]
    exact hr.ofJson_toJson_eq_ok_iff hread (leadInto_nil_toGreibach hgreibach).1.valid

/-- Left recursion behind a terminal that has to be isolated. -/
def repeating : Grammar where
  rules := [("S", [[.nonTerminal "S", .terminal "a"], [.terminal "b"]])]

def repeatingChomsky : Grammar where
  rules := [("S", [[.nonTerminal "S", .nonTerminal "T0"], [.terminal "b"]]),
    ("T0", [[.terminal "a"]])]

def repeatingGreibach : Grammar where
  rules := [("S", [[.terminal "b"], [.terminal "b", .nonTerminal "T1"]]),
    ("T0", [[.terminal "a"]]),
    ("T1", [[.terminal "a"], [.terminal "a", .nonTerminal "T1"]])]

theorem ofJson_normalForms_eq_ok_iff_repeating :
    ofText "S -> S a | b" = .ok repeating ∧ repeating.toChomsky = .ok repeatingChomsky ∧
      repeatingChomsky.toGreibach = .ok repeatingGreibach ∧
      ofJson (chomskyToJson "S -> S a | b") = .ok repeatingChomsky ∧
      ofJson (greibachToJson "S -> S a | b") = .ok repeatingGreibach := by
  have hread : ofText "S -> S a | b" = .ok repeating := by rfl
  have hchomsky : repeating.toChomsky = .ok repeatingChomsky := by rfl
  have hgreibach : repeatingChomsky.toGreibach = .ok repeatingGreibach := by rfl
  have hkept := ofJson_normalForms_eq_ok_iff hread hchomsky
  refine ⟨hread, hchomsky, hgreibach, hkept.1.2 (by decide), ?_⟩
  exact (hkept.2 repeatingGreibach hgreibach).2 (by decide)

/-- A terminal with the name that is minted for it. -/
def colliding : Grammar where
  rules := [("S", [[.terminal "T0", .terminal "a"]])]

def collidingChomsky : Grammar where
  rules := [("S", [[.nonTerminal "T0", .nonTerminal "T1"]]), ("T0", [[.terminal "T0"]]),
    ("T1", [[.terminal "a"]])]

/-- The terminal comes back as the non-terminal that stands for it. -/
def collidingReadBack : Grammar where
  rules := [("S", [[.nonTerminal "T0", .nonTerminal "T1"]]), ("T0", [[.nonTerminal "T0"]]),
    ("T1", [[.terminal "a"]])]

theorem ofJson_normalForm_ne_colliding :
    ofText "S -> T0 a" = .ok colliding ∧ colliding.toChomsky = .ok collidingChomsky ∧
      ofJson (chomskyToJson "S -> T0 a") = .ok collidingReadBack ∧
      ofJson (chomskyToJson "S -> T0 a") ≠ .ok collidingChomsky := by
  have hback : ofJson (chomskyToJson "S -> T0 a") = .ok collidingReadBack := by rfl
  refine ⟨by rfl, by rfl, hback, fun hsame ↦ ?_⟩
  rw [hback] at hsame
  exact absurd (Except.ok.inj hsame) (by decide)

end ContextFree.Grammar
