import ContextFree.Proofs.Greibach.Substitution

/-!
# The language of the Greibach normal form

Neither kind of step changes the language of a declared non-terminal, so the result generates what
the source does, in Chomsky normal form or not.
-/

namespace ContextFree.Grammar

variable {g h : Grammar} {n : Name} {w : List Name}

theorem Unfolds.mentionsDeclared (hunfolds : Unfolds g h) (hnames : h.names = g.names)
    (hdeclared : g.MentionsDeclared) : h.MentionsDeclared := by
  intro n p hp m hm
  rw [hnames]
  rcases hunfolds.justified n p hp with hold | ⟨lead, q, rest, hlead, hq, rfl⟩
  · exact hdeclared n p hold m hm
  · rcases List.mem_append.1 hm with hm | hm
    · exact hdeclared lead q hq m hm
    · exact hdeclared n _ hlead m (List.mem_cons_of_mem _ hm)

theorem MovesLeftRecursion.mentionsDeclared {current tail : Name}
    (hmoves : MovesLeftRecursion g h current tail) (hdeclared : g.MentionsDeclared) :
    h.MentionsDeclared := by
  have htail : tail ∈ h.names := by
    rw [hmoves.names]
    exact List.mem_append_right _ (List.mem_singleton_self tail)
  intro n p hp m hm
  rcases hmoves.exists_part hp with hold | ⟨source, hsource, part, hpart, -, hcases⟩
  · exact hmoves.names_subset (hdeclared n p hold m hm)
  · have hdeclaredPart : ∀ m, Symbol.nonTerminal m ∈ part → m ∈ h.names :=
      fun m hm ↦ hmoves.names_subset (hdeclared current source hsource m (hpart hm))
    rcases hcases with rfl | rfl
    · exact hdeclaredPart m hm
    · rcases List.mem_append.1 hm with hm | hm
      · exact hdeclaredPart m hm
      · cases List.mem_singleton.1 hm
        exact htail

/-- The Greibach normal form generates what the grammar does, from every declared non-terminal. -/
theorem generates_toGreibach_iff (hresult : g.toGreibach = .ok h) (hn : n ∈ g.names)
    (w : List Name) : h.Generates n w ↔ g.Generates n w := by
  have hvalid := (toGreibach_eq_ok_iff.1 hresult).1
  refine (toGreibach_induction (motive := fun k ↦
    k.MentionsDeclared ∧ n ∈ k.names ∧ (k.Generates n w ↔ g.Generates n w)) hresult
    ?_ ?_ ⟨hvalid.mentionsDeclared, hn, Iff.rfl⟩).2.2
  · intro k k' hunfolds hnames hk
    exact ⟨hunfolds.mentionsDeclared hnames hk.1, hnames ▸ hk.2.1,
      hunfolds.generates_iff.trans hk.2.2⟩
  · intro k k' current tail _ hmoves hk
    exact ⟨hmoves.mentionsDeclared hk.1, hmoves.names_subset hk.2.1,
      (hmoves.generates_iff hk.1 hk.2.1).trans hk.2.2⟩

/-- Left recursion through two non-terminals, and left recursion without a base. -/
def leftRecursive : Grammar where
  rules := [
    ("S", [[.nonTerminal "A", .terminal "b"], [.terminal "b"]]),
    ("A", [[.nonTerminal "S", .terminal "a"]]),
    ("C", [[.nonTerminal "C", .terminal "b"]])]

def leftRecursiveGreibach : Grammar where
  rules := [
    ("S", [[.terminal "b", .terminal "a", .terminal "b"],
      [.terminal "b", .terminal "a", .nonTerminal "T0", .terminal "b"], [.terminal "b"]]),
    ("A", [[.terminal "b", .terminal "a"], [.terminal "b", .terminal "a", .nonTerminal "T0"]]),
    ("C", []),
    ("T0", [[.terminal "b", .terminal "a"], [.terminal "b", .terminal "a", .nonTerminal "T0"]]),
    ("T1", [[.terminal "b"], [.terminal "b", .nonTerminal "T1"]])]

theorem generates_toGreibach_iff_leftRecursive :
    leftRecursive.toGreibach = .ok leftRecursiveGreibach ∧ "S" ∈ leftRecursive.names ∧
      ∀ w, leftRecursiveGreibach.Generates "S" w ↔ leftRecursive.Generates "S" w :=
  ⟨by rfl, by decide, generates_toGreibach_iff (by rfl) (by decide)⟩

end ContextFree.Grammar
