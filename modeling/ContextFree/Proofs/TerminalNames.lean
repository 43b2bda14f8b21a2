import Mathlib.Data.List.Forall2
import ContextFree.Proofs.ChomskyFixedPoint

/-!
# Names for terminals

Isolating terminals gives a name of its own to each terminal that stands beside other symbols.  The
names are new and pairwise distinct, whatever the terminals are called and in whatever order they
come up, so the terminals can be put back in their places and nothing of the grammar is lost.
Afterwards no terminal stands beside other symbols, and there is nothing left to isolate.
-/

namespace ContextFree.Grammar

variable {g h : Grammar} {fresh last : FreshNames}

/-- The productions of a rule keep their places and their lengths, and those of fewer than two
symbols stay as they are. -/
def KeepsPlaces (source rule : Rule) : Prop :=
  rule.1 = source.1 ∧
    List.Forall₂ (fun p q : Production ↦ q.length = p.length ∧ (p.length < 2 → q = p))
      source.2 rule.2

theorem forall₂_keepsPlaces_isolated (g : Grammar) (table : TerminalTable) :
    List.Forall₂ KeepsPlaces g.rules (g.isolated table).rules := by
  rw [isolated, mapProductions, List.forall₂_map_right_iff, List.forall₂_same]
  intro rule _
  refine ⟨rfl, ?_⟩
  rw [List.forall₂_map_right_iff, List.forall₂_same]
  intro p _
  exact ⟨Production.length_isolate table p, fun hshort ↦ if_pos hshort⟩

theorem nodup_mixedTerminals (g : Grammar) : g.mixedTerminals.Nodup :=
  nodup_eraseDups _

/-- Putting the terminals back in their places gives the rules back. -/
theorem map_restore_isolated (hvalid : g.Valid) (fresh : FreshNames) :
    (g.isolated (g.terminalTable fresh)).rules.map (fun rule ↦
      (rule.1, rule.2.map (·.map (g.terminalTable fresh).restore))) = g.rules := by
  rw [isolated, mapProductions, List.map_map]
  refine map_eq_self_iff.2 fun rule hrule ↦ Prod.ext rfl ?_
  rw [Function.comp_apply, List.map_map]
  refine map_eq_self_iff.2 fun p hp ↦ ?_
  exact hvalid.map_restore_isolate (mem_productionsOf_iff.2 ⟨rule.2, hrule, hp⟩) fresh

section Result

variable (hresult : g.isolateTerminals fresh = .ok (h, last))
include hresult

/-- In the outcome every production of two or more symbols is one of declared non-terminals. -/
theorem exists_nonTerminal_of_mem_isolateTerminals {n : Name} {q : Production}
    (hq : q ∈ h.productionsOf n) (hlong : 2 ≤ q.length) {s : Symbol} (hs : s ∈ q) :
    ∃ m ∈ h.names, s = .nonTerminal m := by
  rcases mem_productionsOf_isolateTerminals hresult hq with ⟨p, hp, rfl⟩ | ⟨-, t, -, rfl⟩
  · rw [Production.length_isolate] at hlong
    exact exists_nonTerminal_of_mem_isolate hresult hp hlong hs
  · exact absurd hlong (by simp)

/-- There is nothing left to isolate. -/
theorem isolateTerminals_of_isolateTerminals (again : FreshNames) :
    h.isolateTerminals again = .ok (h, again) := by
  refine isolateTerminals_eq_self (valid_isolateTerminals hresult)
    (fun n q hq hlong t ht ↦ ?_) again
  obtain ⟨m, -, hsame⟩ := exists_nonTerminal_of_mem_isolateTerminals hresult hq hlong ht
  exact Symbol.noConfusion hsame

end Result

/-- A grammar with isolated terminals is the grammar that it was made from, with names for some
terminals.  The rules of `isolated` take the place of its rules, and one rule for each entry of the
table follows them. -/
structure FaithfulIsolation (g h : Grammar) (isolated : List Rule) (table : TerminalTable) :
    Prop where
  rules_eq : h.rules =
    isolated ++ table.map fun (terminal, name) ↦ (name, [[.terminal terminal]])
  exists_nonTerminal : ∀ rule ∈ h.rules, ∀ p ∈ rule.2, 2 ≤ p.length →
    ∀ s ∈ p, ∃ n ∈ h.names, s = .nonTerminal n
  places : List.Forall₂ KeepsPlaces g.rules isolated
  terminals_nodup : (table.map Prod.fst).Nodup
  mem_terminals_iff : ∀ t, t ∈ table.map Prod.fst ↔
    ∃ rule ∈ g.rules, ∃ p ∈ rule.2, 2 ≤ p.length ∧ .terminal t ∈ p
  names_nodup : (table.map Prod.snd).Nodup
  notMem_names : ∀ name ∈ table.map Prod.snd, name ∉ g.names
  restored :
    isolated.map (fun rule ↦ (rule.1, rule.2.map (·.map table.restore))) = g.rules
  generates_iff : ∀ n ∈ g.names, ∀ w, h.Generates n w ↔ g.Generates n w
  isolated_again : ∀ again, h.isolateTerminals again = .ok (h, again)

/-- Isolating terminals never fails on a valid grammar, and whatever names the generator has minted
before, nothing of the grammar is lost and nothing is left to isolate. -/
theorem faithfulIsolation_isolateTerminals (hvalid : g.Valid) (fresh : FreshNames) :
    ∃ h last isolated table, g.isolateTerminals fresh = .ok (h, last) ∧
      FaithfulIsolation g h isolated table := by
  obtain ⟨h, hresult⟩ := exists_isolateTerminals_eq_ok hvalid fresh
  have hmints := g.mints_terminalTable fresh
  have hterminals : (g.terminalTable fresh).map Prod.fst = g.mixedTerminals :=
    TerminalTable.map_fst_ofTerminals fresh g.mixedTerminals
  refine ⟨h, _, (g.isolated (g.terminalTable fresh)).rules, g.terminalTable fresh, hresult, ?_⟩
  exact {
    rules_eq := rules_isolateTerminals hresult
    exists_nonTerminal := fun rule hrule p hp hlong s hs ↦
      exists_nonTerminal_of_mem_isolateTerminals hresult
        (mem_productionsOf_iff.2 ⟨rule.2, hrule, hp⟩) hlong hs
    places := forall₂_keepsPlaces_isolated g _
    terminals_nodup := hterminals ▸ nodup_mixedTerminals g
    mem_terminals_iff := fun t ↦ by
      rw [hterminals, mem_mixedTerminals_iff]
      exact exists_mem_productionsOf_iff
    names_nodup := hmints.nodup
    notMem_names := fun name hname ↦ (hmints.notMem hname).1
    restored := map_restore_isolated hvalid fresh
    generates_iff := fun n hn w ↦ generates_isolateTerminals_iff hresult hn
    isolated_again := isolateTerminals_of_isolateTerminals hresult }

/-- Terminals with the names of non-terminals, declared, minted and still to be minted. -/
def homonymous : Grammar where
  rules := [
    ("S", [[.terminal "T3", .nonTerminal "S", .terminal "S"], [.terminal "T1"], [.epsilon],
      [.terminal "S", .terminal "T3"]]),
    ("T2", [[.nonTerminal "T2", .terminal "T2"], [.nonTerminal "S"], [.terminal "T0"]])]

def homonymousIsolated : Grammar where
  rules := [
    ("S", [[.nonTerminal "T1", .nonTerminal "S", .nonTerminal "T3"], [.terminal "T1"], [.epsilon],
      [.nonTerminal "T3", .nonTerminal "T1"]]),
    ("T2", [[.nonTerminal "T2", .nonTerminal "T4"], [.nonTerminal "S"], [.terminal "T0"]]),
    ("T1", [[.terminal "T3"]]),
    ("T3", [[.terminal "S"]]),
    ("T4", [[.terminal "T2"]])]

/-- The generator has minted a name for another grammar. -/
theorem faithfulIsolation_isolateTerminals_homonymous :
    homonymous.Valid ∧
      homonymous.isolateTerminals ⟨0, ["T0"]⟩ =
        .ok (homonymousIsolated, ⟨5, ["T4", "T3", "T1", "T0"]⟩) ∧
      ∃ isolated table, FaithfulIsolation homonymous homonymousIsolated isolated table := by
  have hvalid : homonymous.Valid := validate_eq_ok_iff.1 (by rfl)
  have hresult : homonymous.isolateTerminals ⟨0, ["T0"]⟩ =
      .ok (homonymousIsolated, ⟨5, ["T4", "T3", "T1", "T0"]⟩) := by rfl
  obtain ⟨h, last, isolated, table, hsame, hfaithful⟩ :=
    faithfulIsolation_isolateTerminals hvalid ⟨0, ["T0"]⟩
  obtain ⟨rfl, -⟩ := Prod.mk.inj (Except.ok.inj (hresult.symm.trans hsame))
  exact ⟨hvalid, hresult, isolated, table, hfaithful⟩

end ContextFree.Grammar
