import ContextFree.Grammar.Basic

/-!
# The language of a grammar

A right-hand side derives a string of terminals when its symbols do so from left to right: a
terminal derives itself, the mark of the empty string derives nothing, and a non-terminal derives
what one of its productions derives.  Nothing is demanded of the grammar; an undeclared non-terminal
has no productions and derives no string.

Every derivation is a reading in which each non-terminal stands for the strings it generates, so a
derivation is cut in two where its right-hand side is.  `Derives.sound` says that the derived
strings are the least ones closed under the productions.
-/

namespace ContextFree.Grammar

/-- The right-hand side `p` derives the terminals `w`. -/
inductive Derives (g : Grammar) : Production → List Name → Prop
  | nil : Derives g [] []
  | terminal {t : Name} {rest : Production} {w : List Name} :
    Derives g rest w → Derives g (.terminal t :: rest) (t :: w)
  | epsilon {rest : Production} {w : List Name} :
    Derives g rest w → Derives g (.epsilon :: rest) w
  | nonTerminal {n : Name} {p rest : Production} {u v : List Name} :
    p ∈ g.productionsOf n → Derives g p u → Derives g rest v →
      Derives g (.nonTerminal n :: rest) (u ++ v)

/-- The strings of terminals derived from a non-terminal. -/
def Generates (g : Grammar) (n : Name) (w : List Name) : Prop :=
  ∃ p ∈ g.productionsOf n, g.Derives p w

/-- One or more unit productions lead from the first non-terminal to the second. -/
inductive UnitDerives (g : Grammar) : Name → Name → Prop
  | single {m n : Name} : [.nonTerminal n] ∈ g.productionsOf m → UnitDerives g m n
  | tail {l m n : Name} : UnitDerives g l m → [.nonTerminal n] ∈ g.productionsOf m →
    UnitDerives g l n

/-- A right-hand side read with each non-terminal standing for a set of strings. -/
def Reads (meaning : Name → List Name → Prop) : Production → List Name → Prop
  | [], w => w = []
  | .terminal t :: rest, w => ∃ v, w = t :: v ∧ Reads meaning rest v
  | .epsilon :: rest, w => Reads meaning rest w
  | .nonTerminal n :: rest, w => ∃ u v, w = u ++ v ∧ meaning n u ∧ Reads meaning rest v

variable {g : Grammar}

/-- Derivations read each non-terminal as the strings it generates. -/
theorem derives_iff_reads {p : Production} {w : List Name} :
    g.Derives p w ↔ Reads g.Generates p w := by
  constructor
  · intro h
    induction h with
    | nil => rfl
    | terminal _ ih => exact ⟨_, rfl, ih⟩
    | epsilon _ ih => exact ih
    | nonTerminal hmember hfirst _ _ ih => exact ⟨_, _, rfl, ⟨_, hmember, hfirst⟩, ih⟩
  · induction p generalizing w with
    | nil => rintro rfl; exact .nil
    | cons s rest ih =>
      cases s with
      | terminal t => rintro ⟨v, rfl, h⟩; exact .terminal (ih h)
      | epsilon => exact fun h ↦ .epsilon (ih h)
      | nonTerminal n =>
        rintro ⟨u, v, rfl, ⟨p, hmember, hfirst⟩, h⟩
        exact .nonTerminal hmember hfirst (ih h)

theorem reads_append_iff {meaning : Name → List Name → Prop} {p q : Production}
    {w : List Name} : Reads meaning (p ++ q) w ↔
      ∃ u v, w = u ++ v ∧ Reads meaning p u ∧ Reads meaning q v := by
  induction p generalizing w with
  | nil =>
    constructor
    · exact fun h ↦ ⟨[], w, rfl, rfl, h⟩
    · rintro ⟨_, v, rfl, rfl, h⟩
      exact h
  | cons s rest ih =>
    cases s with
    | terminal t =>
      simp only [List.cons_append, Reads, ih]
      constructor
      · rintro ⟨_, rfl, u, v, rfl, hu, hv⟩
        exact ⟨t :: u, v, rfl, ⟨u, rfl, hu⟩, hv⟩
      · rintro ⟨_, v, rfl, ⟨u, rfl, hu⟩, hv⟩
        exact ⟨u ++ v, rfl, u, v, rfl, hu, hv⟩
    | epsilon => simpa only [List.cons_append, Reads] using ih
    | nonTerminal n =>
      simp only [List.cons_append, Reads, ih]
      constructor
      · rintro ⟨x, _, rfl, hx, u, v, rfl, hu, hv⟩
        exact ⟨x ++ u, v, (List.append_assoc x u v).symm, ⟨x, u, rfl, hx, hu⟩, hv⟩
      · rintro ⟨_, v, rfl, ⟨x, u, rfl, hx, hu⟩, hv⟩
        exact ⟨x, u ++ v, List.append_assoc x u v, hx, u, v, rfl, hu, hv⟩

/-- Whatever is closed under the productions holds all generated strings. -/
theorem Derives.sound {meaning : Name → List Name → Prop}
    (hclosed : ∀ n, ∀ p ∈ g.productionsOf n, ∀ w, Reads meaning p w → meaning n w)
    {p : Production} {w : List Name} (h : g.Derives p w) : Reads meaning p w := by
  induction h with
  | nil => rfl
  | terminal _ ih => exact ⟨_, rfl, ih⟩
  | epsilon _ ih => exact ih
  | nonTerminal hmember _ _ ihp ihrest =>
    exact ⟨_, _, rfl, hclosed _ _ hmember _ ihp, ihrest⟩

end ContextFree.Grammar
