import ContextFree.Proofs.Validity
import ContextFree.UnitFree

/-!
# What removing unit productions does

Replacing the unit productions of one non-terminal is an unfolding, except that a production which
would lead back to the non-terminal itself is left out.  No language changes, whatever the order of
the replacements and whatever unit productions are left.

A list that is copied brings its `λ` along.  So the start symbol may hand its empty production to
another non-terminal; `LeaksEpsilon` is exactly the case in which it does.
-/

namespace ContextFree.Grammar

variable {g h : Grammar} {n : Name} {p q : Production} {w : List Name}

theorem eliminateUnits_eq_ok_iff :
    g.eliminateUnits = .ok h ↔
      g.Valid ∧ g.unitCycle? = none ∧ h = g.names.foldl inlineUnits g := by
  unfold eliminateUnits
  rw [validate_bind_eq_ok_iff]
  cases g.unitCycle? with
  | none => simp only [pure_eq_ok_iff, true_and]
  | some error => simp

/-- A valid grammar is refused for a cycle and for nothing else. -/
theorem eliminateUnits_eq_error_iff {error : GrammarError} : g.eliminateUnits = .error error ↔
    g.validate = .error error ∨ g.Valid ∧ g.unitCycle? = some error := by
  unfold eliminateUnits
  rw [validate_bind_eq_error_iff]
  cases g.unitCycle? with
  | none => simp [pure, Except.pure]
  | some error => simp

/-! ## One non-terminal -/

theorem mem_withoutUnit_iff {left : Name} :
    p ∈ g.withoutUnit left q ↔ q.unitTarget? = none ∧ p = q ∨
      ∃ target, q = [.nonTerminal target] ∧ p ∈ g.productionsOf target ∧
        p ≠ [.nonTerminal left] := by
  unfold withoutUnit
  cases htarget : q.unitTarget? with
  | none =>
    have hunit : ∀ target, q ≠ [.nonTerminal target] := by
      intro target hq
      rw [Production.unitTarget?_eq_some_iff.2 hq] at htarget
      exact Option.some_ne_none _ htarget
    simp [hunit]
  | some target =>
    have hq := Production.unitTarget?_eq_some_iff.1 htarget
    have hback : p.unitTarget? ≠ some left ↔ p ≠ [.nonTerminal left] :=
      not_congr Production.unitTarget?_eq_some_iff
    simp [hq, hback]

@[simp]
theorem names_inlineUnits (left : Name) : (g.inlineUnits left).names = g.names :=
  names_modify g left _

theorem mem_productionsOf_inlineUnits_self {left : Name} :
    p ∈ (g.inlineUnits left).productionsOf left ↔
      ∃ q ∈ g.productionsOf left, p ∈ g.withoutUnit left q := by
  by_cases hleft : left ∈ g.names
  · rw [inlineUnits, productionsOf_modify_self hleft, List.mem_eraseDups, List.mem_flatMap]
  · have hnone : left ∉ (g.inlineUnits left).names := by rwa [names_inlineUnits]
    simp [productionsOf_eq_nil hleft, productionsOf_eq_nil hnone]

theorem productionsOf_inlineUnits_of_ne {left : Name} (hne : n ≠ left) :
    (g.inlineUnits left).productionsOf n = g.productionsOf n :=
  productionsOf_modify_of_ne hne _

/-- A production that is no unit production stays. -/
theorem mem_productionsOf_inlineUnits_of_mem (left : Name) (hp : p ∈ g.productionsOf n)
    (hunit : p.unitTarget? = none) : p ∈ (g.inlineUnits left).productionsOf n := by
  by_cases hn : n = left
  · subst hn
    exact mem_productionsOf_inlineUnits_self.2 ⟨p, hp, mem_withoutUnit_iff.2 (.inl ⟨hunit, rfl⟩)⟩
  · rwa [productionsOf_inlineUnits_of_ne hn]

/-- What a non-terminal gets, it had before, or the target of one of its unit productions had. -/
theorem mem_productionsOf_of_mem_inlineUnits {left : Name}
    (hp : p ∈ (g.inlineUnits left).productionsOf n) :
    p ∈ g.productionsOf n ∨ n = left ∧ ∃ target,
      [.nonTerminal target] ∈ g.productionsOf left ∧ p ∈ g.productionsOf target := by
  by_cases hn : n = left
  · subst hn
    obtain ⟨q, hq, hwithout⟩ := mem_productionsOf_inlineUnits_self.1 hp
    rcases mem_withoutUnit_iff.1 hwithout with ⟨-, rfl⟩ | ⟨target, rfl, hmember, -⟩
    · exact .inl hq
    · exact .inr ⟨rfl, target, hq, hmember⟩
  · exact .inl (productionsOf_inlineUnits_of_ne hn ▸ hp)

theorem unfolds_inlineUnits (g : Grammar) (left : Name) : Unfolds g (g.inlineUnits left) where
  kept n p hp := by
    by_cases hn : n = left
    · subst hn
      cases htarget : p.unitTarget? with
      | none => exact .inl (mem_productionsOf_inlineUnits_of_mem n hp htarget)
      | some target =>
        have hunit := Production.unitTarget?_eq_some_iff.1 htarget
        refine .inr ⟨target, [], hunit, fun q hq ↦ ?_⟩
        rw [List.append_nil]
        by_cases hback : q = [.nonTerminal n]
        · exact .inr hback
        · refine .inl (mem_productionsOf_inlineUnits_self.2 ⟨p, hp, ?_⟩)
          exact mem_withoutUnit_iff.2 (.inr ⟨target, hunit, hq, hback⟩)
    · left
      rwa [productionsOf_inlineUnits_of_ne hn]
  justified n p hp := by
    rcases mem_productionsOf_of_mem_inlineUnits hp with hold | ⟨rfl, target, htarget, hmember⟩
    · exact .inl hold
    · exact .inr ⟨target, p, [], htarget, hmember, (List.append_nil p).symm⟩

/-! ## The whole pass -/

/-- A property of grammars that the replacements keep holds after all of them. -/
theorem foldl_inlineUnits_induction {motive : Grammar → Prop} (names : List Name)
    (hstep : ∀ k left, motive k → motive (k.inlineUnits left)) (hstart : motive g) :
    motive (names.foldl inlineUnits g) := by
  induction names generalizing g with
  | nil => exact hstart
  | cons left names ih => exact ih (hstep g left hstart)

theorem names_foldl_inlineUnits (names : List Name) :
    (names.foldl inlineUnits g).names = g.names :=
  foldl_inlineUnits_induction (motive := fun k ↦ k.names = g.names) names
    (fun _ left hk ↦ (names_inlineUnits left).trans hk) rfl

theorem names_eliminateUnits (hresult : g.eliminateUnits = .ok h) : h.names = g.names := by
  rw [(eliminateUnits_eq_ok_iff.1 hresult).2.2, names_foldl_inlineUnits]

/-- A replacement copies productions only. -/
theorem valid_inlineUnits (left : Name) (hvalid : g.Valid) : (g.inlineUnits left).Valid := by
  refine valid_iff.2 fun n p hp ↦ ?_
  rw [names_inlineUnits]
  rcases mem_productionsOf_of_mem_inlineUnits hp with hold | ⟨-, target, -, hcopied⟩
  · exact hvalid.wellFormed hold
  · exact hvalid.wellFormed hcopied

/-- The result is valid, as the source is. -/
theorem valid_eliminateUnits (hresult : g.eliminateUnits = .ok h) : h.Valid := by
  obtain ⟨hvalid, -, rfl⟩ := eliminateUnits_eq_ok_iff.1 hresult
  exact foldl_inlineUnits_induction (motive := Valid) g.names
    (fun _ left hk ↦ valid_inlineUnits left hk) hvalid

/-- A replacement leaves every language as it is, and so do any number of them in any order. -/
theorem generates_foldl_inlineUnits_iff (names : List Name) :
    (names.foldl inlineUnits g).Generates n w ↔ g.Generates n w :=
  foldl_inlineUnits_induction (motive := fun k ↦ k.Generates n w ↔ g.Generates n w) names
    (fun k left hk ↦ (unfolds_inlineUnits k left).generates_iff.trans hk) Iff.rfl

theorem generates_eliminateUnits_iff (hresult : g.eliminateUnits = .ok h) :
    h.Generates n w ↔ g.Generates n w := by
  rw [(eliminateUnits_eq_ok_iff.1 hresult).2.2]
  exact generates_foldl_inlineUnits_iff g.names

/-- Removing unit productions leaves the language of every non-terminal as it is, and with it what
any right-hand side derives. -/
theorem languages_eliminateUnits (hresult : g.eliminateUnits = .ok h) :
    h.names = g.names ∧ (∀ n ∈ g.names, ∀ w, h.Generates n w ↔ g.Generates n w) ∧
      ∀ p w, h.Derives p w ↔ g.Derives p w := by
  have hsame : h.Generates = g.Generates := by
    funext n w
    exact propext (generates_eliminateUnits_iff hresult)
  refine ⟨names_eliminateUnits hresult, fun n _ w ↦ by rw [hsame], fun p w ↦ ?_⟩
  rw [derives_iff_reads, derives_iff_reads, hsame]

/-- A loop, a pair of unit productions to each other and a way into both, and the production `λ`
behind the start symbol. -/
def entwined : Grammar where
  rules := [
    ("S", [[.nonTerminal "A"], [.terminal "c"]]),
    ("A", [[.nonTerminal "B"], [.nonTerminal "A"], [.terminal "a"], [.epsilon]]),
    ("B", [[.nonTerminal "A"], [.terminal "b", .nonTerminal "S"]])]

/-- The unit productions of `S` are still there in the end. -/
def disentangled : Grammar where
  rules := [
    ("S", [[.nonTerminal "B"], [.nonTerminal "A"], [.terminal "a"], [.epsilon], [.terminal "c"]]),
    ("A", [[.terminal "b", .nonTerminal "S"], [.nonTerminal "B"], [.terminal "a"], [.epsilon]]),
    ("B", [[.terminal "b", .nonTerminal "S"], [.terminal "a"], [.epsilon]])]

theorem languages_eliminateUnits_entwined :
    entwined.eliminateUnits = .ok disentangled ∧ disentangled.names = entwined.names ∧
      (∀ n ∈ entwined.names, ∀ w, disentangled.Generates n w ↔ entwined.Generates n w) ∧
      ∀ p w, disentangled.Derives p w ↔ entwined.Derives p w :=
  ⟨by rfl, languages_eliminateUnits (by rfl)⟩

/-! ## The empty production of the start symbol -/

/-- The start symbol has the production `λ`, and another non-terminal has the unit production to
the start symbol. -/
def LeaksEpsilon (g : Grammar) : Prop :=
  ∃ start other, g.start? = some start ∧ Production.epsilon ∈ g.productionsOf start ∧
    other ≠ start ∧ [.nonTerminal start] ∈ g.productionsOf other

/-- While nothing leaks, one replacement neither spreads `λ` nor begins to leak. -/
theorem epsilonAtStart_inlineUnits (left : Name) (hstart : g.EpsilonAtStart)
    (hleak : ¬ g.LeaksEpsilon) :
    (g.inlineUnits left).EpsilonAtStart ∧ ¬ (g.inlineUnits left).LeaksEpsilon := by
  have hsame : (g.inlineUnits left).start? = g.start? := by
    rw [start?, start?, names_inlineUnits]
  have hkept : (g.inlineUnits left).EpsilonAtStart := by
    intro n hepsilon
    rw [hsame]
    rcases mem_productionsOf_of_mem_inlineUnits hepsilon with hold | ⟨rfl, target, htarget, hcopied⟩
    · exact hstart n hold
    · have htarget' := hstart target hcopied
      by_cases hn : n = target
      · rwa [hn]
      · exact absurd ⟨target, n, htarget', hcopied, hn, htarget⟩ hleak
  refine ⟨hkept, fun ⟨start, other, hfirst, hepsilon, hne, hunit⟩ ↦ hleak ?_⟩
  rw [hsame] at hfirst
  have hepsilon' : Production.epsilon ∈ g.productionsOf start := by
    rcases mem_productionsOf_of_mem_inlineUnits hepsilon with hold | ⟨rfl, target, -, hcopied⟩
    · exact hold
    · have htarget := hstart target hcopied
      rw [hfirst, Option.some.injEq] at htarget
      rwa [htarget]
  rcases mem_productionsOf_of_mem_inlineUnits hunit with hold | ⟨rfl, target, htarget, hcopied⟩
  · exact ⟨start, other, hfirst, hepsilon', hne, hold⟩
  · by_cases htargetStart : target = start
    · exact ⟨start, other, hfirst, hepsilon', hne, htargetStart ▸ htarget⟩
    · exact ⟨start, target, hfirst, hepsilon', htargetStart, hcopied⟩

/-- A leak carries `λ` to the other non-terminal as soon as its turn comes. -/
theorem epsilon_mem_foldl_inlineUnits_of_mem {start : Name} {names : List Name}
    (hn : n ∈ names) (hepsilon : Production.epsilon ∈ g.productionsOf start)
    (hunit : [.nonTerminal start] ∈ g.productionsOf n) :
    Production.epsilon ∈ (names.foldl inlineUnits g).productionsOf n := by
  induction names generalizing g with
  | nil => exact absurd hn List.not_mem_nil
  | cons left names ih =>
    have hkept := mem_productionsOf_inlineUnits_of_mem left hepsilon rfl
    by_cases hturn : n = left
    · subst hturn
      have hcopied : Production.epsilon ∈ (g.inlineUnits n).productionsOf n := by
        refine mem_productionsOf_inlineUnits_self.2 ⟨_, hunit, ?_⟩
        exact mem_withoutUnit_iff.2 (.inr ⟨start, rfl, hepsilon, by simp [Production.epsilon]⟩)
      exact foldl_inlineUnits_induction
        (motive := fun k ↦ Production.epsilon ∈ k.productionsOf n) names
        (fun k left hk ↦ mem_productionsOf_inlineUnits_of_mem left hk rfl) hcopied
    · have hlater : n ∈ names := (List.mem_cons.1 hn).resolve_left hturn
      rw [← productionsOf_inlineUnits_of_ne hturn] at hunit
      exact ih hlater hkept hunit

/-- From a grammar with `λ` at the start symbol only, `λ` stays there unless it leaks. -/
theorem epsilonAtStart_eliminateUnits_iff (hresult : g.eliminateUnits = .ok h)
    (hstart : g.EpsilonAtStart) : h.EpsilonAtStart ↔ ¬ g.LeaksEpsilon := by
  have hh := (eliminateUnits_eq_ok_iff.1 hresult).2.2
  constructor
  · intro hkept ⟨start, other, hfirst, hepsilon, hne, hunit⟩
    have hother : other ∈ g.names := mem_names_of_mem_productionsOf hunit
    have hcopied := epsilon_mem_foldl_inlineUnits_of_mem hother hepsilon hunit
    rw [← hh] at hcopied
    have hsame := hkept other hcopied
    rw [start?, names_eliminateUnits hresult, ← start?, hfirst, Option.some.injEq] at hsame
    exact hne hsame.symm
  · intro hleak
    rw [hh]
    exact (foldl_inlineUnits_induction
      (motive := fun k ↦ k.EpsilonAtStart ∧ ¬ k.LeaksEpsilon) g.names
      (fun k left hk ↦ epsilonAtStart_inlineUnits left hk.1 hk.2) ⟨hstart, hleak⟩).1

end ContextFree.Grammar
