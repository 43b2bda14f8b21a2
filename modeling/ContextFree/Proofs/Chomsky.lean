import ContextFree.Chomsky
import ContextFree.Proofs.Binary
import ContextFree.Proofs.Isolated
import ContextFree.Proofs.NullFree
import ContextFree.Proofs.UnitFree

/-!
# What bringing a grammar towards Chomsky normal form does

Of the four passes only the first can change a language, and it adds no string.  The last two give
every production the length and the symbols that the normal form asks for, so that nothing but a
unit production or a misplaced `λ` can stand in the way of it.  A `λ` is misplaced exactly when the
start symbol hands its own to another non-terminal while unit productions are removed.
-/

namespace ContextFree

namespace Production

/-- The right-hand sides that the last two passes leave. -/
inductive NearlyChomsky (declared : List Name) : Production → Prop
  | terminal (t : Name) : NearlyChomsky declared [.terminal t]
  | pair {first second : Name} : first ∈ declared → second ∈ declared →
    NearlyChomsky declared [.nonTerminal first, .nonTerminal second]
  | unit (n : Name) : NearlyChomsky declared [.nonTerminal n]
  | epsilon : NearlyChomsky declared Production.epsilon

/-- Two symbols that are declared non-terminals. -/
theorem nearlyChomsky_of_length_eq_two {declared : List Name} {p : Production}
    (hlength : p.length = 2) (hsymbols : ∀ s ∈ p, ∃ m ∈ declared, s = .nonTerminal m) :
    p.NearlyChomsky declared := by
  match p, hlength with
  | [first, second], _ =>
    obtain ⟨m, hm, rfl⟩ := hsymbols first (by simp)
    obtain ⟨k, hk, rfl⟩ := hsymbols second (by simp)
    exact .pair hm hk

theorem nearlyChomsky_of_length_eq_one {declared : List Name} {p : Production}
    (hlength : p.length = 1) : p.NearlyChomsky declared := by
  obtain ⟨s, rfl⟩ := List.length_eq_one_iff.1 hlength
  cases s with
  | terminal t => exact .terminal t
  | nonTerminal n => exact .unit n
  | epsilon => exact .epsilon

theorem NearlyChomsky.isChomsky_iff {declared : List Name} {isStart : Bool} {p : Production}
    (hp : p.NearlyChomsky declared) : p.isChomsky declared isStart = true ↔
      (∀ n, p ≠ [.nonTerminal n]) ∧ (p = Production.epsilon → isStart = true) := by
  cases hp with
  | terminal t => simp [isChomsky, Production.epsilon]
  | pair hfirst hsecond => simp [isChomsky, Production.epsilon, hfirst, hsecond]
  | unit n => simp [isChomsky]
  | epsilon => simp [isChomsky, Production.epsilon]

end Production

namespace Grammar

variable {g c : Grammar} {n : Name} {w : List Name}

/-- The four passes, with what each hands to the next. -/
theorem toChomsky_eq_ok_iff :
    g.toChomsky = .ok c ↔ ∃ nullFree unitFree binary fresh fresh',
      g.eliminateNull g.nullable = .ok nullFree ∧ nullFree.eliminateUnits = .ok unitFree ∧
      unitFree.binarize {} = .ok (binary, fresh) ∧
      binary.isolateTerminals fresh = .ok (c, fresh') := by
  unfold toChomsky
  simp only [bind_eq_ok_iff, pure_eq_ok_iff, Prod.exists]
  constructor
  · intro hresult
    obtain ⟨nullFree, hnull, unitFree, hunit, binary, fresh, hbinary, _, fresh', hisolated, rfl⟩ :=
      hresult
    exact ⟨nullFree, unitFree, binary, fresh, fresh', hnull, hunit, hbinary, hisolated⟩
  · intro hresult
    obtain ⟨nullFree, unitFree, binary, fresh, fresh', hnull, hunit, hbinary, hisolated⟩ := hresult
    exact ⟨nullFree, hnull, unitFree, hunit, binary, fresh, hbinary, c, fresh', hisolated, rfl⟩

/-- The result is valid, as every grammar is that its terminals have been isolated in. -/
theorem valid_toChomsky (hresult : g.toChomsky = .ok c) : c.Valid := by
  obtain ⟨_, _, _, _, _, -, -, -, hisolated⟩ := toChomsky_eq_ok_iff.1 hresult
  exact valid_isolateTerminals hisolated

/-! ## Languages -/

/-- Removing unit productions, splitting and isolating change no language, and removing empty
productions adds nothing to one; without empty productions it changes none either. -/
theorem generates_toChomsky (hresult : g.toChomsky = .ok c) :
    ∃ nullFree, g.eliminateNull g.nullable = .ok nullFree ∧ ∀ n ∈ g.names, ∀ w,
      (c.Generates n w ↔ nullFree.Generates n w) ∧ (c.Generates n w → g.Generates n w) ∧
      ((∀ rule ∈ g.rules, Production.epsilon ∉ rule.2) →
        (c.Generates n w ↔ g.Generates n w)) := by
  obtain ⟨nullFree, unitFree, binary, fresh, fresh', hnull, hunit, hbinary, hisolated⟩ :=
    toChomsky_eq_ok_iff.1 hresult
  refine ⟨nullFree, hnull, fun n hn w ↦ ?_⟩
  have hunitFree : n ∈ unitFree.names := by
    rwa [names_eliminateUnits hunit, names_eliminateNull hnull]
  have hbinaryFree : n ∈ binary.names := by
    rw [names_binarize hbinary]
    exact List.mem_append_left _ hunitFree
  have hpasses : c.Generates n w ↔ nullFree.Generates n w := by
    calc c.Generates n w
        ↔ binary.Generates n w := generates_isolateTerminals_iff hisolated hbinaryFree
      _ ↔ unitFree.Generates n w := generates_binarize_iff hbinary hunitFree
      _ ↔ nullFree.Generates n w := generates_eliminateUnits_iff hunit
  refine ⟨hpasses, fun hgenerates ↦ ?_, fun hnone ↦ hpasses.trans ?_⟩
  · refine generates_of_generates_eliminateNull hnull (fun name hname ↦ ?_) (hpasses.1 hgenerates)
    exact generates_nil_of_epsilon_mem (mem_nullable_iff.1 hname)
  · apply generates_eliminateNull_iff_of_epsilon_notMem hnull
    intro m hepsilon
    obtain ⟨productions, hrule, hmember⟩ := mem_productionsOf_iff.1 hepsilon
    exact hnone _ hrule hmember

/-- Long, mixed, empty and unit productions together. -/
def mixed : Grammar where
  rules := [
    ("S", [[.nonTerminal "A", .terminal "b", .nonTerminal "A"], [.nonTerminal "A"], [.epsilon]]),
    ("A", [[.terminal "b", .nonTerminal "A"], [.epsilon], [.terminal "a"]])]

def mixedChomsky : Grammar where
  rules := [
    ("S", [[.nonTerminal "T1", .nonTerminal "A"], [.nonTerminal "A", .nonTerminal "S0"],
      [.epsilon], [.terminal "b"], [.terminal "a"]]),
    ("A", [[.terminal "b"], [.nonTerminal "T1", .nonTerminal "A"], [.terminal "a"]]),
    ("S0", [[.nonTerminal "T1", .nonTerminal "A"]]),
    ("T1", [[.terminal "b"]])]

/-- The same without empty productions. -/
def filled : Grammar where
  rules := [
    ("S", [[.nonTerminal "A", .terminal "b", .nonTerminal "A"], [.nonTerminal "A"]]),
    ("A", [[.terminal "b", .nonTerminal "A"], [.terminal "a"]])]

def filledChomsky : Grammar where
  rules := [
    ("S", [[.nonTerminal "A", .nonTerminal "S0"], [.nonTerminal "T1", .nonTerminal "A"],
      [.terminal "a"]]),
    ("A", [[.nonTerminal "T1", .nonTerminal "A"], [.terminal "a"]]),
    ("S0", [[.nonTerminal "T1", .nonTerminal "A"]]),
    ("T1", [[.terminal "b"]])]

theorem generates_toChomsky_mixed :
    (mixed.toChomsky = .ok mixedChomsky ∧
      ∃ nullFree, mixed.eliminateNull mixed.nullable = .ok nullFree ∧ ∀ n ∈ mixed.names, ∀ w,
        (mixedChomsky.Generates n w ↔ nullFree.Generates n w) ∧
        (mixedChomsky.Generates n w → mixed.Generates n w) ∧
        ((∀ rule ∈ mixed.rules, Production.epsilon ∉ rule.2) →
          (mixedChomsky.Generates n w ↔ mixed.Generates n w))) ∧
      filled.toChomsky = .ok filledChomsky ∧
        (∀ rule ∈ filled.rules, Production.epsilon ∉ rule.2) ∧
        ∀ n ∈ filled.names, ∀ w, filledChomsky.Generates n w ↔ filled.Generates n w := by
  have hnone : ∀ rule ∈ filled.rules, Production.epsilon ∉ rule.2 := by decide
  refine ⟨⟨by rfl, generates_toChomsky (by rfl)⟩, by rfl, hnone, fun n hn w ↦ ?_⟩
  obtain ⟨_, -, hlanguages⟩ := generates_toChomsky (g := filled) (c := filledChomsky) (by rfl)
  exact (hlanguages n hn w).2.2 hnone

/-! ## The form of the result -/

/-- Splitting and isolating leave short productions of the right symbols. -/
theorem nearlyChomsky_of_isolateTerminals {binary unitFree : Grammar}
    {fresh fresh' fresh'' : FreshNames} (hbinary : unitFree.binarize fresh = .ok (binary, fresh'))
    (hisolated : binary.isolateTerminals fresh' = .ok (c, fresh''))
    {p : Production} (hp : p ∈ c.productionsOf n) : p.NearlyChomsky c.names := by
  rcases mem_productionsOf_isolateTerminals hisolated hp with ⟨q, hq, rfl⟩ | ⟨-, t, -, rfl⟩
  · have hvalid := (isolateTerminals_eq_ok_iff.1 hisolated).1
    have hne : q ≠ [] := (hvalid.wellFormed hq).ne_nil
    have hpositive : 0 < q.length := List.length_pos_iff.2 hne
    by_cases hlong : 1 < q.length
    · apply Production.nearlyChomsky_of_length_eq_two
      · have hshort : q.length = 2 := by
          rcases mem_productionsOf_binarize hbinary hq with ⟨-, hle⟩ | hlength
          · omega
          · exact hlength
        rw [Production.isolate, if_neg (by omega), List.length_map, hshort]
      · exact fun s hs ↦ exists_nonTerminal_of_mem_isolate hisolated hq hlong hs
    · apply Production.nearlyChomsky_of_length_eq_one
      rw [Production.isolate, if_pos (by omega)]
      omega
  · exact .terminal t

/-- A grammar of nearly normal productions is in Chomsky normal form if it has no unit production
and `λ` at the start symbol only. -/
theorem isChomsky_iff_of_nearlyChomsky
    (hform : ∀ n, ∀ p ∈ c.productionsOf n, p.NearlyChomsky c.names) :
    c.isChomsky = true ↔ (∀ m n, [.nonTerminal n] ∉ c.productionsOf m) ∧ c.EpsilonAtStart := by
  have hall : c.isChomsky = true ↔ ∀ n, ∀ p ∈ c.productionsOf n,
      p.isChomsky c.names (c.isStart n) = true := by
    simp only [isChomsky, List.all_eq_true, mem_productionsOf_iff, Prod.forall]
    constructor
    · intro h n p hp
      obtain ⟨productions, hrule, hmember⟩ := hp
      exact h n productions hrule p hmember
    · intro h n productions hrule p hmember
      exact h n p ⟨productions, hrule, hmember⟩
  rw [hall]
  constructor
  · intro h
    refine ⟨fun m n hunit ↦ ?_, fun n hepsilon ↦ ?_⟩
    · exact ((hform m _ hunit).isChomsky_iff.1 (h m _ hunit)).1 n rfl
    · exact eq_of_beq (((hform n _ hepsilon).isChomsky_iff.1 (h n _ hepsilon)).2 rfl)
  · intro h n p hp
    refine (hform n p hp).isChomsky_iff.2 ⟨fun m hunit ↦ h.1 n m (hunit ▸ hp), fun hepsilon ↦ ?_⟩
    exact beq_iff_eq.2 (h.2 n (hepsilon ▸ hp))

/-- Splitting and isolating leave `λ` where it is. -/
theorem epsilonAtStart_isolateTerminals_iff {binary unitFree : Grammar}
    {fresh fresh' fresh'' : FreshNames} (hbinary : unitFree.binarize fresh = .ok (binary, fresh'))
    (hisolated : binary.isolateTerminals fresh' = .ok (c, fresh'')) :
    c.EpsilonAtStart ↔ unitFree.EpsilonAtStart := by
  apply forall_congr'
  intro n
  rw [epsilon_mem_isolateTerminals_iff hisolated, epsilon_mem_binarize_iff hbinary]
  apply imp_congr_right
  intro hepsilon
  have hn : n ∈ unitFree.names := mem_names_of_mem_productionsOf hepsilon
  have hnames := names_isolateTerminals hisolated
  rw [names_binarize hbinary, List.append_assoc] at hnames
  rw [start?_of_names_append hnames hn]

/-- Only unit productions keep the grammar from Chomsky normal form. -/
structure ChomskyUpToUnits (c : Grammar) : Prop where
  form : ∀ rule ∈ c.rules, ∀ p ∈ rule.2,
    p.NearlyChomsky c.names ∧ (p = Production.epsilon → c.start? = some rule.1)
  exists_unit : c.isChomsky = false → ∃ rule ∈ c.rules, ∃ n, [.nonTerminal n] ∈ rule.2
  epsilon_notMem : ∀ rule ∈ c.rules, c.start? ≠ some rule.1 → Production.epsilon ∉ rule.2

theorem chomskyUpToUnits_iff (hform : ∀ n, ∀ p ∈ c.productionsOf n, p.NearlyChomsky c.names) :
    c.ChomskyUpToUnits ↔ c.EpsilonAtStart := by
  constructor
  · intro h n hepsilon
    obtain ⟨productions, hrule, hmember⟩ := mem_productionsOf_iff.1 hepsilon
    exact (h.form _ hrule _ hmember).2 rfl
  · intro hstart
    have hrules : ∀ rule ∈ c.rules, ∀ p ∈ rule.2, p ∈ c.productionsOf rule.1 :=
      fun rule hrule p hp ↦ mem_productionsOf_iff.2 ⟨rule.2, hrule, hp⟩
    refine ⟨fun rule hrule p hp ↦ ⟨hform _ p (hrules rule hrule p hp), fun hepsilon ↦ ?_⟩,
      fun hchomsky ↦ ?_, fun rule hrule hne hepsilon ↦ ?_⟩
    · exact hstart _ (hepsilon ▸ hrules rule hrule p hp)
    · apply Classical.byContradiction
      intro hnone
      have hunits : ∀ m n, [.nonTerminal n] ∉ c.productionsOf m := by
        intro m n hunit
        obtain ⟨productions, hrule, hmember⟩ := mem_productionsOf_iff.1 hunit
        exact hnone ⟨_, hrule, n, hmember⟩
      rw [(isChomsky_iff_of_nearlyChomsky hform).2 ⟨hunits, hstart⟩] at hchomsky
      exact Bool.noConfusion hchomsky
    · exact hne (hstart _ (hrules rule hrule _ hepsilon))

/-- The result has nearly normal productions, and only unit productions keep it from Chomsky normal
form exactly when the start symbol hands no `λ` to another non-terminal. -/
theorem chomskyUpToUnits_toChomsky_iff (hresult : g.toChomsky = .ok c) :
    ∃ nullFree, g.eliminateNull g.nullable = .ok nullFree ∧
      (∀ rule ∈ c.rules, ∀ p ∈ rule.2, p.NearlyChomsky c.names) ∧
      (c.ChomskyUpToUnits ↔ ¬ nullFree.LeaksEpsilon) := by
  obtain ⟨nullFree, unitFree, binary, fresh, fresh', hnull, hunit, hbinary, hisolated⟩ :=
    toChomsky_eq_ok_iff.1 hresult
  have hform : ∀ n, ∀ p ∈ c.productionsOf n, p.NearlyChomsky c.names :=
    fun n p hp ↦ nearlyChomsky_of_isolateTerminals hbinary hisolated hp
  have hnullFree : nullFree.EpsilonAtStart := epsilonAtStart_eliminateNull hnull
  refine ⟨nullFree, hnull, fun rule hrule p hp ↦ ?_, ?_⟩
  · exact hform rule.1 p (mem_productionsOf_iff.2 ⟨rule.2, hrule, hp⟩)
  · calc c.ChomskyUpToUnits
        ↔ c.EpsilonAtStart := chomskyUpToUnits_iff hform
      _ ↔ unitFree.EpsilonAtStart := epsilonAtStart_isolateTerminals_iff hbinary hisolated
      _ ↔ ¬ nullFree.LeaksEpsilon := epsilonAtStart_eliminateUnits_iff hunit hnullFree

/-- The start symbol has `λ`, and another non-terminal has the unit production to it. -/
def leaking : Grammar where
  rules := [("S", [[.terminal "a"], [.epsilon]]), ("A", [[.nonTerminal "S"]])]

def leaked : Grammar where
  rules := [("S", [[.terminal "a"], [.epsilon]]), ("A", [[.terminal "a"], [.epsilon]])]

theorem chomskyUpToUnits_toChomsky_iff_leaking :
    leaking.toChomsky = .ok leaked ∧
      ∃ nullFree, leaking.eliminateNull leaking.nullable = .ok nullFree ∧
        (∀ rule ∈ leaked.rules, ∀ p ∈ rule.2, p.NearlyChomsky leaked.names) ∧
        (leaked.ChomskyUpToUnits ↔ ¬ nullFree.LeaksEpsilon) :=
  ⟨by rfl, chomskyUpToUnits_toChomsky_iff (by rfl)⟩

/-- A result out of Chomsky normal form without any unit production: a non-terminal that is not the
start symbol has got the production `λ`. -/
theorem not_chomskyUpToUnits_leaked :
    leaking.toChomsky = .ok leaked ∧ leaked.isChomsky = false ∧
      (∀ rule ∈ leaked.rules, ∀ p ∈ rule.2, ∀ n, p ≠ [.nonTerminal n]) ∧
      leaked.start? = some "S" ∧ ("A", [[.terminal "a"], Production.epsilon]) ∈ leaked.rules ∧
      ¬ leaked.ChomskyUpToUnits := by
  refine ⟨by rfl, by decide, by simp [leaked], by decide, by decide, fun h ↦ ?_⟩
  exact h.epsilon_notMem ("A", [[.terminal "a"], [.epsilon]]) (by decide) (by decide) (by decide)

end Grammar

end ContextFree
