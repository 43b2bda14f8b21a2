import ContextFree.Proofs.Validity

/-!
# Kinds of symbols and their names

Written text gives the names of symbols and leaves their kinds to be found again.  The kind of a
symbol is found again exactly when its name tells it: a terminal must not be named like a declared
non-terminal, and neither a terminal nor a non-terminal like the mark of the empty string.

A grammar put together from tokens has names that tell the kinds, since a token stands for the same
symbol when it is read once more.
-/

namespace ContextFree

theorem map_eq_self_iff {α : Type} {f : α → α} {l : List α} :
    l.map f = l ↔ ∀ a ∈ l, f a = a := by
  calc l.map f = l
      ↔ l.map f = l.map id := by rw [List.map_id]
    _ ↔ ∀ a ∈ l, f a = a := List.map_inj_left

/-- A list without repetitions has none to lose. -/
theorem eraseDups_eq_self {α : Type} [BEq α] [LawfulBEq α] {l : List α} (hdistinct : l.Nodup) :
    l.eraseDups = l := by
  induction l with
  | nil => rfl
  | cons a rest ih =>
    obtain ⟨ha, hrest⟩ := List.nodup_cons.1 hdistinct
    have hkept : rest.filter (fun b ↦ !b == a) = rest := by
      apply List.filter_eq_self.2
      intro b hb
      have hne : b ≠ a := fun hsame ↦ ha (hsame ▸ hb)
      simpa using hne
    rw [List.eraseDups_cons, hkept, ih hrest]

namespace Symbol

variable {declared : List Name} {s : Symbol}

theorem ofToken_eq_epsilon_iff {token : Name} :
    ofToken declared token = .epsilon ↔ token ∈ epsilonSpellings := by
  by_cases hspelling : token ∈ epsilonSpellings
  · simp [ofToken, hspelling]
  · by_cases htoken : token ∈ declared <;> simp [ofToken, hspelling, htoken]

theorem ofToken_eq_nonTerminal_iff {token n : Name} : ofToken declared token = .nonTerminal n ↔
    token = n ∧ n ∈ declared ∧ n ∉ epsilonSpellings := by
  by_cases hspelling : token ∈ epsilonSpellings
  · simp only [ofToken, hspelling, if_true, reduceCtorEq, false_iff]
    rintro ⟨rfl, -, hother⟩
    exact hother hspelling
  · by_cases htoken : token ∈ declared
    · simp only [ofToken, hspelling, htoken, if_true, if_false, nonTerminal.injEq]
      exact ⟨fun hsame ↦ ⟨hsame, hsame ▸ htoken, hsame ▸ hspelling⟩, fun hsame ↦ hsame.1⟩
    · simp only [ofToken, hspelling, htoken, if_false, reduceCtorEq, false_iff]
      rintro ⟨rfl, hother, -⟩
      exact htoken hother

/-- The name of a symbol stands for the symbol exactly when it tells the kind. -/
theorem ofToken_name_eq_iff : ofToken declared s.name = s ↔
    (∀ t, s = .terminal t → t ∉ declared ∧ t ∉ epsilonSpellings) ∧
      ∀ n, s = .nonTerminal n → n ∈ declared ∧ n ∉ epsilonSpellings := by
  cases s with
  | epsilon => simp [ofToken, name, epsilonSpellings]
  | terminal t =>
    by_cases hspelling : t ∈ epsilonSpellings
    · simp [ofToken, name, hspelling]
    · by_cases ht : t ∈ declared <;> simp [ofToken, name, hspelling, ht]
  | nonTerminal n =>
    by_cases hspelling : n ∈ epsilonSpellings
    · simp [ofToken, name, hspelling]
    · by_cases hn : n ∈ declared <;> simp [ofToken, name, hspelling, hn]

/-- What a token stands for has a name that stands for it. -/
theorem ofToken_name_ofToken (token : Name) :
    ofToken declared (ofToken declared token).name = ofToken declared token := by
  have hepsilon : epsilonName ∈ epsilonSpellings := List.mem_cons_self
  by_cases hspelling : token ∈ epsilonSpellings
  · simp [ofToken, name, hspelling, hepsilon]
  · by_cases htoken : token ∈ declared <;> simp [ofToken, name, hspelling, htoken]

@[simp]
theorem ofToken_eraseDups (token : Name) :
    ofToken declared.eraseDups token = ofToken declared token := by
  simp only [ofToken, List.mem_eraseDups]

end Symbol

namespace Grammar

variable {g h : Grammar} {declared : List Name} {n : Name} {s : Symbol}

/-- The symbol occurs in a production. -/
def HasSymbol (g : Grammar) (s : Symbol) : Prop :=
  ∃ n, ∃ p ∈ g.productionsOf n, s ∈ p

instance : Decidable (g.HasSymbol s) :=
  decidable_of_iff (∃ rule ∈ g.rules, ∃ p ∈ rule.2, s ∈ p) exists_mem_productionsOf_iff.symm

/-- The kinds of all symbols can be told from their names and the declared non-terminals. -/
structure NamesTellKinds (g : Grammar) : Prop where
  terminal_notMem : ∀ t, g.HasSymbol (.terminal t) → t ∉ g.names
  terminal_ne_epsilon : ∀ t, g.HasSymbol (.terminal t) → t ∉ epsilonSpellings
  nonTerminal_ne_epsilon : ∀ n, g.HasSymbol (.nonTerminal n) → n ∉ epsilonSpellings

theorem namesTellKinds_iff (hvalid : g.Valid) : g.NamesTellKinds ↔
    ∀ s, g.HasSymbol s → Symbol.ofToken g.names s.name = s := by
  constructor
  · intro h s hs
    refine Symbol.ofToken_name_eq_iff.2 ⟨?_, ?_⟩
    · intro t ht
      subst ht
      exact ⟨h.terminal_notMem t hs, h.terminal_ne_epsilon t hs⟩
    · intro n hn
      subst hn
      obtain ⟨left, p, hp, hn⟩ := hs
      exact ⟨hvalid.mentionsDeclared left p hp n hn, h.nonTerminal_ne_epsilon n ⟨left, p, hp, hn⟩⟩
  · intro h
    have hterminal := fun t ht ↦ (Symbol.ofToken_name_eq_iff.1 (h (.terminal t) ht)).1 t rfl
    have hnonTerminal := fun n hn ↦ (Symbol.ofToken_name_eq_iff.1 (h (.nonTerminal n) hn)).2 n rfl
    exact ⟨fun t ht ↦ (hterminal t ht).1, fun t ht ↦ (hterminal t ht).2,
      fun n hn ↦ (hnonTerminal n hn).2⟩

/-! ## Putting a grammar together -/

theorem rules_eq_map (g : Grammar) : g.rules = g.names.map fun n ↦ (n, g.productionsOf n) := by
  have hrule : ∀ rule ∈ g.rules, (rule.1, g.productionsOf rule.1) = rule := by
    intro rule hrule
    have hproductions : g.productionsOf rule.1 = rule.2 := productionsOf_eq hrule
    rw [hproductions]
  rw [names, List.map_map]
  calc g.rules
      = g.rules.map id := (List.map_id g.rules).symm
    _ = _ := (List.map_congr_left hrule).symm

/-- A grammar is known by its names, in order, and the productions of each. -/
theorem ext_of_productionsOf (hnames : g.names = h.names)
    (hproductions : ∀ n ∈ g.names, g.productionsOf n = h.productionsOf n) : g = h := by
  apply Grammar.ext
  rw [rules_eq_map g, rules_eq_map h, ← hnames]
  exact List.map_congr_left fun n hn ↦ by rw [hproductions n hn]

theorem productionsOf_ofNames {productions : Name → List Production} (hn : n ∈ declared) :
    (ofNames declared productions).productionsOf n = productions n := by
  apply productionsOf_eq
  exact List.mem_map_of_mem (f := fun n ↦ (n, productions n)) (List.mem_eraseDups.2 hn)

theorem ofNames_eq_iff {productions : Name → List Production} :
    ofNames declared productions = g ↔
      declared.eraseDups = g.names ∧ ∀ n ∈ g.names, productions n = g.productionsOf n := by
  constructor
  · intro h
    subst h
    refine ⟨(names_ofNames _ _).symm, fun n hn ↦ (productionsOf_ofNames ?_).symm⟩
    rwa [names_ofNames, List.mem_eraseDups] at hn
  · intro h
    apply ext_of_productionsOf
    · rw [names_ofNames, h.1]
    · intro n hn
      rw [names_ofNames] at hn
      rw [productionsOf_ofNames (List.mem_eraseDups.1 hn), h.2 n (h.1 ▸ hn)]

/-- A valid grammar that is put together from tokens has names that tell the kinds. -/
theorem namesTellKinds_ofNames {productions : Name → List Production}
    (hvalid : (ofNames declared productions).Valid)
    (htokens : ∀ n ∈ declared, ∀ p ∈ productions n, ∀ s ∈ p,
      ∃ token, s = Symbol.ofToken declared token) :
    (ofNames declared productions).NamesTellKinds := by
  refine (namesTellKinds_iff hvalid).2 fun s hs ↦ ?_
  obtain ⟨n, p, hp, hs⟩ := hs
  have hn : n ∈ declared := by
    simpa using mem_names_of_mem_productionsOf hp
  rw [productionsOf_ofNames hn] at hp
  obtain ⟨token, rfl⟩ := htokens n hn p hp s hs
  rw [names_ofNames, Symbol.ofToken_eraseDups, Symbol.ofToken_name_ofToken]

/-- Naming the productions and reading the names again gives the productions back exactly when
every name stands for its symbol. -/
theorem map_ofToken_map_name_eq_iff {productions : List Production} :
    (productions.map (·.map Symbol.name)).map (·.map (Symbol.ofToken declared)) = productions ↔
      ∀ p ∈ productions, ∀ s ∈ p, Symbol.ofToken declared s.name = s := by
  simp only [List.map_map, map_eq_self_iff, Function.comp_apply]

end Grammar

end ContextFree
