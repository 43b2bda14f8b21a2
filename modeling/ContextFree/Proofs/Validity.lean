import ContextFree.Grammar.Validity
import ContextFree.Proofs.Language

/-!
# Validity by left-hand sides

Every change of form validates its source first, so a change that succeeds has a valid source.  The
facts about valid grammars are stated on the productions of a name, which is how the changes of form
reach them.
-/

namespace ContextFree

/-- A composed computation succeeds when its parts do. -/
theorem bind_eq_ok_iff {ε α β : Type} {x : Except ε α} {f : α → Except ε β} {b : β} :
    x >>= f = .ok b ↔ ∃ a, x = .ok a ∧ f a = .ok b := by
  rcases x with error | a
  · exact ⟨fun hfailed ↦ (nomatch hfailed), fun ⟨_, hfailed, _⟩ ↦ (nomatch hfailed)⟩
  · exact ⟨fun hnext ↦ ⟨a, rfl, hnext⟩, fun ⟨_, hsame, hnext⟩ ↦ Except.ok.inj hsame ▸ hnext⟩

/-- A composed computation fails where the first of its parts that fails does. -/
theorem bind_eq_error_iff {ε α β : Type} {x : Except ε α} {f : α → Except ε β} {error : ε} :
    x >>= f = .error error ↔ x = .error error ∨ ∃ a, x = .ok a ∧ f a = .error error := by
  rcases x with first | a
  · constructor
    · exact fun hfailed ↦ .inl (congrArg Except.error (Except.error.inj hfailed))
    · rintro (hfailed | ⟨_, hok, _⟩)
      · exact congrArg Except.error (Except.error.inj hfailed)
      · exact nomatch hok
  · constructor
    · exact fun hfailed ↦ .inr ⟨a, rfl, hfailed⟩
    · rintro (hfailed | ⟨_, hok, hfailed⟩)
      · exact nomatch hfailed
      · exact Except.ok.inj hok ▸ hfailed

theorem pure_eq_ok_iff {ε α : Type} {a b : α} : (pure a : Except ε α) = .ok b ↔ b = a :=
  ⟨fun hsame ↦ (Except.ok.inj hsame).symm, fun hsame ↦ hsame ▸ rfl⟩

theorem Production.wellFormed_epsilon (declared : List Name) :
    Production.epsilon.WellFormed declared :=
  ⟨List.cons_ne_nil _ _, fun _ ↦ rfl, fun _ hname ↦ nomatch List.mem_singleton.1 hname⟩

namespace Grammar

variable {g : Grammar}

theorem validate_bind_eq_ok_iff {α : Type} {next : Unit → Except GrammarError α} {a : α} :
    g.validate >>= next = .ok a ↔ g.Valid ∧ next () = .ok a := by
  rw [bind_eq_ok_iff]
  constructor
  · intro hresult
    obtain ⟨_, hvalid, hnext⟩ := hresult
    exact ⟨validate_eq_ok_iff.1 hvalid, hnext⟩
  · intro hresult
    exact ⟨(), validate_eq_ok_iff.2 hresult.1, hresult.2⟩

theorem validate_bind_eq_error_iff {α : Type} {next : Unit → Except GrammarError α}
    {error : GrammarError} : g.validate >>= next = .error error ↔
      g.validate = .error error ∨ g.Valid ∧ next () = .error error := by
  rw [bind_eq_error_iff, ← validate_eq_ok_iff]
  apply or_congr_right
  exact ⟨fun ⟨_, hvalid, hnext⟩ ↦ ⟨hvalid, hnext⟩, fun ⟨hvalid, hnext⟩ ↦ ⟨(), hvalid, hnext⟩⟩

/-- A valid grammar passes the validation. -/
theorem Valid.validate_ne_error {error : GrammarError} (hvalid : g.Valid) :
    g.validate ≠ .error error := by
  rw [validate_eq_ok_iff.2 hvalid]
  exact nofun

/-- The validation refuses for the fault of a production and for nothing else. -/
theorem exists_malformed_of_validate {error : GrammarError}
    (hrefused : g.validate = .error error) : ∃ name fault, error = .malformed name fault := by
  unfold validate at hrefused
  split at hrefused
  · next first hfirst =>
    obtain ⟨rule, -, hrule⟩ := List.exists_of_findSome?_eq_some hfirst
    obtain ⟨fault, -, hfault⟩ := Option.map_eq_some_iff.1 hrule
    exact ⟨rule.1, fault, (Except.error.inj hrefused).symm.trans hfault.symm⟩
  · exact nomatch hrefused

/-- The productions of the names are those of the rules. -/
theorem exists_mem_productionsOf_iff {holds : Production → Prop} :
    (∃ n, ∃ p ∈ g.productionsOf n, holds p) ↔ ∃ rule ∈ g.rules, ∃ p ∈ rule.2, holds p := by
  simp only [mem_productionsOf_iff]
  constructor
  · intro h
    obtain ⟨n, p, ⟨productions, hrule, hp⟩, hholds⟩ := h
    exact ⟨_, hrule, p, hp, hholds⟩
  · intro h
    obtain ⟨rule, hrule, p, hp, hholds⟩ := h
    exact ⟨rule.1, p, ⟨rule.2, hrule, hp⟩, hholds⟩

/-- What is validated and returned comes out if it is valid. -/
theorem validate_bind_pure_eq_ok_iff {h : Grammar} :
    (g.validate >>= fun _ ↦ pure g) = .ok h ↔ g = h ∧ h.Valid := by
  rw [validate_bind_eq_ok_iff, pure_eq_ok_iff, and_comm, eq_comm]
  apply and_congr_right
  intro hsame
  rw [hsame]

theorem valid_iff :
    g.Valid ↔ ∀ n, ∀ p ∈ g.productionsOf n, Production.WellFormed g.names p := by
  constructor
  · intro hvalid n p hp
    obtain ⟨productions, hrule, hmember⟩ := mem_productionsOf_iff.1 hp
    exact hvalid _ hrule p hmember
  · intro hwell rule hrule p hp
    exact hwell rule.1 p (mem_productionsOf_iff.2 ⟨rule.2, hrule, hp⟩)

/-- A production of a valid grammar is well formed. -/
theorem Valid.wellFormed {n : Name} {p : Production} (hvalid : g.Valid)
    (hp : p ∈ g.productionsOf n) : Production.WellFormed g.names p :=
  valid_iff.1 hvalid n p hp

theorem Valid.mentionsDeclared (hvalid : g.Valid) : g.MentionsDeclared :=
  fun _ _ hp m hm ↦ (hvalid.wellFormed hp).declared_of_mem m hm

/-- A non-terminal has one place among the left-hand sides. -/
theorem notMem_of_names_eq {earlier later : List Name} {current : Name}
    (hnames : g.names = earlier ++ current :: later) : current ∉ earlier ∧ current ∉ later := by
  have hdistinct := g.names_nodup
  rw [hnames, List.nodup_append, List.nodup_cons] at hdistinct
  obtain ⟨-, ⟨hlater, -⟩, hapart⟩ := hdistinct
  exact ⟨fun hmember ↦ hapart current hmember current List.mem_cons_self rfl, hlater⟩

/-- The first of the names that a property holds of. -/
def First (names : List Name) (holds : Name → Prop) (n : Name) : Prop :=
  ∃ earlier later, names = earlier ++ n :: later ∧ holds n ∧ ∀ m ∈ earlier, ¬ holds m

/-- A search through names that stops at a property stops at the first name that has it. -/
theorem findSome?_eq_some_iff_first {names : List Name} {check : Name → Bool}
    {holds : Name → Prop} {cause : Name → GrammarError} {error : GrammarError}
    (hcheck : ∀ n, check n = true ↔ holds n) :
    (names.findSome? fun n ↦ if check n then some (cause n) else none) = some error ↔
      ∃ n, First names holds n ∧ error = cause n := by
  simp only [List.findSome?_eq_some_iff, Option.ite_none_right_eq_some, Option.some.injEq,
    ite_eq_right_iff, reduceCtorEq, imp_false, hcheck, First]
  constructor
  · intro h
    obtain ⟨earlier, n, later, hnames, ⟨hholds, hcause⟩, hearlier⟩ := h
    exact ⟨n, ⟨earlier, later, hnames, hholds, hearlier⟩, hcause.symm⟩
  · intro h
    obtain ⟨n, ⟨earlier, later, hnames, hholds, hearlier⟩, hcause⟩ := h
    exact ⟨earlier, n, later, hnames, ⟨hholds, hcause.symm⟩, hearlier⟩

/-- Only the start symbol has the production `λ`. -/
def EpsilonAtStart (g : Grammar) : Prop :=
  ∀ n, Production.epsilon ∈ g.productionsOf n → g.start? = some n

/-- A start symbol with the production `λ` occurs on no right-hand side. -/
def EmptyStartUnused (g : Grammar) : Prop :=
  ∀ start, g.start? = some start → Production.epsilon ∈ g.productionsOf start →
    ∀ m, ∀ p ∈ g.productionsOf m, Symbol.nonTerminal start ∉ p

theorem emptyStartUnused_iff : g.EmptyStartUnused ↔
    ∀ start ∈ g.start?, Production.epsilon ∈ g.productionsOf start →
      ∀ rule ∈ g.rules, ∀ p ∈ rule.2, Symbol.nonTerminal start ∉ p := by
  have hunused : ∀ start, (∀ m, ∀ p ∈ g.productionsOf m, Symbol.nonTerminal start ∉ p) ↔
      ∀ rule ∈ g.rules, ∀ p ∈ rule.2, Symbol.nonTerminal start ∉ p := by
    intro start
    have hused : (∃ m, ∃ p ∈ g.productionsOf m, Symbol.nonTerminal start ∈ p) ↔
        ∃ rule ∈ g.rules, ∃ p ∈ rule.2, Symbol.nonTerminal start ∈ p :=
      exists_mem_productionsOf_iff
    simpa only [not_exists, not_and] using not_congr hused
  simp only [EmptyStartUnused, hunused, Option.mem_def]

instance : Decidable g.EmptyStartUnused :=
  decidable_of_iff _ emptyStartUnused_iff.symm

end Grammar

end ContextFree
