import ContextFree.FreshNames

/-!
# Sequences of calls of a generator

A generator answers calls one after the other, each with a base and a grammar of its own.  The
search for a free number has no bound in itself.  It ends because different numbers make different
names of one base, so a run of numbers with taken names is no longer than the list of taken names.

A name that was given in an earlier call counts as taken whatever its base was, and it is this that
keeps apart the names of two bases that can form the same text.
-/

namespace ContextFree

/-- What a generator is asked for: a name with a base that a grammar does not declare. -/
structure MintCall where
  base : Name
  grammar : Grammar

namespace FreshNames

variable {taken : List Name} {base : Name} {start number tried : Nat}

/-- The names that calls give one after the other, and the generator afterwards. -/
def mintAll (fresh : FreshNames) : List MintCall → List Name × FreshNames
  | [] => ([], fresh)
  | call :: calls =>
    let (name, next) := fresh.mint call.base call.grammar.names
    let (names, last) := next.mintAll calls
    (name :: names, last)

/-! ## The search of one call -/

/-- The search from a number on, one candidate after the other, until a name is not taken.  It
counts the candidates that it has tried and ends with the number of the last one. -/
inductive Search (taken : List Name) (base : Name) : Nat → Nat → Nat → Prop
  | found {start : Nat} : numbered base start ∉ taken → Search taken base start 1 start
  | passed {start tried number : Nat} : numbered base start ∈ taken →
    Search taken base (start + 1) tried number → Search taken base start (tried + 1) number

/-- A search passes over the numbers with taken names up to the first free one. -/
theorem search_of_forall_mem (passed : Nat)
    (htaken : ∀ k, start ≤ k → k < start + passed → numbered base k ∈ taken)
    (hfree : numbered base (start + passed) ∉ taken) :
    Search taken base start (passed + 1) (start + passed) := by
  induction passed generalizing start with
  | zero => exact .found hfree
  | succ passed ih =>
    have hfirst : numbered base start ∈ taken := htaken start (Nat.le_refl _) (by omega)
    have hnext : start + (passed + 1) = start + 1 + passed := by omega
    rw [hnext] at htaken hfree ⊢
    exact .passed hfirst (ih (fun k hstart hk ↦ htaken k (by omega) hk) hfree)

/-- A search tries each taken name once at the most, and one name that is free. -/
theorem exists_search_firstFree (taken : List Name) (base : Name) (start : Nat) :
    ∃ tried ≤ taken.length + 1,
      Search taken base start tried (firstFree taken base taken.length start) := by
  obtain ⟨passed, hpassed⟩ :=
    Nat.exists_eq_add_of_le (le_firstFree taken base taken.length start)
  have htaken : ∀ k, start ≤ k → k < start + passed → numbered base k ∈ taken :=
    fun k hstart hk ↦ numbered_mem_of_lt_firstFree hstart (hpassed ▸ hk)
  have hfree := numbered_firstFree_not_mem taken base start
  rw [hpassed] at hfree ⊢
  have hcount : (List.range' start passed).length ≤ taken.length := by
    apply length_le_of_numbered_mem List.nodup_range'
    intro k hk
    obtain ⟨hstart, hlast⟩ := List.mem_range'_1.1 hk
    exact htaken k hstart hlast
  rw [List.length_range'] at hcount
  exact ⟨passed + 1, by omega, search_of_forall_mem passed htaken hfree⟩

/-- The number that a call takes when the counter stands at `counter` and some names have been
minted before. -/
structure Takes (call : MintCall) (minted : List Name) (counter number : Nat) : Prop where
  ends : ∃ tried ≤ call.grammar.names.length + minted.length + 1,
    Search (call.grammar.names ++ minted) call.base counter tried number
  notMem_names : numbered call.base number ∉ call.grammar.names
  notMem_minted : numbered call.base number ∉ minted
  counter_le : counter ≤ number
  least : ∀ k, counter ≤ k → numbered call.base k ∉ call.grammar.names →
    numbered call.base k ∉ minted → number ≤ k

/-- One call.  The counter stands behind the number that it has taken. -/
theorem exists_takes_mint (fresh : FreshNames) (call : MintCall) :
    ∃ number, Takes call fresh.minted fresh.next number ∧
      fresh.mint call.base call.grammar.names =
        (numbered call.base number, ⟨number + 1, numbered call.base number :: fresh.minted⟩) := by
  obtain ⟨tried, htried, hsearch⟩ :=
    exists_search_firstFree (call.grammar.names ++ fresh.minted) call.base fresh.next
  rw [List.length_append] at htried
  obtain ⟨hnames, hminted⟩ := mint_not_mem fresh call.base call.grammar.names
  refine ⟨_, ⟨⟨tried, htried, hsearch⟩, hnames, hminted, le_firstFree _ _ _ _, ?_⟩, rfl⟩
  intro k hcounter hfreeNames hfreeMinted
  apply Nat.le_of_not_lt
  intro hlt
  rcases List.mem_append.1 (numbered_mem_of_lt_firstFree hcounter hlt) with htaken | htaken
  · exact hfreeNames htaken
  · exact hfreeMinted htaken

/-! ## Whole runs -/

theorem mintAll_append (fresh : FreshNames) (before after : List MintCall) :
    fresh.mintAll (before ++ after) =
      ((fresh.mintAll before).1 ++ ((fresh.mintAll before).2.mintAll after).1,
        ((fresh.mintAll before).2.mintAll after).2) := by
  induction before generalizing fresh with
  | nil => rfl
  | cons call before ih =>
    simp only [List.cons_append, mintAll, ih]

/-- A generator keeps all the names that it has given. -/
theorem minted_mintAll (fresh : FreshNames) (calls : List MintCall) :
    (fresh.mintAll calls).2.minted = (fresh.mintAll calls).1.reverse ++ fresh.minted := by
  induction calls generalizing fresh with
  | nil => rfl
  | cons call calls ih =>
    simp only [mintAll, ih, minted_mint, List.reverse_cons, List.append_assoc,
      List.singleton_append]

/-- Every call of a run takes the least free number that its counter has not passed, after no more
candidates than there are declared names and names minted so far, and one.  The names given before
are among those that it avoids, and the calls behind it find the counter one further. -/
theorem mintAll_takes (fresh : FreshNames) (before : List MintCall) (call : MintCall)
    (after : List MintCall) : ∃ earlier state number later last,
      fresh.mintAll before = (earlier, state) ∧
      state.minted = earlier.reverse ++ fresh.minted ∧
      Takes call state.minted state.next number ∧
      mintAll ⟨number + 1, numbered call.base number :: state.minted⟩ after = (later, last) ∧
      fresh.mintAll (before ++ call :: after) =
        (earlier ++ numbered call.base number :: later, last) := by
  obtain ⟨number, htakes, hmint⟩ := exists_takes_mint (fresh.mintAll before).2 call
  refine ⟨_, _, number, _, _, rfl, minted_mintAll fresh before, htakes, rfl, ?_⟩
  rw [mintAll_append, mintAll, hmint]

/-- The base `A` would give `A10` next, which the base `A1` has given before. -/
example : (mintAll ⟨10, ["A10"]⟩ [⟨"A", .empty⟩, ⟨"A", .empty⟩]).1 = ["A11", "A12"] := by
  decide

end FreshNames

end ContextFree
