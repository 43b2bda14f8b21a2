import ContextFree.Error
import ContextFree.Grammar.Basic

/-!
# Fresh non-terminals

A generator mints names of the form base and number.  One counter serves all bases and only grows; a
number whose name is declared, or was minted before, is passed over.  Two bases can form the same
name (`A1` with `0` and `A` with `10`), so all names minted so far are kept.

`mint_not_mem` says that a minted name is neither declared nor minted before.
-/

namespace ContextFree

structure FreshNames where
  /-- The first number that was not tried yet. -/
  next : Nat := 0
  /-- All names minted so far, the latest first. -/
  minted : List Name := []
deriving DecidableEq, Repr, Inhabited

namespace FreshNames

/-- The name with a base and a decimal number. -/
def numbered (base : Name) (n : Nat) : Name :=
  base ++ Nat.repr n

theorem numbered_injective {base : Name} {m n : Nat} (h : numbered base m = numbered base n) :
    m = n := by
  have hdigits : Nat.toDigits 10 m = Nat.toDigits 10 n := by
    have hlists := congrArg String.toList h
    simpa [numbered, Nat.repr] using hlists
  have hvalues := congrArg (Nat.ofDigitChars 10 · 0) hdigits
  simpa using hvalues

/-- The least number from `n` on whose name is not taken, if one of the first `count + 1` is. -/
def firstFree (taken : List Name) (base : Name) : Nat → Nat → Nat
  | 0, n => n
  | count + 1, n =>
    if numbered base n ∈ taken then firstFree taken base count (n + 1) else n

/-- Mints a name that is not declared.  As many numbers as there are taken names, and one more,
always hold a free one. -/
def mint (fresh : FreshNames) (base : Name) (declared : List Name) : Name × FreshNames :=
  let taken := declared ++ fresh.minted
  let n := firstFree taken base taken.length fresh.next
  (numbered base n, ⟨n + 1, numbered base n :: fresh.minted⟩)

theorem le_firstFree (taken : List Name) (base : Name) (count n : Nat) :
    n ≤ firstFree taken base count n := by
  induction count generalizing n with
  | zero => exact Nat.le_refl n
  | succ count ih =>
    unfold firstFree
    split
    · exact Nat.le_of_succ_le (ih (n + 1))
    · exact Nat.le_refl n

/-- Numbers passed over have taken names. -/
theorem numbered_mem_of_lt_firstFree {taken : List Name} {base : Name} {count n k : Nat}
    (hn : n ≤ k) (hk : k < firstFree taken base count n) : numbered base k ∈ taken := by
  induction count generalizing n with
  | zero => exact absurd hk (Nat.not_lt.2 hn)
  | succ count ih =>
    unfold firstFree at hk
    split at hk
    · next h =>
      rcases Nat.eq_or_lt_of_le hn with rfl | hlt
      · exact h
      · exact ih hlt hk
    · exact absurd hk (Nat.not_lt.2 hn)

/-- Distinct numbers with taken names are no more than the taken names. -/
theorem length_le_of_numbered_mem {taken : List Name} {base : Name} {numbers : List Nat}
    (hdistinct : numbers.Nodup) (h : ∀ k ∈ numbers, numbered base k ∈ taken) :
    numbers.length ≤ taken.length := by
  induction numbers generalizing taken with
  | nil => simp
  | cons k numbers ih =>
    obtain ⟨hk, hdistinct⟩ := List.nodup_cons.1 hdistinct
    have hfirst : numbered base k ∈ taken := h k List.mem_cons_self
    have hrest : ∀ j ∈ numbers, numbered base j ∈ taken.erase (numbered base k) := by
      intro j hj
      refine (List.mem_erase_of_ne fun hsame ↦ ?_).2 (h j (List.mem_cons_of_mem k hj))
      exact hk (numbered_injective hsame ▸ hj)
    have hshorter := ih hdistinct hrest
    rw [List.length_erase_of_mem hfirst] at hshorter
    have htaken := List.length_pos_of_mem hfirst
    simp only [List.length_cons]
    omega

theorem numbered_firstFree_not_mem (taken : List Name) (base : Name) (n : Nat) :
    numbered base (firstFree taken base taken.length n) ∉ taken := by
  have hfound : ∀ count n, numbered base (firstFree taken base count n) ∈ taken →
      ∀ k ∈ List.range' n (count + 1), numbered base k ∈ taken := by
    intro count
    induction count with
    | zero =>
      intro n h k hk
      obtain rfl : k = n := by simpa using hk
      exact h
    | succ count ih =>
      intro n h k hk
      unfold firstFree at h
      split at h
      · next hn =>
        rw [List.range'_succ, List.mem_cons] at hk
        rcases hk with rfl | hk
        · exact hn
        · exact ih (n + 1) h k hk
      · next hn => exact absurd h hn
  intro h
  have hlength := length_le_of_numbered_mem List.nodup_range' (hfound taken.length n h)
  rw [List.length_range'] at hlength
  exact Nat.not_succ_le_self taken.length hlength

theorem mint_not_mem (fresh : FreshNames) (base : Name) (declared : List Name) :
    (fresh.mint base declared).1 ∉ declared ∧ (fresh.mint base declared).1 ∉ fresh.minted := by
  have hfree := numbered_firstFree_not_mem (declared ++ fresh.minted) base fresh.next
  simpa [mint, not_or] using hfree

@[simp] theorem minted_mint (fresh : FreshNames) (base : Name) (declared : List Name) :
    (fresh.mint base declared).2.minted = (fresh.mint base declared).1 :: fresh.minted := rfl

end FreshNames

namespace Grammar

/-- Appends a rule, for a name that must be new. -/
def insertFresh (g : Grammar) (name : Name) (productions : List Production) :
    Except GrammarError Grammar :=
  if h : name ∈ g.names then .error (.nameCollision name) else .ok (g.append name productions h)

/-- Appends several rules one after the other. -/
def insertAllFresh (g : Grammar) (rules : List Rule) : Except GrammarError Grammar :=
  rules.foldlM (fun g rule ↦ g.insertFresh rule.1 rule.2) g

end Grammar

end ContextFree
