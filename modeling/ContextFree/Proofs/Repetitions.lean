import Mathlib.Data.List.Basic
import ContextFree.Proofs.SymbolKinds

/-!
# Productions listed once

The changes of form that put lists of productions together anew drop repetitions.  Once each name
has had its turn no list holds a production twice.  A turn that puts every production in its own
place again leaves such a grammar as it is.
-/

namespace ContextFree.Grammar

variable {g h : Grammar} {n : Name}

/-- No left-hand side lists a production twice. -/
def ListsOnce (g : Grammar) : Prop :=
  ∀ rule ∈ g.rules, rule.2.Nodup

instance : Decidable g.ListsOnce :=
  inferInstanceAs (Decidable (∀ rule ∈ g.rules, rule.2.Nodup))

theorem listsOnce_iff : g.ListsOnce ↔ ∀ n, (g.productionsOf n).Nodup := by
  constructor
  · intro h n
    by_cases hn : n ∈ g.names
    · exact h _ (rule_mem hn)
    · rw [productionsOf_eq_nil hn]
      exact List.nodup_nil
  · intro h rule hrule
    rw [← productionsOf_eq hrule]
    exact h rule.1

theorem ListsOnce.append {added : List Rule} (hg : g.ListsOnce)
    (hadded : ∀ rule ∈ added, rule.2.Nodup) (hrules : h.rules = g.rules ++ added) :
    h.ListsOnce := by
  intro rule hrule
  rw [hrules] at hrule
  rcases List.mem_append.1 hrule with hold | hnew
  · exact hg rule hold
  · exact hadded rule hnew

/-! ## Turns that drop repetitions -/

theorem nodup_productionsOf_modify (g : Grammar) (n : Name)
    (f : List Production → List Production) :
    ((g.modify n fun productions ↦ (f productions).eraseDups).productionsOf n).Nodup := by
  by_cases hn : n ∈ g.names
  · rw [productionsOf_modify_self hn]
    exact nodup_eraseDups _
  · rw [productionsOf_eq_nil (by rwa [names_modify])]
    exact List.nodup_nil

section Turns

variable {turn : Grammar → Name → Grammar}

/-- If a turn leaves its own list without repetitions and the others alone, then all the lists that
had a turn are without repetitions in the end, and so are those that were from the beginning. -/
theorem nodup_productionsOf_foldl (order : List Name)
    (hself : ∀ k n, ((turn k n).productionsOf n).Nodup)
    (hother : ∀ k m n, n ≠ m → (turn k m).productionsOf n = k.productionsOf n)
    (hn : n ∈ order ∨ (g.productionsOf n).Nodup) :
    ((order.foldl turn g).productionsOf n).Nodup := by
  induction order generalizing g with
  | nil => exact hn.resolve_left List.not_mem_nil
  | cons first order ih =>
    apply ih
    by_cases hfirst : n = first
    · exact .inr (hfirst ▸ hself g first)
    · rw [hother g first n hfirst]
      exact hn.imp_left fun hmember ↦ (List.mem_cons.1 hmember).resolve_left hfirst

/-- Turns of all the names leave a grammar without repetitions. -/
theorem listsOnce_foldl (order : List Name)
    (hself : ∀ k n, ((turn k n).productionsOf n).Nodup)
    (hother : ∀ k m n, n ≠ m → (turn k m).productionsOf n = k.productionsOf n)
    (hall : g.names ⊆ order) : (order.foldl turn g).ListsOnce := by
  refine listsOnce_iff.2 fun n ↦ nodup_productionsOf_foldl order hself hother ?_
  by_cases hn : n ∈ g.names
  · exact .inl (hall hn)
  · rw [productionsOf_eq_nil hn]
    exact .inr List.nodup_nil

end Turns

/-! ## Changes at the same place -/

/-- What a change makes of the productions is all that counts. -/
theorem modify_congr {first second : List Production → List Production}
    (hsame : first (g.productionsOf n) = second (g.productionsOf n)) :
    g.modify n first = g.modify n second := by
  apply ext_of_productionsOf (by rw [names_modify, names_modify])
  intro m hm
  rw [names_modify] at hm
  by_cases hmn : m = n
  · rw [hmn, productionsOf_modify_self (hmn ▸ hm), productionsOf_modify_self (hmn ▸ hm), hsame]
  · rw [productionsOf_modify_of_ne hmn, productionsOf_modify_of_ne hmn]

/-! ## Changes that change nothing -/

theorem mapProductions_eq_self {f : Name → List Production → List Production}
    (hsame : ∀ n, f n (g.productionsOf n) = g.productionsOf n) : g.mapProductions f = g := by
  apply ext_of_productionsOf (names_mapProductions g f)
  intro n hn
  rw [names_mapProductions] at hn
  rw [productionsOf_mapProductions hn, hsame n]

theorem modify_eq_self {f : List Production → List Production}
    (hsame : f (g.productionsOf n) = g.productionsOf n) : g.modify n f = g := by
  apply mapProductions_eq_self
  intro m
  split
  · next hm => rw [hm, hsame]
  · rfl

/-- Putting each element in its own place again. -/
theorem eraseDups_flatMap_eq_self {l : List Production} {f : Production → List Production}
    (hdistinct : l.Nodup) (hkept : ∀ p ∈ l, f p = [p]) : (l.flatMap f).eraseDups = l := by
  have hsame : l.flatMap f = l := by
    calc l.flatMap f
        = l.flatMap fun p ↦ [p] := List.flatMap_congr hkept
      _ = l := List.flatMap_singleton' l
  rw [hsame, eraseDups_eq_self hdistinct]

end ContextFree.Grammar
