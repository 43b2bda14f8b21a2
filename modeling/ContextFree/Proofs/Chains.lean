import Mathlib.Data.List.Nodup
import Mathlib.Logic.Function.Iterate
import ContextFree.Proofs.Minting

/-!
# Long productions as chains

A production of more than two symbols is split into a chain: two symbols are left of it, and one
rule is added for each further symbol.  The production and its chain hold the same symbols, but for
the new names, each of which the chain mentions once.  Putting the productions of the new names in
their place, round after round, gives the production back.

In a whole grammar the chains stand one after the other, in the order of the productions.
-/

namespace ContextFree

open scoped List

/-! ## Putting productions in the place of new names -/

/-- What a symbol stands for.  A new name stands for its production, any other symbol for itself. -/
def Symbol.unfold (added : List Rule) : Symbol → Production
  | .nonTerminal name =>
    match added.lookup name with
    | some [p] => p
    | _ => [.nonTerminal name]
  | s => [s]

/-- One round of unfolding, in which all the new names give way at the same time. -/
def Production.unfold (added : List Rule) (p : Production) : Production :=
  p.flatMap (Symbol.unfold added)

section Unfold

variable {added : List Rule} {s : Symbol} {p : Production}

theorem Symbol.unfold_of_lookup {name : Name} (hadded : added.lookup name = some [p]) :
    (Symbol.nonTerminal name).unfold added = p := by
  rw [unfold, hadded]

theorem Symbol.unfold_eq_self (hs : ∀ n, s = .nonTerminal n → added.lookup n = none) :
    s.unfold added = [s] := by
  cases s with
  | terminal t => rfl
  | epsilon => rfl
  | nonTerminal n => rw [unfold, hs n rfl]

theorem Production.unfold_cons (hs : s.unfold added = [s]) :
    Production.unfold added (s :: p) = s :: p.unfold added := by
  rw [unfold, List.flatMap_cons, hs, List.singleton_append, unfold]

theorem Production.unfold_eq_self (hp : ∀ n, .nonTerminal n ∈ p → added.lookup n = none) :
    p.unfold added = p := by
  induction p with
  | nil => rfl
  | cons s rest ih =>
    have hfirst : s.unfold added = [s] :=
      Symbol.unfold_eq_self fun n hn ↦ hp n (hn ▸ List.mem_cons_self)
    rw [unfold_cons hfirst, ih fun n hn ↦ hp n (List.mem_cons_of_mem s hn)]

theorem Production.iterate_unfold_cons (hs : s.unfold added = [s]) (rounds : Nat) :
    (Production.unfold added)^[rounds] (s :: p) = s :: (Production.unfold added)^[rounds] p := by
  induction rounds generalizing p with
  | zero => rfl
  | succ rounds ih =>
    rw [Function.iterate_succ_apply, Function.iterate_succ_apply, unfold_cons hs, ih]

end Unfold

/-! ## One chain -/

/-- All the symbols of the right-hand sides of rules. -/
def rightSymbols (rules : List Rule) : List Symbol :=
  rules.flatMap fun rule ↦ rule.2.flatten

/-- The left-hand sides of rules, as symbols. -/
def leftSymbols (rules : List Rule) : List Symbol :=
  rules.map fun rule ↦ .nonTerminal rule.1

namespace Production

/-- What is left of a production, and the rules for the rest of it.  A long production keeps its
first symbol, and a new name takes the place of the others. -/
inductive Chain : Production → Production → List Rule → Prop
  | short {p : Production} : p.length ≤ 2 → Chain p p []
  | long {first : Symbol} {rest q : Production} {name : Name} {chain : List Rule} :
    2 ≤ rest.length → Chain rest q chain →
      Chain (first :: rest) [first, .nonTerminal name] ((name, [q]) :: chain)

variable {p q : Production} {chain added : List Rule}

theorem chain_split (base : Name) (declared : List Name) (fresh : FreshNames) (p : Production) :
    Chain p (split base declared fresh p).result (split base declared fresh p).added := by
  fun_induction split base declared fresh p with
  | case1 fresh first second third rest name state hminted tail ih => exact .long (by simp) ih
  | case2 fresh short hshort =>
    refine .short (Nat.le_of_not_lt fun hlong ↦ ?_)
    rcases short with _ | ⟨first, _ | ⟨second, _ | ⟨third, rest⟩⟩⟩
    · exact absurd hlong (by simp)
    · exact absurd hlong (by simp)
    · exact absurd hlong (by simp)
    · exact hshort first second third rest rfl

/-- One rule is added for each symbol after the second. -/
theorem Chain.length_eq (hchain : Chain p q chain) : chain.length = p.length - 2 := by
  induction hchain with
  | short hshort =>
    rw [List.length_nil]
    omega
  | long hlong hrest ih =>
    rw [List.length_cons, List.length_cons, ih]
    omega

/-- A chain holds the symbols of its production and mentions each new name once. -/
theorem Chain.perm (hchain : Chain p q chain) :
    q ++ rightSymbols chain ~ p ++ leftSymbols chain := by
  induction hchain with
  | short hshort => exact List.Perm.refl _
  | @long first rest q name chain hlong hrest ih =>
    have hrule : rightSymbols ((name, [q]) :: chain) = q ++ rightSymbols chain := by
      rw [rightSymbols, List.flatMap_cons, List.flatten_singleton, rightSymbols]
    calc [first, .nonTerminal name] ++ rightSymbols ((name, [q]) :: chain)
        = first :: .nonTerminal name :: (q ++ rightSymbols chain) := by rw [hrule]; rfl
      _ ~ first :: .nonTerminal name :: (rest ++ leftSymbols chain) := (ih.cons _).cons _
      _ ~ first :: (rest ++ .nonTerminal name :: leftSymbols chain) := List.perm_middle.symm.cons _

/-- As many rounds as the chain has rules give the production back, and so do more. -/
theorem Chain.iterate_unfold (hchain : Chain p q chain)
    (hnew : ∀ rule ∈ chain, added.lookup rule.1 = some rule.2)
    (hold : ∀ n, .nonTerminal n ∈ p → added.lookup n = none) {rounds : Nat}
    (hrounds : chain.length ≤ rounds) : (Production.unfold added)^[rounds] q = p := by
  induction hchain generalizing rounds with
  | short hshort => exact Function.iterate_fixed (unfold_eq_self hold) rounds
  | @long first rest q name chain hlong hrest ih =>
    obtain ⟨rounds, rfl⟩ : ∃ further, rounds = further + 1 :=
      Nat.exists_eq_add_one.2 (Nat.lt_of_lt_of_le (Nat.succ_pos _) hrounds)
    have hfirst : first.unfold added = [first] :=
      Symbol.unfold_eq_self fun n hn ↦ hold n (hn ▸ List.mem_cons_self)
    have hname : (Symbol.nonTerminal name).unfold added = q :=
      Symbol.unfold_of_lookup (hnew _ List.mem_cons_self)
    have hround : Production.unfold added [first, .nonTerminal name] = first :: q := by
      rw [unfold_cons hfirst, unfold, List.flatMap_singleton, hname]
    rw [Function.iterate_succ_apply, hround, iterate_unfold_cons hfirst]
    rw [ih (fun rule hrule ↦ hnew rule (List.mem_cons_of_mem _ hrule))
      (fun n hn ↦ hold n (List.mem_cons_of_mem first hn)) (Nat.le_of_succ_le_succ hrounds)]

end Production

/-! ## Chains one after the other -/

namespace Extended

variable {α β : Type} {change : α → β → List Rule → Prop} {l : List α} {m : List β}
  {added : List Rule}

/-- The elements of a list have been changed one by one, and what was added for each of them stands
in their order. -/
inductive Elementwise (change : α → β → List Rule → Prop) : List α → List β → List Rule → Prop
  | nil : Elementwise change [] [] []
  | cons {a : α} {b : β} {part further : List Rule} {l : List α} {m : List β} :
    change a b part → Elementwise change l m further →
      Elementwise change (a :: l) (b :: m) (part ++ further)

theorem elementwise_traverse {f : FreshNames → α → Extended β}
    (hf : ∀ state a, change a (f state a).result (f state a).added) (fresh : FreshNames)
    (l : List α) : Elementwise change l (traverse f fresh l).result (traverse f fresh l).added := by
  induction l generalizing fresh with
  | nil => exact .nil
  | cons a l ih => exact .cons (hf fresh a) (ih _)

/-- What undoes the change of every element undoes the change of the list. -/
theorem Elementwise.map_eq {restore : β → α} (helements : Elementwise change l m added)
    (hrestore : ∀ a ∈ l, ∀ b part, change a b part → part <+ added → restore b = a) :
    m.map restore = l := by
  induction helements with
  | nil => rfl
  | @cons a b part further l m hfirst hrest ih =>
    have ha : restore b = a :=
      hrestore a List.mem_cons_self b part hfirst (List.sublist_append_left part further)
    have hl : m.map restore = l := ih fun a' ha' b' part' hchange hsublist ↦
      hrestore a' (List.mem_cons_of_mem a ha') b' part' hchange
        (hsublist.trans (List.sublist_append_right part further))
    rw [List.map_cons, ha, hl]

/-- If every change brings in the new names once each, so do all of them together. -/
theorem Elementwise.perm {sources : α → List Symbol} {symbols : β → List Symbol}
    (helements : Elementwise change l m added)
    (hchange : ∀ a b part, change a b part →
      symbols b ++ rightSymbols part ~ sources a ++ leftSymbols part) :
    m.flatMap symbols ++ rightSymbols added ~ l.flatMap sources ++ leftSymbols added := by
  induction helements with
  | nil => exact List.Perm.refl _
  | @cons a b part further l m hfirst hrest ih =>
    refine List.perm_iff_count.2 fun s ↦ ?_
    have hpart := (hchange a b part hfirst).count_eq s
    have hfurther := ih.count_eq s
    simp only [rightSymbols, leftSymbols, List.flatMap_cons, List.flatMap_append, List.map_append,
      List.count_append] at hpart hfurther ⊢
    omega

end Extended

/-! ## The whole grammar -/

namespace Grammar

open Extended (Elementwise)

variable {g h : Grammar} {fresh : FreshNames}

/-- The productions of a rule are split one by one, each into a chain of its own that has one rule
for each symbol after the second. -/
def SplitsRule (source rule : Rule) (part : List Rule) : Prop :=
  rule.1 = source.1 ∧
    Elementwise (fun p q chain ↦ Production.Chain p q chain ∧ chain.length = p.length - 2)
      source.2 rule.2 part

theorem elementwise_shortened (g : Grammar) (fresh : FreshNames) :
    Elementwise SplitsRule g.rules (g.shortened fresh).rules (g.splitOff fresh) := by
  refine Extended.elementwise_traverse (fun state rule ↦ ⟨rfl, ?_⟩) fresh g.rules
  refine Extended.elementwise_traverse (fun inner p ↦ ?_) state rule.2
  have hchain := Production.chain_split rule.1 g.names inner p
  exact ⟨hchain, hchain.length_eq⟩

theorem rightSymbols_shortened_perm (g : Grammar) (fresh : FreshNames) :
    rightSymbols (g.shortened fresh).rules ++ rightSymbols (g.splitOff fresh) ~
      rightSymbols g.rules ++ leftSymbols (g.splitOff fresh) := by
  refine (elementwise_shortened g fresh).perm fun source rule part hrule ↦ ?_
  have hproductions : rule.2.flatMap id ++ rightSymbols part ~
      source.2.flatMap id ++ leftSymbols part := hrule.2.perm fun _ _ _ hchain ↦ hchain.1.perm
  rwa [List.flatMap_id, List.flatMap_id] at hproductions

/-- A valid grammar mentions declared names only. -/
theorem Valid.notMem_rightSymbols (hvalid : g.Valid) {n : Name} (hn : n ∉ g.names) :
    .nonTerminal n ∉ rightSymbols g.rules := by
  intro hmember
  obtain ⟨rule, hrule, hmember⟩ := List.mem_flatMap.1 hmember
  obtain ⟨p, hp, hmentioned⟩ := List.mem_flatten.1 hmember
  exact hn ((hvalid rule hrule p hp).declared_of_mem n hmentioned)

section Result

variable {fresh' : FreshNames} (hresult : g.binarize fresh = .ok (h, fresh'))
include hresult

theorem notMem_names_of_mem_splitOff {rule : Rule} (hrule : rule ∈ g.splitOff fresh) :
    rule.1 ∉ g.names := by
  rw [← names_shortened g fresh]
  exact notMem_names_of_mem_added (rules_binarize hresult) hrule

theorem nodup_map_fst_splitOff : ((g.splitOff fresh).map Prod.fst).Nodup := by
  have hdistinct := h.names_nodup
  rw [names_binarize hresult] at hdistinct
  exact (List.nodup_append.1 hdistinct).2.1

theorem count_leftSymbols_splitOff {rule : Rule} (hrule : rule ∈ g.splitOff fresh) :
    (leftSymbols (g.splitOff fresh)).count (.nonTerminal rule.1) = 1 := by
  have hleft : leftSymbols (g.splitOff fresh) =
      ((g.splitOff fresh).map Prod.fst).map .nonTerminal := by
    rw [leftSymbols, List.map_map]
    rfl
  have hdistinct : (leftSymbols (g.splitOff fresh)).Nodup := by
    rw [hleft]
    exact (nodup_map_fst_splitOff hresult).map fun _ _ hsame ↦ Symbol.nonTerminal.inj hsame
  exact List.count_eq_one_of_mem hdistinct (List.mem_map_of_mem hrule)

/-- A new name is mentioned once in the whole grammar. -/
theorem count_rightSymbols_binarize {rule : Rule} (hrule : rule ∈ g.splitOff fresh) :
    (rightSymbols h.rules).count (.nonTerminal rule.1) = 1 := by
  have hvalid := (binarize_eq_ok_iff.1 hresult).1
  have hold := hvalid.notMem_rightSymbols (notMem_names_of_mem_splitOff hresult hrule)
  calc (rightSymbols h.rules).count (.nonTerminal rule.1)
      = (rightSymbols (g.shortened fresh).rules ++
          rightSymbols (g.splitOff fresh)).count (.nonTerminal rule.1) := by
        rw [rules_binarize hresult, rightSymbols, List.flatMap_append, rightSymbols, rightSymbols]
    _ = (rightSymbols g.rules ++ leftSymbols (g.splitOff fresh)).count (.nonTerminal rule.1) :=
        (rightSymbols_shortened_perm g fresh).count_eq _
    _ = 1 := by
        rw [List.count_append, List.count_eq_zero_of_not_mem hold,
          count_leftSymbols_splitOff hresult hrule]

/-- Unfolding the new names gives the rules back that were split. -/
theorem map_unfold_shortened {rounds : Nat} (hrounds : (g.splitOff fresh).length ≤ rounds) :
    (g.shortened fresh).rules.map (fun rule ↦
      (rule.1, rule.2.map (Production.unfold (g.splitOff fresh))^[rounds])) = g.rules := by
  have hvalid := (binarize_eq_ok_iff.1 hresult).1
  refine (elementwise_shortened g fresh).map_eq fun source hsource rule part hrule hpart ↦ ?_
  refine Prod.ext hrule.1 (hrule.2.map_eq fun p hp q chain hchain hsublist ↦ ?_)
  have hadded : chain <+ g.splitOff fresh := hsublist.trans hpart
  refine hchain.1.iterate_unfold (fun new hnew ↦ ?_) (fun n hn ↦ ?_)
    (Nat.le_trans hadded.length_le hrounds)
  · exact (lookup_eq_some_iff (nodup_map_fst_splitOff hresult)).2 (hadded.subset hnew)
  · apply lookup_eq_none_of_notMem
    intro hnew
    obtain ⟨new, hrule, rfl⟩ := List.mem_map.1 hnew
    have hdeclared := (hvalid source hsource p hp).declared_of_mem new.1 hn
    exact notMem_names_of_mem_splitOff hresult hrule hdeclared

end Result

/-- A split grammar is the grammar that it was made from, written in another way.  The rules of
`short` take the place of its rules, and those of `added` follow them. -/
structure FaithfulSplit (g h : Grammar) (short added : List Rule) : Prop where
  rules_eq : h.rules = short ++ added
  length_le : ∀ rule ∈ h.rules, ∀ p ∈ rule.2, p.length ≤ 2
  chains : Elementwise SplitsRule g.rules short added
  single : ∀ rule ∈ added, rule.1 ∉ g.names ∧ ∃ p : Production, rule.2 = [p] ∧ p.length = 2
  count_eq : ∀ rule ∈ added, (rightSymbols h.rules).count (.nonTerminal rule.1) = 1
  restored : ∀ rounds, added.length ≤ rounds →
    short.map (fun rule ↦ (rule.1, rule.2.map (Production.unfold added)^[rounds])) = g.rules
  generates_iff : ∀ n ∈ g.names, ∀ w, h.Generates n w ↔ g.Generates n w

/-- Splitting never fails on a valid grammar, and whatever names the generator has minted before,
nothing of the grammar is lost. -/
theorem faithfulSplit_binarize (hvalid : g.Valid) (fresh : FreshNames) :
    ∃ h last short added, g.binarize fresh = .ok (h, last) ∧ FaithfulSplit g h short added := by
  obtain ⟨h, hresult⟩ := exists_binarize_eq_ok hvalid fresh
  refine ⟨h, _, (g.shortened fresh).rules, g.splitOff fresh, hresult,
    ⟨rules_binarize hresult, fun rule hrule p hp ↦ ?_, elementwise_shortened g fresh,
      fun rule hrule ↦ ⟨notMem_names_of_mem_splitOff hresult hrule, exists_of_mem_splitOff hrule⟩,
      fun _ hrule ↦ count_rightSymbols_binarize hresult hrule,
      fun _ hrounds ↦ map_unfold_shortened hresult hrounds,
      fun _ hn _ ↦ generates_binarize_iff hresult hn⟩⟩
  have hmember : p ∈ h.productionsOf rule.1 := mem_productionsOf_iff.2 ⟨rule.2, hrule, hp⟩
  rcases mem_productionsOf_binarize hresult hmember with ⟨-, hshort⟩ | hlength
  · exact hshort
  · exact Nat.le_of_eq hlength

/-- Some of the names that a generator would mint are declared. -/
def lengthy : Grammar where
  rules := [
    ("S", [[.terminal "a", .nonTerminal "S1", .nonTerminal "S", .terminal "a", .terminal "b"],
      [.nonTerminal "S1"], [.terminal "b", .terminal "b", .nonTerminal "S1"]]),
    ("S1", [[.epsilon], [.nonTerminal "S1", .terminal "S3", .nonTerminal "S"]])]

def linked : Grammar where
  rules := [
    ("S", [[.terminal "a", .nonTerminal "S3"], [.nonTerminal "S1"],
      [.terminal "b", .nonTerminal "S6"]]),
    ("S1", [[.epsilon], [.nonTerminal "S1", .nonTerminal "S17"]]),
    ("S3", [[.nonTerminal "S1", .nonTerminal "S4"]]),
    ("S4", [[.nonTerminal "S", .nonTerminal "S5"]]),
    ("S5", [[.terminal "a", .terminal "b"]]),
    ("S6", [[.terminal "b", .nonTerminal "S1"]]),
    ("S17", [[.terminal "S3", .nonTerminal "S"]])]

/-- The generator has minted two names for other grammars, the next number among them. -/
theorem faithfulSplit_binarize_lengthy :
    lengthy.Valid ∧
      lengthy.binarize ⟨1, ["S2", "S0"]⟩ =
        .ok (linked, ⟨8, ["S17", "S6", "S5", "S4", "S3", "S2", "S0"]⟩) ∧
      ∃ short added, FaithfulSplit lengthy linked short added := by
  have hvalid : lengthy.Valid := validate_eq_ok_iff.1 (by rfl)
  have hresult : lengthy.binarize ⟨1, ["S2", "S0"]⟩ =
    .ok (linked, ⟨8, ["S17", "S6", "S5", "S4", "S3", "S2", "S0"]⟩) := by rfl
  obtain ⟨h, last, short, added, hsame, hsplit⟩ :=
    faithfulSplit_binarize hvalid ⟨1, ["S2", "S0"]⟩
  obtain ⟨rfl, -⟩ := Prod.mk.inj (Except.ok.inj (hresult.symm.trans hsame))
  exact ⟨hvalid, hresult, short, added, hsplit⟩

end Grammar

end ContextFree
