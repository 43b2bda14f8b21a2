import ContextFree.FreshNames
import ContextFree.Proofs.Validity

/-!
# Minted names and appended rules

A minted name ends in a number, so it is no spelling of the empty string.

Inserting rules for fresh names succeeds exactly when the rules can be appended to a grammar with
its left-hand sides still distinct.  Afterwards the old names keep their productions, the new ones
have those of their rules, and the start symbol is the same.

A change of form that brings in names for parts of productions is sound for every reading in which
the new names mean what their rules say; `generates_iff_of_replaced` turns that into an equality of
languages.
-/

namespace ContextFree

namespace FreshNames

theorem exists_numbered_of_mint {fresh state : FreshNames} {base name : Name}
    {declared : List Name} (hminted : fresh.mint base declared = (name, state)) :
    ∃ number, name = numbered base number :=
  ⟨_, (congrArg Prod.fst hminted).symm⟩

/-- A number is written in digits, and in one at least. -/
theorem exists_toList_numbered (base : Name) (number : Nat) :
    ∃ c rest, (numbered base number).toList = base.toList ++ c :: rest ∧
      ∀ d ∈ c :: rest, d.isDigit = true := by
  have hne : Nat.toDigits 10 number ≠ [] := Nat.toDigits_ne_nil
  obtain ⟨c, rest, hdigits⟩ := List.exists_cons_of_ne_nil hne
  refine ⟨c, rest, ?_, fun d hd ↦ ?_⟩
  · rw [numbered, String.toList_append, Nat.repr, String.toList_ofList, hdigits]
  · exact Nat.isDigit_of_mem_toDigits (by decide) (by decide) (hdigits ▸ hd)

theorem exists_isDigit_mem_numbered (base : Name) (number : Nat) :
    ∃ d ∈ (numbered base number).toList, d.isDigit = true := by
  obtain ⟨d, rest, hchars, hdigits⟩ := exists_toList_numbered base number
  refine ⟨d, ?_, hdigits d List.mem_cons_self⟩
  rw [hchars]
  exact List.mem_append_right _ List.mem_cons_self

/-- A minted name has a digit in it, and no spelling of the empty string has. -/
theorem numbered_notMem_epsilonSpellings (base : Name) (number : Nat) :
    numbered base number ∉ epsilonSpellings := by
  intro hspelling
  have hnoDigit : epsilonSpellings.all (fun name ↦ name.toList.all (!·.isDigit)) = true := by decide
  obtain ⟨d, hd, hdigit⟩ := exists_isDigit_mem_numbered base number
  have hother := List.all_eq_true.1 (List.all_eq_true.1 hnoDigit _ hspelling) d hd
  rw [hdigit] at hother
  exact Bool.noConfusion hother

end FreshNames

namespace Grammar

variable {g h : Grammar}

/-- Further names are new. -/
theorem notMem_of_names_append {n : Name} {further : List Name}
    (hnames : h.names = g.names ++ further) (hn : n ∈ further) : n ∉ g.names := by
  intro hold
  have hdistinct := h.names_nodup
  rw [hnames] at hdistinct
  exact (List.nodup_append.1 hdistinct).2.2 n hold n hn rfl

theorem insertFresh_eq_ok_iff {name : Name} {productions : List Production} :
    g.insertFresh name productions = .ok h ↔ h.rules = g.rules ++ [(name, productions)] := by
  unfold insertFresh
  split
  · next hname =>
    simp only [reduceCtorEq, false_iff]
    intro hrules
    have hnames : h.names = g.names ++ [name] := by
      rw [names, hrules, List.map_append]
      rfl
    exact notMem_of_names_append hnames (List.mem_singleton_self name) hname
  · next hname =>
    rw [Except.ok.injEq, Grammar.ext_iff, eq_comm]
    rfl

theorem insertAllFresh_eq_ok_iff {rules : List Rule} :
    g.insertAllFresh rules = .ok h ↔ h.rules = g.rules ++ rules := by
  induction rules generalizing g with
  | nil =>
    have hnone : g.insertAllFresh [] = .ok g := rfl
    rw [hnone, Except.ok.injEq, List.append_nil, ← Grammar.ext_iff, eq_comm]
  | cons rule rules ih =>
    have hstep : g.insertAllFresh (rule :: rules) =
        g.insertFresh rule.1 rule.2 >>= fun next ↦ next.insertAllFresh rules := rfl
    rw [hstep, bind_eq_ok_iff]
    constructor
    · intro hresult
      obtain ⟨next, hnext, hrest⟩ := hresult
      rw [ih.1 hrest, insertFresh_eq_ok_iff.1 hnext, List.append_assoc, List.singleton_append]
    · intro hrules
      have hsplit : h.rules = (g.rules ++ [rule]) ++ rules := by
        rw [hrules, List.append_assoc, List.singleton_append]
      have hdistinct : ((g.rules ++ [rule]).map Prod.fst).Nodup := by
        have hall := h.distinct
        rw [hsplit, List.map_append] at hall
        exact (List.nodup_append.1 hall).1
      exact ⟨⟨g.rules ++ [rule], hdistinct⟩, insertFresh_eq_ok_iff.2 rfl, ih.2 hsplit⟩

/-- Further names leave the start symbol as it is. -/
theorem start?_of_names_append {n : Name} {further : List Name}
    (hnames : h.names = g.names ++ further) (hn : n ∈ g.names) : h.start? = g.start? := by
  have hfirst : g.names.head?.isSome := List.isSome_head?.2 (List.ne_nil_of_mem hn)
  rw [start?, start?, hnames, List.head?_append, Option.or_of_isSome hfirst]

section Appended

variable {added : List Rule} (hrules : h.rules = g.rules ++ added)
include hrules

theorem names_of_append : h.names = g.names ++ added.map Prod.fst := by
  rw [names, hrules, List.map_append, names]

theorem mem_productionsOf_of_append {n : Name} {p : Production} :
    p ∈ h.productionsOf n ↔
      p ∈ g.productionsOf n ∨ ∃ productions, (n, productions) ∈ added ∧ p ∈ productions := by
  simp only [mem_productionsOf_iff, hrules, List.mem_append, or_and_right, exists_or]

theorem productionsOf_of_append {n : Name} (hn : n ∈ g.names) :
    h.productionsOf n = g.productionsOf n :=
  productionsOf_eq (hrules ▸ List.mem_append_left added (rule_mem hn))

theorem productionsOf_of_mem_added {n : Name} {productions : List Production}
    (hmember : (n, productions) ∈ added) : h.productionsOf n = productions :=
  productionsOf_eq (hrules ▸ List.mem_append_right g.rules hmember)

/-- The names of appended rules are new. -/
theorem notMem_names_of_mem_added {n : Name} {productions : List Production}
    (hmember : (n, productions) ∈ added) : n ∉ g.names :=
  notMem_of_names_append (names_of_append hrules) (List.mem_map_of_mem hmember)

end Appended

/-! ## Productions in terms of new names -/

/-- Each new name means what its rule reads. -/
def Solves (added : List Rule) (meaning : Name → List Name → Prop) : Prop :=
  ∀ rule ∈ added, ∀ w, meaning rule.1 w ↔ ∃ q ∈ rule.2, Reads meaning q w

/-- Two productions read the same strings whenever the new names mean what their rules say. -/
def Alike (added : List Rule) (p q : Production) : Prop :=
  ∀ meaning, Solves added meaning → ∀ w, Reads meaning p w ↔ Reads meaning q w

theorem Solves.subset {part added : List Rule} {meaning : Name → List Name → Prop}
    (hsolves : Solves added meaning) (hpart : part ⊆ added) : Solves part meaning :=
  fun rule hrule ↦ hsolves rule (hpart hrule)

theorem Alike.symm {added : List Rule} {p q : Production} (halike : Alike added p q) :
    Alike added q p :=
  fun meaning hsolves w ↦ (halike meaning hsolves w).symm

theorem Alike.superset {part added : List Rule} {p q : Production} (halike : Alike part p q)
    (hpart : part ⊆ added) : Alike added p q :=
  fun meaning hsolves ↦ halike meaning (hsolves.subset hpart)

theorem solves_generates {added : List Rule}
    (hmember : ∀ rule ∈ added, h.productionsOf rule.1 = rule.2) : Solves added h.Generates := by
  intro rule hrule w
  rw [generates_iff_reads, hmember rule hrule]

/-- Two grammars with the same new rules: the second generates what the first does if it has, for
each old production of the first, one that reads alike. -/
theorem Generates.of_alike {old replaced : Grammar} {added : List Rule} {n : Name} {w : List Name}
    (hg : g.rules = old.rules ++ added) (hh : h.rules = replaced.rules ++ added)
    (halike : ∀ m, ∀ p ∈ old.productionsOf m, ∃ q ∈ replaced.productionsOf m, Alike added p q)
    (hgenerates : g.Generates n w) : h.Generates n w := by
  have hsolves : Solves added h.Generates :=
    solves_generates fun rule hrule ↦ productionsOf_of_mem_added hh hrule
  revert hgenerates
  apply Generates.transfer
  intro m p hp u hu
  rcases (mem_productionsOf_of_append hg).1 hp with hold | hnew
  · obtain ⟨q, hq, hreads⟩ := halike m p hold
    exact ⟨q, (mem_productionsOf_of_append hh).2 (.inl hq), (hreads _ hsolves u).1 hu⟩
  · exact ⟨p, (mem_productionsOf_of_append hh).2 (.inr hnew), hu⟩

/-- If the productions of a valid grammar give way to productions that read alike, the old
non-terminals generate what they did. -/
theorem generates_iff_of_replaced {replaced : Grammar} {added : List Rule} {n : Name}
    {w : List Name} (hvalid : g.Valid) (hnames : replaced.names = g.names)
    (hrules : h.rules = replaced.rules ++ added)
    (hforth : ∀ m, ∀ p ∈ g.productionsOf m, ∃ q ∈ replaced.productionsOf m, Alike added p q)
    (hback : ∀ m, ∀ q ∈ replaced.productionsOf m, ∃ p ∈ g.productionsOf m, Alike added p q)
    (hn : n ∈ g.names) : h.Generates n w ↔ g.Generates n w := by
  have hdistinct : ((g.rules ++ added).map Prod.fst).Nodup := by
    have hh := h.distinct
    have hfirst : replaced.rules.map Prod.fst = g.rules.map Prod.fst := hnames
    rwa [hrules, List.map_append, hfirst, ← List.map_append] at hh
  -- Between the two stands the source with the new rules, its productions still as they were.
  obtain ⟨extended, hextended⟩ : ∃ extended : Grammar, extended.rules = g.rules ++ added :=
    ⟨⟨g.rules ++ added, hdistinct⟩, rfl⟩
  have hreplaced : h.Generates n w ↔ extended.Generates n w := by
    constructor
    · apply Generates.of_alike hrules hextended
      intro m q hq
      obtain ⟨p, hp, halike⟩ := hback m q hq
      exact ⟨p, hp, halike.symm⟩
    · exact Generates.of_alike hextended hrules hforth
  have hsource : extended.Generates n w ↔ g.Generates n w :=
    generates_iff_of_extends hvalid.mentionsDeclared
      (fun m hm ↦ productionsOf_of_append hextended hm) hn
  calc h.Generates n w
      ↔ extended.Generates n w := hreplaced
    _ ↔ g.Generates n w := hsource

end Grammar

end ContextFree
