import Mathlib.Data.List.Nodup
import ContextFree.Proofs.Chomsky
import ContextFree.Proofs.Minting
import ContextFree.Proofs.Repetitions
import ContextFree.Proofs.UnitReachability

/-!
# Grammars that the change to Chomsky normal form leaves alone

Each pass leaves a grammar alone that has nothing for it to do and lists no production twice.  A
grammar in Chomsky normal form has nothing to do for any of them, unless the start symbol has the
production `λ` and is used.

The last two passes drop no repetitions, but they bring none in: productions that differ are split
and isolated into productions that differ, as the minted names are new and distinct.  So no
production is listed twice in the outcome, in Chomsky normal form or not.
-/

namespace ContextFree

namespace Production

theorem nearlyChomsky_of_isChomsky {declared : List Name} {isStart : Bool} {p : Production}
    (hp : p.isChomsky declared isStart = true) : p.NearlyChomsky declared := by
  unfold isChomsky at hp
  split at hp
  · exact .terminal _
  · rw [Bool.and_eq_true, List.contains_iff_mem, List.contains_iff_mem] at hp
    exact .pair hp.1 hp.2
  · exact .epsilon
  · exact absurd hp Bool.false_ne_true

theorem NearlyChomsky.length_le {declared : List Name} {p : Production}
    (hp : p.NearlyChomsky declared) : p.length ≤ 2 := by
  cases hp <;> simp [Production.epsilon]

/-- Beside another symbol there is no terminal. -/
theorem NearlyChomsky.terminal_notMem {declared : List Name} {p : Production} {t : Name}
    (hp : p.NearlyChomsky declared) (hlong : 1 < p.length) : Symbol.terminal t ∉ p := by
  cases hp with
  | terminal t => exact absurd hlong (Nat.lt_irrefl 1)
  | pair hfirst hsecond => simp
  | unit n => exact absurd hlong (Nat.lt_irrefl 1)
  | epsilon => exact absurd hlong (Nat.lt_irrefl 1)

/-- A production of one of the four forms is well formed if a unit production is not meant. -/
theorem NearlyChomsky.wellFormed {declared : List Name} {p : Production}
    (hp : p.NearlyChomsky declared) (hunit : ∀ n, p ≠ [.nonTerminal n]) :
    p.WellFormed declared := by
  cases hp with
  | terminal t => exact ⟨by simp, by simp, by simp⟩
  | pair hfirst hsecond =>
    refine ⟨by simp, by simp, fun n hn ↦ ?_⟩
    simp only [List.mem_cons, Symbol.nonTerminal.injEq, List.not_mem_nil, or_false] at hn
    rcases hn with rfl | rfl
    · exact hfirst
    · exact hsecond
  | unit n => exact absurd rfl (hunit n)
  | epsilon => exact Production.wellFormed_epsilon declared

/-- A production that mentions none of the names has no variant. -/
theorem nullVariants_eq_self {isStart : Bool} {nullable : List Name} {p : Production}
    (hkept : p = epsilon → isStart = true) (hnone : ∀ n ∈ nullable, Symbol.nonTerminal n ∉ p) :
    p.nullVariants isStart nullable = [p] := by
  have hvariants : nullable.filterMap (p.nullVariant? isStart) = [] := by
    rw [List.filterMap_eq_nil_iff]
    intro n hn
    rw [nullVariant?, if_neg (hnone n hn)]
  have hstays : ¬ (p = epsilon ∧ isStart = false) := by
    intro hdropped
    rw [hkept hdropped.1] at hdropped
    exact Bool.noConfusion hdropped.2
  rw [nullVariants, if_neg hstays, hvariants, List.nil_append]

end Production

/-- Nothing changes if every element is left as it is without minting. -/
theorem Extended.traverse_eq_self {α : Type} {f : FreshNames → α → Extended α} {l : List α}
    {fresh : FreshNames} (hsame : ∀ a ∈ l, f fresh a = ⟨a, [], fresh⟩) :
    traverse f fresh l = ⟨l, [], fresh⟩ := by
  induction l with
  | nil => rfl
  | cons a l ih =>
    have hfirst := hsame a List.mem_cons_self
    have hrest := ih fun b hb ↦ hsame b (List.mem_cons_of_mem a hb)
    simp only [traverse, hfirst, hrest, List.append_nil]

namespace Grammar

variable {g h c : Grammar} {fresh fresh' : FreshNames} {n : Name} {p : Production}

/-! ## What each pass leaves alone -/

theorem eliminateNull_eq_self (hvalid : g.Valid) (honce : g.ListsOnce) (hstart : g.EpsilonAtStart)
    (hunused : g.EmptyStartUnused) : g.eliminateNull g.nullable = .ok g := by
  refine eliminateNull_eq_ok_iff.2 ⟨hvalid, (mapProductions_eq_self fun n ↦ ?_).symm⟩
  refine eraseDups_flatMap_eq_self (listsOnce_iff.1 honce n) fun p hp ↦ ?_
  apply Production.nullVariants_eq_self
  · intro hepsilon
    exact beq_iff_eq.2 (hstart n (hepsilon ▸ hp))
  · intro m hm
    have hepsilon := mem_nullable_iff.1 hm
    exact hunused m (hstart m hepsilon) hepsilon n p hp

theorem inlineUnits_eq_self (honce : g.ListsOnce)
    (hunits : ∀ m n, [.nonTerminal n] ∉ g.productionsOf m) (n : Name) : g.inlineUnits n = g := by
  apply modify_eq_self
  refine eraseDups_flatMap_eq_self (listsOnce_iff.1 honce n) fun p hp ↦ ?_
  have hnone : p.unitTarget? = none := by
    rw [Option.eq_none_iff_forall_ne_some]
    intro target htarget
    exact hunits n target (Production.unitTarget?_eq_some_iff.1 htarget ▸ hp)
  rw [withoutUnit, hnone]

theorem eliminateUnits_eq_self (hvalid : g.Valid) (honce : g.ListsOnce)
    (hunits : ∀ m n, [.nonTerminal n] ∉ g.productionsOf m) : g.eliminateUnits = .ok g := by
  refine eliminateUnits_eq_ok_iff.2 ⟨hvalid, unitCycle?_eq_none hunits, ?_⟩
  exact (foldl_inlineUnits_induction (motive := fun k ↦ k = g) g.names
    (fun k left hk ↦ hk ▸ inlineUnits_eq_self honce hunits left) rfl).symm

theorem binarize_eq_self (hvalid : g.Valid)
    (hshort : ∀ n, ∀ p ∈ g.productionsOf n, p.length ≤ 2) (fresh : FreshNames) :
    g.binarize fresh = .ok (g, fresh) := by
  have hrules : splitRules g.names fresh g.rules = ⟨g.rules, [], fresh⟩ := by
    apply Extended.traverse_eq_self
    intro rule hrule
    have hrule : Extended.traverse (Production.split rule.1 g.names) fresh rule.2 =
        ⟨rule.2, [], fresh⟩ := by
      apply Extended.traverse_eq_self
      intro p hp
      exact Production.split_of_length_le (hshort rule.1 p (productionsOf_eq hrule ▸ hp))
    rw [splitRule, hrule]
  have hshortened : (g.shortened fresh).rules = g.rules := congrArg Extended.result hrules
  have hnone : g.splitOff fresh = [] := congrArg Extended.added hrules
  refine binarize_eq_ok_iff.2 ⟨hvalid, ?_, (congrArg Extended.fresh hrules).symm⟩
  rw [hshortened, hnone, List.append_nil]

theorem isolateTerminals_eq_self (hvalid : g.Valid)
    (hapart : ∀ n, ∀ p ∈ g.productionsOf n, 1 < p.length → ∀ t, Symbol.terminal t ∉ p)
    (fresh : FreshNames) : g.isolateTerminals fresh = .ok (g, fresh) := by
  have hmixed : g.mixedTerminals = [] := by
    apply List.eq_nil_iff_forall_not_mem.2
    intro t ht
    obtain ⟨n, p, hp, hlong, hmember⟩ := mem_mixedTerminals_iff.1 ht
    exact hapart n p hp hlong t hmember
  have hreplace : (TerminalTable.replace []) = id := by
    funext s
    cases s <;> rfl
  have hisolated : g.isolated [] = g := by
    apply mapProductions_eq_self
    intro n
    refine map_eq_self_iff.2 fun p _ ↦ ?_
    rw [Production.isolate, hreplace, List.map_id, ite_self]
  refine isolateTerminals_eq_ok_iff.2 ⟨hvalid, ?_, ?_⟩
  · rw [terminalTable, hmixed, TerminalTable.ofTerminals, hisolated]
    exact (List.append_nil g.rules).symm
  · rw [hmixed, TerminalTable.ofTerminals]

/-! ## Grammars in Chomsky normal form -/

theorem of_isChomsky (hform : g.isChomsky = true) :
    (∀ n, ∀ p ∈ g.productionsOf n, p.NearlyChomsky g.names) ∧
      (∀ m n, [.nonTerminal n] ∉ g.productionsOf m) ∧ g.EpsilonAtStart := by
  have hnearly : ∀ n, ∀ p ∈ g.productionsOf n, p.NearlyChomsky g.names := by
    intro n p hp
    obtain ⟨productions, hrule, hmember⟩ := mem_productionsOf_iff.1 hp
    simp only [isChomsky, List.all_eq_true] at hform
    exact Production.nearlyChomsky_of_isChomsky (hform _ hrule p hmember)
  exact ⟨hnearly, (isChomsky_iff_of_nearlyChomsky hnearly).1 hform⟩

theorem valid_of_isChomsky (hform : g.isChomsky = true) : g.Valid := by
  obtain ⟨hnearly, hunits, -⟩ := of_isChomsky hform
  refine valid_iff.2 fun n p hp ↦ (hnearly n p hp).wellFormed fun m hunit ↦ ?_
  exact hunits n m (hunit ▸ hp)

/-- The two passes that mint names leave a grammar in Chomsky normal form and the generator as they
are. -/
theorem mint_nothing_of_isChomsky (hform : g.isChomsky = true) (fresh : FreshNames) :
    g.binarize fresh = .ok (g, fresh) ∧ g.isolateTerminals fresh = .ok (g, fresh) := by
  have hvalid := valid_of_isChomsky hform
  obtain ⟨hnearly, -, -⟩ := of_isChomsky hform
  constructor
  · exact binarize_eq_self hvalid (fun n p hp ↦ (hnearly n p hp).length_le) fresh
  · exact isolateTerminals_eq_self hvalid
      (fun n p hp hlong t ↦ (hnearly n p hp).terminal_notMem hlong) fresh

/-- A grammar in Chomsky normal form goes through all four passes as it is. -/
theorem toChomsky_eq_self (hform : g.isChomsky = true) (honce : g.ListsOnce)
    (hunused : g.EmptyStartUnused) : g.toChomsky = .ok g := by
  have hvalid := valid_of_isChomsky hform
  obtain ⟨-, hunits, hstart⟩ := of_isChomsky hform
  have hminting := mint_nothing_of_isChomsky hform {}
  exact toChomsky_eq_ok_iff.2 ⟨g, g, g, {}, {}, eliminateNull_eq_self hvalid honce hstart hunused,
    eliminateUnits_eq_self hvalid honce hunits, hminting.1, hminting.2⟩

/-! ## No repetitions -/

theorem listsOnce_eliminateUnits (hresult : g.eliminateUnits = .ok h) : h.ListsOnce := by
  rw [(eliminateUnits_eq_ok_iff.1 hresult).2.2]
  exact listsOnce_foldl g.names
    (fun k n ↦ nodup_productionsOf_modify k n fun productions ↦
      productions.flatMap (k.withoutUnit n))
    (fun _ _ _ hne ↦ productionsOf_inlineUnits_of_ne hne) (List.Subset.refl _)

end Grammar

namespace Production

variable {base : Name} {declared : List Name} {p : Production}

/-- A short production is left alone, and a long one ends in a new name afterwards. -/
theorem split_cases (base : Name) (declared : List Name) (fresh : FreshNames) (p : Production) :
    (split base declared fresh p).result = p ∨
      ∃ first, ∃ rule ∈ (split base declared fresh p).added,
        (split base declared fresh p).result = [first, .nonTerminal rule.1] := by
  match p with
  | [] => exact .inl rfl
  | [_] => exact .inl rfl
  | [_, _] => exact .inl rfl
  | first :: second :: third :: rest => exact .inr ⟨first, _, List.mem_cons_self, rfl⟩

/-- Productions that differ are split into productions that differ. -/
theorem nodup_traverse_split {productions : List Production} (fresh : FreshNames)
    (hdeclared : ∀ p ∈ productions, ∀ m, Symbol.nonTerminal m ∈ p → m ∈ declared)
    (honce : productions.Nodup) :
    (Extended.traverse (split base declared) fresh productions).result.Nodup := by
  induction productions generalizing fresh with
  | nil => exact List.nodup_nil
  | cons p rest ih =>
    obtain ⟨hp, hrest⟩ := List.nodup_cons.1 honce
    have hmints := mints_traverse_split base declared fresh (p :: rest)
    rw [Extended.traverse, List.map_append] at hmints
    refine List.nodup_cons.2
      ⟨fun hagain ↦ ?_, ih _ (fun q hq ↦ hdeclared q (List.mem_cons_of_mem p hq)) hrest⟩
    obtain ⟨q, hq, state, hsame, hadded⟩ := Extended.exists_of_mem_traverse_result hagain
    -- A new name in an old production would be declared.
    have hnew : ∀ r ∈ p :: rest, ∀ rule first,
        rule ∈ (split base declared fresh p).added ∨ rule ∈ (split base declared state q).added →
          r ≠ [first, .nonTerminal rule.1] := by
      intro r hr rule first hrule hform
      have hmember : rule.1 ∈ declared := hdeclared r hr rule.1 (by simp [hform])
      refine (hmints.notMem (List.mem_append.2 ?_)).1 hmember
      exact hrule.imp List.mem_map_of_mem fun hlater ↦ List.mem_map_of_mem (hadded hlater)
    rcases split_cases base declared fresh p with hleft | ⟨first, rule, hrule, hleft⟩
    · rcases split_cases base declared state q with hright | ⟨first', rule', hrule', hright⟩
      · rw [hleft, hright] at hsame
        exact hp (hsame ▸ hq)
      · rw [hleft, hright] at hsame
        exact hnew p List.mem_cons_self rule' first' (.inr hrule') hsame.symm
    · rcases split_cases base declared state q with hright | ⟨first', rule', hrule', hright⟩
      · rw [hleft, hright] at hsame
        exact hnew q (List.mem_cons_of_mem p hq) rule first (.inl hrule) hsame
      · have hname : rule'.1 = rule.1 := by
          rw [hleft, hright] at hsame
          simpa using (List.cons.inj hsame).2
        exact (List.nodup_append.1 hmints.nodup).2.2 rule.1 (List.mem_map_of_mem hrule) rule'.1
          (List.mem_map_of_mem (hadded hrule')) hname.symm

end Production

namespace TerminalTable

variable {table : TerminalTable}

/-- Puts the terminals in the place of their new non-terminals again. -/
def restore (table : TerminalTable) : Symbol → Symbol
  | .nonTerminal name =>
    match (table.map Prod.swap).lookup name with
    | some terminal => .terminal terminal
    | none => .nonTerminal name
  | symbol => symbol

theorem restore_nonTerminal_of_notMem {name : Name} (hname : name ∉ table.map Prod.snd) :
    table.restore (.nonTerminal name) = .nonTerminal name := by
  have hnone : (table.map Prod.swap).lookup name = none := by
    apply Grammar.lookup_eq_none_of_notMem
    rwa [List.map_map]
  rw [restore, hnone]

theorem restore_nonTerminal_of_mem {terminal name : Name}
    (hdistinct : (table.map Prod.snd).Nodup) (hentry : (terminal, name) ∈ table) :
    table.restore (.nonTerminal name) = .terminal terminal := by
  have hkeys : ((table.map Prod.swap).map Prod.fst).Nodup := by
    rwa [List.map_map]
  have hsome : (table.map Prod.swap).lookup name = some terminal :=
    (Grammar.lookup_eq_some_iff hkeys).2 (List.mem_map_of_mem (f := Prod.swap) hentry)
  rw [restore, hsome]

/-- Replacing loses nothing, if the new names are distinct and new. -/
theorem restore_replace {s : Symbol} (hdistinct : (table.map Prod.snd).Nodup)
    (hs : ∀ n, s = .nonTerminal n → n ∉ table.map Prod.snd) :
    table.restore (table.replace s) = s := by
  rcases table.replace_eq_or s with hsame | ⟨terminal, name, rfl, hreplace, hrule⟩
  · rw [hsame]
    cases s with
    | terminal t => rfl
    | epsilon => rfl
    | nonTerminal n => exact restore_nonTerminal_of_notMem (hs n rfl)
  · obtain ⟨entry, hentry, hsame⟩ := List.mem_map.1 hrule
    simp only [Prod.mk.injEq, List.cons.injEq, Symbol.terminal.injEq, and_true] at hsame
    obtain ⟨rfl, rfl⟩ := hsame
    rw [hreplace, restore_nonTerminal_of_mem hdistinct hentry]

end TerminalTable

/-- So the production can be had back from its isolated form. -/
theorem Production.map_restore_isolate {table : TerminalTable} {p : Production}
    (hdistinct : (table.map Prod.snd).Nodup)
    (hp : ∀ n, Symbol.nonTerminal n ∈ p → n ∉ table.map Prod.snd) :
    (p.isolate table).map table.restore = p := by
  unfold Production.isolate
  split
  · refine map_eq_self_iff.2 fun s hs ↦ ?_
    cases s with
    | terminal t => rfl
    | epsilon => rfl
    | nonTerminal n => exact TerminalTable.restore_nonTerminal_of_notMem (hp n hs)
  · rw [List.map_map]
    exact map_eq_self_iff.2 fun s hs ↦
      TerminalTable.restore_replace hdistinct fun n hn ↦ hp n (hn ▸ hs)

namespace Grammar

variable {g h c : Grammar} {fresh fresh' : FreshNames}

theorem listsOnce_binarize (hresult : g.binarize fresh = .ok (h, fresh')) (honce : g.ListsOnce) :
    h.ListsOnce := by
  have hvalid := (binarize_eq_ok_iff.1 hresult).1
  have hshortened : (g.shortened fresh).ListsOnce := by
    intro rule hrule
    obtain ⟨source, hsource, state, rfl, -⟩ := Extended.exists_of_mem_traverse_result hrule
    refine Production.nodup_traverse_split state (fun p hp m hm ↦ ?_) (honce source hsource)
    exact (hvalid source hsource p hp).declared_of_mem m hm
  refine hshortened.append (fun rule hrule ↦ ?_) (rules_binarize hresult)
  obtain ⟨q, hq, -⟩ := exists_of_mem_splitOff hrule
  rw [hq]
  exact List.nodup_singleton q

/-- Names for terminals are new, so putting the terminals back restores a production. -/
theorem Valid.map_restore_isolate {n : Name} {p : Production} (hvalid : g.Valid)
    (hp : p ∈ g.productionsOf n) (fresh : FreshNames) :
    (p.isolate (g.terminalTable fresh)).map (g.terminalTable fresh).restore = p := by
  have hmints := g.mints_terminalTable fresh
  refine Production.map_restore_isolate hmints.nodup fun m hm hmember ↦ ?_
  exact (hmints.notMem hmember).1 (hvalid.mentionsDeclared n p hp m hm)

theorem listsOnce_isolateTerminals (hresult : g.isolateTerminals fresh = .ok (h, fresh'))
    (honce : g.ListsOnce) : h.ListsOnce := by
  have hvalid := (isolateTerminals_eq_ok_iff.1 hresult).1
  have hisolated : (g.isolated (g.terminalTable fresh)).ListsOnce := by
    intro rule hrule
    obtain ⟨source, hsource, rfl⟩ := List.mem_map.1 hrule
    refine List.Nodup.map_on (fun p hp q hq hsame ↦ ?_) (honce source hsource)
    rw [← productionsOf_eq hsource] at hp hq
    rw [← hvalid.map_restore_isolate hp fresh, hsame, hvalid.map_restore_isolate hq fresh]
  refine hisolated.append (fun rule hrule ↦ ?_) (rules_isolateTerminals hresult)
  obtain ⟨entry, -, rfl⟩ := List.mem_map.1 hrule
  exact List.nodup_singleton _

theorem listsOnce_toChomsky (hresult : g.toChomsky = .ok c) : c.ListsOnce := by
  obtain ⟨nullFree, unitFree, binary, _, _, -, hunit, hbinary, hisolated⟩ :=
    toChomsky_eq_ok_iff.1 hresult
  exact listsOnce_isolateTerminals hisolated
    (listsOnce_binarize hbinary (listsOnce_eliminateUnits hunit))

/-! ## Fixed points -/

/-- A grammar in Chomsky normal form that lists no production twice, and whose start symbol is not
used if it has the production `λ`, is what it is brought to, and no name is minted.  Every outcome
lists no production twice, so an outcome in Chomsky normal form is such a grammar under the same
condition on its start symbol. -/
theorem toChomsky_fixedPoint :
    (∀ g : Grammar, g.isChomsky = true → g.ListsOnce → g.EmptyStartUnused →
      g.toChomsky = .ok g ∧ ∀ fresh, g.binarize fresh = .ok (g, fresh) ∧
        g.isolateTerminals fresh = .ok (g, fresh)) ∧
    ∀ g c : Grammar, g.toChomsky = .ok c → c.ListsOnce ∧
      (c.isChomsky = true → c.EmptyStartUnused → c.toChomsky = .ok c) := by
  constructor
  · intro g hform honce hunused
    exact ⟨toChomsky_eq_self hform honce hunused, mint_nothing_of_isChomsky hform⟩
  · intro g c hresult
    have honce := listsOnce_toChomsky hresult
    exact ⟨honce, fun hform hunused ↦ toChomsky_eq_self hform honce hunused⟩

/-- A production listed twice, two that differ in their last symbols only, a unit loop, and the
production `λ` of a start symbol that is not used. -/
def doubled : Grammar where
  rules := [
    ("S", [[.terminal "a", .nonTerminal "B", .terminal "c"],
      [.terminal "a", .nonTerminal "B", .nonTerminal "B"],
      [.terminal "a", .nonTerminal "B", .terminal "c"], [.epsilon]]),
    ("B", [[.terminal "b"], [.nonTerminal "B"]])]

def doubledChomsky : Grammar where
  rules := [
    ("S", [[.nonTerminal "T2", .nonTerminal "S0"], [.nonTerminal "T2", .nonTerminal "S1"],
      [.epsilon]]),
    ("B", [[.terminal "b"]]),
    ("S0", [[.nonTerminal "B", .nonTerminal "T3"]]),
    ("S1", [[.nonTerminal "B", .nonTerminal "B"]]),
    ("T2", [[.terminal "a"]]),
    ("T3", [[.terminal "c"]])]

theorem toChomsky_fixedPoint_doubled :
    doubled.toChomsky = .ok doubledChomsky ∧ doubledChomsky.isChomsky = true ∧
      doubledChomsky.ListsOnce ∧ doubledChomsky.EmptyStartUnused ∧
      doubledChomsky.toChomsky = .ok doubledChomsky ∧
      ∀ fresh, doubledChomsky.binarize fresh = .ok (doubledChomsky, fresh) ∧
        doubledChomsky.isolateTerminals fresh = .ok (doubledChomsky, fresh) := by
  have hresult : doubled.toChomsky = .ok doubledChomsky := by rfl
  have hform : doubledChomsky.isChomsky = true := by decide
  have hunused : doubledChomsky.EmptyStartUnused := by decide
  have honce := (toChomsky_fixedPoint.2 doubled doubledChomsky hresult).1
  exact ⟨hresult, hform, honce, hunused,
    toChomsky_fixedPoint.1 doubledChomsky hform honce hunused⟩

end Grammar

end ContextFree
