import Mathlib.Data.List.Basic
import ContextFree.Chomsky
import ContextFree.Grammar.Renaming
import ContextFree.Proofs.Binary
import ContextFree.Proofs.SymbolKinds

/-!
# Terminals may be renamed

The changes of form look at the kinds of symbols and at the names of non-terminals.  Of a terminal
they ask only whether it is another one, so an injective renaming of terminals goes through them:
what a change of form makes of the renamed grammar is the renamed outcome, with the same names
minted on the way, and a grammar is refused together with all its renamings and for the same reason.
This holds of renamings that confuse terminals with non-terminals as well.
-/

namespace ContextFree

variable {f : Name → Name}

/-! ## Steps that may fail -/

/-- A map goes through two steps if it goes through either of them. -/
theorem bind_map_of_map {ε α β γ δ : Type} {onFirst : α → γ} {onLast : β → δ} {x : Except ε α}
    {y : Except ε γ} {next : α → Except ε β} {follow : γ → Except ε δ} (hfirst : y = x.map onFirst)
    (hnext : ∀ a, follow (onFirst a) = (next a).map onLast) :
    y >>= follow = (x >>= next).map onLast := by
  rw [hfirst]
  cases x with
  | error error => rfl
  | ok a => exact hnext a

/-! ## Lists -/

/-- Repetitions are dropped before an injective map or after it. -/
theorem eraseDups_map {α β : Type} [BEq α] [LawfulBEq α] [BEq β] [LawfulBEq β] {m : α → β}
    (hm : Function.Injective m) (l : List α) : (l.map m).eraseDups = l.eraseDups.map m := by
  match l with
  | [] => rfl
  | a :: rest =>
    have hothers : (rest.map m).filter (fun b ↦ !b == m a) =
        (rest.filter fun b ↦ !b == a).map m := by
      rw [List.filter_map]
      congr 2
      funext b
      simp [hm.eq_iff]
    rw [List.map_cons, List.eraseDups_cons, List.eraseDups_cons, List.map_cons, hothers,
      eraseDups_map hm]
termination_by l.length
decreasing_by exact Nat.lt_succ_of_le (List.length_filter_le _ _)

/-- A list is put together anew from the changes of its elements before an injective map or after
it. -/
theorem eraseDups_flatMap_map {α : Type} [BEq α] [LawfulBEq α] {m : α → α}
    (hm : Function.Injective m) {change changed : α → List α}
    (hchange : ∀ a, changed (m a) = (change a).map m) (l : List α) :
    ((l.map m).flatMap changed).eraseDups = ((l.flatMap change).eraseDups).map m := by
  have hlists : (l.map m).flatMap changed = (l.flatMap change).map m := by
    rw [List.flatMap_map, List.map_flatMap]
    exact List.flatMap_congr fun a _ ↦ hchange a
  rw [hlists, eraseDups_map hm]

/-! ## Symbols and productions -/

namespace Symbol

theorem injective_renameTerminal (hf : Function.Injective f) :
    Function.Injective (renameTerminal f) :=
  fun _ _ ↦ renameTerminal_injective hf

@[simp] theorem renameTerminal_eq_nonTerminal_iff {s : Symbol} {n : Name} :
    s.renameTerminal f = .nonTerminal n ↔ s = .nonTerminal n := by
  cases s <;> simp [renameTerminal]

@[simp] theorem renameTerminal_eq_epsilon_iff {s : Symbol} :
    s.renameTerminal f = .epsilon ↔ s = .epsilon := by
  cases s <;> simp [renameTerminal]

theorem terminal?_renameTerminal (s : Symbol) :
    (s.renameTerminal f).terminal? = s.terminal?.map f := by
  cases s <;> rfl

end Symbol

namespace Production

variable {declared : List Name} {isStart : Bool} {n : Name} {p : Production}

theorem injective_renameTerminals (hf : Function.Injective f) :
    Function.Injective (renameTerminals f) :=
  List.map_injective_iff.2 (Symbol.injective_renameTerminal hf)

@[simp] theorem length_renameTerminals (p : Production) :
    (p.renameTerminals f).length = p.length :=
  List.length_map _

@[simp] theorem renameTerminals_eq_nil_iff : p.renameTerminals f = [] ↔ p = [] :=
  List.map_eq_nil_iff

@[simp] theorem nonTerminal_mem_renameTerminals_iff :
    Symbol.nonTerminal n ∈ p.renameTerminals f ↔ Symbol.nonTerminal n ∈ p := by
  simp [renameTerminals, List.mem_map]

@[simp] theorem epsilon_mem_renameTerminals_iff :
    Symbol.epsilon ∈ p.renameTerminals f ↔ Symbol.epsilon ∈ p := by
  simp [renameTerminals, List.mem_map]

@[simp] theorem renameTerminals_eq_epsilon_iff : p.renameTerminals f = epsilon ↔ p = epsilon := by
  simp [renameTerminals, epsilon, List.map_eq_singleton_iff]

@[simp] theorem contains_epsilon_renameTerminals (productions : List Production) :
    (productions.map (renameTerminals f)).contains epsilon = productions.contains epsilon := by
  rw [Bool.eq_iff_iff]
  simp [List.mem_map]

@[simp] theorem leading?_renameTerminals (p : Production) :
    (p.renameTerminals f).leading? = p.leading? := by
  match p with
  | [] => rfl
  | .terminal _ :: _ => rfl
  | .nonTerminal _ :: _ => rfl
  | .epsilon :: _ => rfl

@[simp] theorem unitTarget?_renameTerminals (p : Production) :
    (p.renameTerminals f).unitTarget? = p.unitTarget? := by
  match p with
  | [] => rfl
  | [.terminal _] => rfl
  | [.nonTerminal _] => rfl
  | [.epsilon] => rfl
  | .terminal _ :: _ :: _ => rfl
  | .nonTerminal _ :: _ :: _ => rfl
  | .epsilon :: _ :: _ => rfl

theorem terminals_renameTerminals (p : Production) :
    (p.renameTerminals f).terminals = p.terminals.map f := by
  rw [terminals, renameTerminals, List.filterMap_map, terminals, List.map_filterMap]
  exact congrArg (List.filterMap · p) (funext Symbol.terminal?_renameTerminal)

@[simp] theorem fault?_renameTerminals (p : Production) :
    (p.renameTerminals f).fault? declared = p.fault? declared := by
  simp [fault?]

@[simp] theorem isChomsky_renameTerminals (p : Production) :
    (p.renameTerminals f).isChomsky declared isStart = p.isChomsky declared isStart := by
  match p with
  | [] => rfl
  | [.terminal _] => rfl
  | [.nonTerminal _] => rfl
  | [.epsilon] => rfl
  | [.nonTerminal _, .nonTerminal _] => rfl
  | [.nonTerminal _, .terminal _] => rfl
  | [.nonTerminal _, .epsilon] => rfl
  | .terminal _ :: _ :: _ => rfl
  | .epsilon :: _ :: _ => rfl
  | .nonTerminal _ :: .terminal _ :: _ :: _ => rfl
  | .nonTerminal _ :: .nonTerminal _ :: _ :: _ => rfl
  | .nonTerminal _ :: .epsilon :: _ :: _ => rfl

/-- Deleting a non-terminal does not touch the terminals. -/
theorem erase_renameTerminals (hf : Function.Injective f) (n : Name) (p : Production) :
    (p.renameTerminals f).erase (.nonTerminal n) =
      renameTerminals f (p.erase (.nonTerminal n)) := by
  rw [renameTerminals, renameTerminals, List.map_erase (Symbol.injective_renameTerminal hf)]
  rfl

theorem nullVariant?_renameTerminals (hf : Function.Injective f) (p : Production) (n : Name) :
    (p.renameTerminals f).nullVariant? isStart n =
      (p.nullVariant? isStart n).map (renameTerminals f) := by
  unfold nullVariant?
  simp only [nonTerminal_mem_renameTerminals_iff, erase_renameTerminals hf]
  split
  · cases p.erase (.nonTerminal n) with
    | nil => cases isStart <;> rfl
    | cons s rest => rfl
  · rfl

theorem nullVariants_renameTerminals (hf : Function.Injective f) (nullable : List Name)
    (p : Production) : (p.renameTerminals f).nullVariants isStart nullable =
      (p.nullVariants isStart nullable).map (renameTerminals f) := by
  unfold nullVariants
  simp only [renameTerminals_eq_epsilon_iff]
  split
  · rfl
  · simp only [List.map_append, List.map_filterMap, nullVariant?_renameTerminals hf,
      List.map_singleton]

end Production

/-- The rule with its terminals renamed. -/
def Rule.renameTerminals (f : Name → Name) (rule : Rule) : Rule :=
  (rule.1, rule.2.map (Production.renameTerminals f))

namespace Grammar

variable {g : Grammar} {n : Name}

theorem rules_renameTerminals (g : Grammar) :
    (g.renameTerminals f).rules = g.rules.map (Rule.renameTerminals f) := rfl

@[simp] theorem start?_renameTerminals (g : Grammar) :
    (g.renameTerminals f).start? = g.start? := by
  rw [start?, names_renameTerminals, start?]

@[simp] theorem isStart_renameTerminals (g : Grammar) (n : Name) :
    (g.renameTerminals f).isStart n = g.isStart n := by
  rw [isStart, start?_renameTerminals, isStart]

theorem productionsOf_renameTerminals (g : Grammar) (n : Name) :
    (g.renameTerminals f).productionsOf n =
      (g.productionsOf n).map (Production.renameTerminals f) := by
  by_cases hn : n ∈ g.names
  · exact productionsOf_mapProductions hn _
  · rw [productionsOf_eq_nil hn, productionsOf_eq_nil (by rwa [names_renameTerminals])]
    rfl

@[simp] theorem ruleFault?_renameTerminals (declared : List Name) (rule : Rule) :
    ruleFault? declared (rule.renameTerminals f) = ruleFault? declared rule := by
  simp [ruleFault?, Rule.renameTerminals, List.findSome?_map, Function.comp_def]

@[simp] theorem validate_renameTerminals (g : Grammar) :
    (g.renameTerminals f).validate = g.validate := by
  simp only [validate, fault?, rules_renameTerminals, names_renameTerminals, List.findSome?_map,
    Function.comp_def, ruleFault?_renameTerminals]

/-- Changes that agree on the productions agree on the grammar. -/
theorem mapProductions_renameTerminals {change changed : Name → List Production → List Production}
    (hchange : ∀ n productions, changed n (productions.map (Production.renameTerminals f)) =
      (change n productions).map (Production.renameTerminals f)) (g : Grammar) :
    (g.renameTerminals f).mapProductions changed = (g.mapProductions change).renameTerminals f := by
  apply Grammar.ext
  simp only [mapProductions, renameTerminals, List.map_map]
  exact List.map_congr_left fun rule _ ↦ congrArg (Prod.mk rule.1) (hchange rule.1 rule.2)

theorem modify_renameTerminals {change changed : List Production → List Production}
    (hchange : ∀ productions, changed (productions.map (Production.renameTerminals f)) =
      (change productions).map (Production.renameTerminals f)) (g : Grammar) (n : Name) :
    (g.renameTerminals f).modify n changed = (g.modify n change).renameTerminals f := by
  apply mapProductions_renameTerminals
  intro left productions
  split
  · exact hchange productions
  · rfl

theorem modify_const_renameTerminals (g : Grammar) (n : Name) (productions : List Production) :
    ((g.renameTerminals f).modify n fun _ ↦ productions.map (Production.renameTerminals f)) =
      (g.modify n fun _ ↦ productions).renameTerminals f := by
  apply modify_renameTerminals
  exact fun _ ↦ rfl

@[simp] theorem isChomsky_renameTerminals (g : Grammar) :
    (g.renameTerminals f).isChomsky = g.isChomsky := by
  simp [isChomsky, rules_renameTerminals, Rule.renameTerminals, Function.comp_def]

/-! ## Empty productions -/

theorem nullable_renameTerminals (g : Grammar) : (g.renameTerminals f).nullable = g.nullable := by
  simp only [nullable, rules_renameTerminals, Rule.renameTerminals, List.filter_map, List.map_map,
    Function.comp_def, Production.contains_epsilon_renameTerminals]

theorem eliminateNull_renameTerminals (hf : Function.Injective f) (g : Grammar)
    (nullable : List Name) : (g.renameTerminals f).eliminateNull nullable =
      (g.eliminateNull nullable).map (renameTerminals f) := by
  unfold eliminateNull
  rw [validate_renameTerminals]
  cases g.validate with
  | error error => rfl
  | ok _ =>
    refine congrArg Except.ok (mapProductions_renameTerminals (fun n productions ↦ ?_) g)
    rw [isStart_renameTerminals]
    exact eraseDups_flatMap_map (Production.injective_renameTerminals hf)
      (Production.nullVariants_renameTerminals hf nullable) productions

/-! ## Unit productions -/

theorem unitTargets_renameTerminals (g : Grammar) :
    (g.renameTerminals f).unitTargets = g.unitTargets := by
  funext n
  simp only [unitTargets, productionsOf_renameTerminals, List.filterMap_map, Function.comp_def,
    Production.unitTarget?_renameTerminals]

@[simp] theorem unitReachable_renameTerminals (g : Grammar) (n : Name) :
    (g.renameTerminals f).unitReachable n = g.unitReachable n := by
  rw [unitReachable, unitTargets_renameTerminals, names_renameTerminals, unitReachable]

@[simp] theorem unitCycle?_renameTerminals (g : Grammar) :
    (g.renameTerminals f).unitCycle? = g.unitCycle? := by
  simp only [unitCycle?, unitPartners, names_renameTerminals, unitReachable_renameTerminals]
  rfl

theorem withoutUnit_renameTerminals (g : Grammar) (left : Name) (p : Production) :
    (g.renameTerminals f).withoutUnit left (p.renameTerminals f) =
      (g.withoutUnit left p).map (Production.renameTerminals f) := by
  rw [withoutUnit, Production.unitTarget?_renameTerminals, withoutUnit]
  cases p.unitTarget? with
  | none => rfl
  | some target =>
    simp only [productionsOf_renameTerminals, List.filter_map, Function.comp_def,
      Production.unitTarget?_renameTerminals]

theorem inlineUnits_renameTerminals (hf : Function.Injective f) (g : Grammar) (left : Name) :
    (g.renameTerminals f).inlineUnits left = (g.inlineUnits left).renameTerminals f :=
  modify_renameTerminals (eraseDups_flatMap_map (Production.injective_renameTerminals hf)
    (g.withoutUnit_renameTerminals left)) g left

theorem eliminateUnits_renameTerminals (hf : Function.Injective f) (g : Grammar) :
    (g.renameTerminals f).eliminateUnits = g.eliminateUnits.map (renameTerminals f) := by
  unfold eliminateUnits
  rw [validate_renameTerminals, unitCycle?_renameTerminals, names_renameTerminals]
  cases g.validate with
  | error error => rfl
  | ok _ =>
    cases g.unitCycle? with
    | some error => rfl
    | none =>
      exact congrArg Except.ok
        (List.foldl_hom (renameTerminals f) fun k n ↦ inlineUnits_renameTerminals hf k n)

/-! ## New rules -/

theorem append_renameTerminals {name : Name} {productions : List Production} (h : name ∉ g.names)
    (h' : name ∉ (g.renameTerminals f).names) :
    (g.renameTerminals f).append name (productions.map (Production.renameTerminals f)) h' =
      (g.append name productions h).renameTerminals f := by
  apply Grammar.ext
  simp [append, renameTerminals, mapProductions]

theorem insertFresh_renameTerminals (g : Grammar) (name : Name) (productions : List Production) :
    (g.renameTerminals f).insertFresh name (productions.map (Production.renameTerminals f)) =
      (g.insertFresh name productions).map (renameTerminals f) := by
  unfold insertFresh
  by_cases hname : name ∈ g.names
  · rw [dif_pos hname, dif_pos (by rwa [names_renameTerminals])]
    rfl
  · rw [dif_neg hname, dif_neg (by rwa [names_renameTerminals])]
    exact congrArg Except.ok (append_renameTerminals hname _)

theorem insertAllFresh_renameTerminals (g : Grammar) (rules : List Rule) :
    (g.renameTerminals f).insertAllFresh (rules.map (Rule.renameTerminals f)) =
      (g.insertAllFresh rules).map (renameTerminals f) := by
  induction rules generalizing g with
  | nil => rfl
  | cons rule rules ih =>
    exact bind_map_of_map (g.insertFresh_renameTerminals rule.1 rule.2) fun next ↦ ih next

end Grammar

/-! ## Splitting -/

/-- The result and the added rules of a change of form, each changed once more. -/
def Extended.map {α β : Type} (onResult : α → β) (onRule : Rule → Rule) (e : Extended α) :
    Extended β :=
  ⟨onResult e.result, e.added.map onRule, e.fresh⟩

/-- A change element by element goes through a map that each of its steps goes through. -/
theorem Extended.traverse_map {α β γ δ : Type} {step : FreshNames → α → Extended β}
    {stepped : FreshNames → γ → Extended δ} {source : α → γ} {result : β → δ} {onRule : Rule → Rule}
    (hstep : ∀ fresh a, stepped fresh (source a) = (step fresh a).map result onRule)
    (fresh : FreshNames) (l : List α) :
    traverse stepped fresh (l.map source) =
      (traverse step fresh l).map (List.map result) onRule := by
  induction l generalizing fresh with
  | nil => rfl
  | cons a l ih =>
    simp only [List.map_cons, traverse, hstep, ih, map, List.map_append]

theorem Production.split_renameTerminals (base : Name) (declared : List Name) (fresh : FreshNames)
    (p : Production) : split base declared fresh (p.renameTerminals f) =
      (split base declared fresh p).map (renameTerminals f) (Rule.renameTerminals f) := by
  fun_induction split base declared fresh p with
  | case1 fresh first second third rest name state hminted tail ih =>
    change split base declared fresh (first.renameTerminal f :: second.renameTerminal f ::
      third.renameTerminal f :: renameTerminals f rest) = _
    rw [split, hminted]
    exact congrArg (fun tail : Extended Production ↦
      (⟨[first.renameTerminal f, .nonTerminal name], (name, [tail.result]) :: tail.added,
        tail.fresh⟩ : Extended Production)) ih
  | case2 fresh short hshort =>
    match short with
    | [] => rfl
    | [_] => rfl
    | [_, _] => rfl
    | first :: second :: third :: rest => exact absurd rfl (hshort first second third rest)

namespace Grammar

theorem splitRule_renameTerminals (declared : List Name) (fresh : FreshNames) (rule : Rule) :
    splitRule declared fresh (rule.renameTerminals f) =
      (splitRule declared fresh rule).map (Rule.renameTerminals f) (Rule.renameTerminals f) := by
  rw [splitRule, Rule.renameTerminals,
    Extended.traverse_map (Production.split_renameTerminals rule.1 declared)]
  rfl

theorem splitRules_renameTerminals (declared : List Name) (fresh : FreshNames)
    (rules : List Rule) : splitRules declared fresh (rules.map (Rule.renameTerminals f)) =
      (splitRules declared fresh rules).map (List.map (Rule.renameTerminals f))
        (Rule.renameTerminals f) :=
  Extended.traverse_map (splitRule_renameTerminals declared) fresh rules

/-- The rules that a change of form appends are renamed with the grammar they are appended to. -/
theorem extend_renameTerminals {k renamed : Grammar} {added others : List Rule}
    {fresh last : FreshNames} (hrules : renamed.rules = k.rules.map (Rule.renameTerminals f))
    (hadded : others = added.map (Rule.renameTerminals f)) (hfresh : last = fresh) :
    (renamed.insertAllFresh others >>= fun h ↦ pure (h, last)) =
      (k.insertAllFresh added >>= fun h ↦ pure (h, fresh)).map
        (Prod.map (renameTerminals f) id) := by
  obtain rfl : renamed = k.renameTerminals f := Grammar.ext hrules
  rw [hadded, hfresh]
  exact bind_map_of_map (k.insertAllFresh_renameTerminals added) fun _ ↦ rfl

theorem binarize_renameTerminals (g : Grammar) (fresh : FreshNames) :
    (g.renameTerminals f).binarize fresh =
      (g.binarize fresh).map (Prod.map (renameTerminals f) id) := by
  have hsplit : splitRules (g.renameTerminals f).names fresh (g.renameTerminals f).rules =
      (splitRules g.names fresh g.rules).map (List.map (Rule.renameTerminals f))
        (Rule.renameTerminals f) := by
    rw [names_renameTerminals, rules_renameTerminals, splitRules_renameTerminals]
  unfold binarize
  rw [validate_renameTerminals]
  cases g.validate with
  | error error => rfl
  | ok _ =>
    have hlast := congrArg Extended.fresh hsplit
    exact extend_renameTerminals (congrArg Extended.result hsplit) (congrArg Extended.added hsplit)
      hlast

/-! ## Isolated terminals -/

theorem mixedTerminals_renameTerminals (hf : Function.Injective f) (g : Grammar) :
    (g.renameTerminals f).mixedTerminals = g.mixedTerminals.map f := by
  have hproductions : (g.renameTerminals f).rules.flatMap Prod.snd =
      (g.rules.flatMap Prod.snd).map (Production.renameTerminals f) := by
    rw [rules_renameTerminals, List.flatMap_map, List.map_flatMap]
    rfl
  unfold mixedTerminals
  simp only [hproductions, List.filter_map, Function.comp_def, Production.length_renameTerminals]
  rw [← eraseDups_map hf, List.flatMap_map, List.map_flatMap]
  simp only [Production.terminals_renameTerminals]

end Grammar

namespace TerminalTable

/-- The table for the renamed terminals. -/
def rename (f : Name → Name) (table : TerminalTable) : TerminalTable :=
  table.map (Prod.map f id)

theorem ofTerminals_rename (declared : List Name) (fresh : FreshNames) (terminals : List Name) :
    ofTerminals declared fresh (terminals.map f) =
      (ofTerminals declared fresh terminals).map (rename f) id := by
  induction terminals generalizing fresh with
  | nil => rfl
  | cons terminal rest ih =>
    simp only [List.map_cons, ofTerminals, ih]
    rfl

theorem rules_rename (table : TerminalTable) :
    (table.rename f).rules = table.rules.map (Rule.renameTerminals f) := by
  simp only [rules, rename, List.map_map]
  rfl

theorem lookup_rename (hf : Function.Injective f) (table : TerminalTable) (t : Name) :
    (table.rename f).lookup (f t) = table.lookup t := by
  induction table with
  | nil => rfl
  | cons entry table ih =>
    obtain ⟨terminal, name⟩ := entry
    have hsame : (f t == f terminal) = (t == terminal) := by
      rw [Bool.eq_iff_iff]
      simp [hf.eq_iff]
    change List.lookup (f t) ((f terminal, name) :: rename f table) = _
    rw [List.lookup_cons, List.lookup_cons, ih, hsame]

/-- The new non-terminal of a renamed terminal is the one of the terminal itself. -/
theorem replace_rename (hf : Function.Injective f) (table : TerminalTable) (s : Symbol) :
    (table.rename f).replace (s.renameTerminal f) = (table.replace s).renameTerminal f := by
  cases s with
  | terminal t =>
    simp only [Symbol.renameTerminal, replace, lookup_rename hf]
    cases table.lookup t with
    | none => rfl
    | some name => rfl
  | nonTerminal n => rfl
  | epsilon => rfl

end TerminalTable

theorem Production.isolate_renameTerminals (hf : Function.Injective f) (table : TerminalTable)
    (p : Production) : (p.renameTerminals f).isolate (table.rename f) =
      renameTerminals f (p.isolate table) := by
  unfold isolate
  rw [length_renameTerminals]
  split
  · rfl
  · simp only [renameTerminals, List.map_map]
    exact List.map_congr_left fun s _ ↦ TerminalTable.replace_rename hf table s

namespace Grammar

theorem isolateTerminals_renameTerminals (hf : Function.Injective f) (g : Grammar)
    (fresh : FreshNames) : (g.renameTerminals f).isolateTerminals fresh =
      (g.isolateTerminals fresh).map (Prod.map (renameTerminals f) id) := by
  have htable : TerminalTable.ofTerminals (g.renameTerminals f).names fresh
      (g.renameTerminals f).mixedTerminals =
        (TerminalTable.ofTerminals g.names fresh g.mixedTerminals).map
          (TerminalTable.rename f) id := by
    rw [names_renameTerminals, mixedTerminals_renameTerminals hf, TerminalTable.ofTerminals_rename]
  unfold isolateTerminals
  rw [validate_renameTerminals, htable]
  cases g.validate with
  | error error => rfl
  | ok _ =>
    let table := (TerminalTable.ofTerminals g.names fresh g.mixedTerminals).1
    have hisolated : ((g.renameTerminals f).mapProductions fun _ productions ↦
        productions.map (·.isolate (table.rename f))) =
          (g.mapProductions fun _ productions ↦
            productions.map (·.isolate table)).renameTerminals f := by
      refine mapProductions_renameTerminals (fun _ productions ↦ ?_) g
      simp only [List.map_map]
      exact List.map_congr_left fun p _ ↦ Production.isolate_renameTerminals hf table p
    exact extend_renameTerminals (congrArg rules hisolated) (TerminalTable.rules_rename table) rfl

/-! ## Chomsky normal form -/

theorem toChomsky_renameTerminals (hf : Function.Injective f) (g : Grammar) :
    (g.renameTerminals f).toChomsky = g.toChomsky.map (renameTerminals f) := by
  have hnull : (g.renameTerminals f).eliminateNull (g.renameTerminals f).nullable =
      (g.eliminateNull g.nullable).map (renameTerminals f) := by
    rw [nullable_renameTerminals, eliminateNull_renameTerminals hf]
  refine bind_map_of_map hnull fun nullFree ↦ ?_
  refine bind_map_of_map (eliminateUnits_renameTerminals hf nullFree) fun unitFree ↦ ?_
  refine bind_map_of_map (binarize_renameTerminals unitFree {}) fun ⟨binary, fresh⟩ ↦ ?_
  exact bind_map_of_map (isolateTerminals_renameTerminals hf binary fresh) fun _ ↦ rfl

end Grammar

end ContextFree
