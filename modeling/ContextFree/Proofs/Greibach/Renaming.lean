import Mathlib.Logic.Equiv.Basic
import ContextFree.Greibach
import ContextFree.Proofs.Passes
import ContextFree.Proofs.Renaming

/-!
# Terminals may be renamed in every change of form

Greibach normal form asks whether a production starts with a terminal, not with which one.  The
searches for an obstacle give the same answer for a grammar and for its renamings, the way forward
takes the same turns and mints the same tails, and the way back expands the same productions.

Together with the passes towards Chomsky normal form this says that every change of form, and so
every run of changes of form, goes through an injective renaming of terminals.
-/

namespace ContextFree

variable {f : Name → Name}

/-! ## Productions -/

namespace Production

variable {declared : List Name} {isStart : Bool}

@[simp] theorem isGreibach_renameTerminals (p : Production) :
    (p.renameTerminals f).isGreibach declared isStart = p.isGreibach declared isStart := by
  match p with
  | [] => rfl
  | .terminal _ :: rest =>
    change (rest.map (Symbol.renameTerminal f)).all _ = rest.all _
    rw [List.all_map]
    simp only [Function.comp_def, Symbol.nonTerminal?_renameTerminal]
  | .nonTerminal _ :: _ => rfl
  | [.epsilon] => rfl
  | .epsilon :: _ :: _ => rfl

theorem replaceFirst_renameTerminals (replacements : List Production) (p : Production) :
    (p.renameTerminals f).replaceFirst (replacements.map (renameTerminals f)) =
      (p.replaceFirst replacements).map (renameTerminals f) := by
  simp only [replaceFirst, renameTerminals, List.map_map, Function.comp_def, List.map_append,
    List.map_drop]

theorem withTail_renameTerminals (tail : Name) (p : Production) :
    withTail (.nonTerminal tail) (p.renameTerminals f) =
      (withTail (.nonTerminal tail) p).map (renameTerminals f) := by
  simp only [withTail, renameTerminals, List.map_cons, List.map_nil, List.map_append,
    Symbol.renameTerminal]

end Production

namespace Grammar

@[simp] theorem isGreibach_renameTerminals (g : Grammar) :
    (g.renameTerminals f).isGreibach = g.isGreibach := by
  simp [isGreibach, rules_renameTerminals, Rule.renameTerminals, Function.comp_def]

/-! ## Obstacles -/

@[simp] theorem mentions_renameTerminals (g : Grammar) (n : Name) :
    (g.renameTerminals f).mentions n = g.mentions n := by
  rw [Bool.eq_iff_iff]
  simp [mentions, rules_renameTerminals, Rule.renameTerminals]

@[simp] theorem productive_renameTerminals (g : Grammar) :
    (g.renameTerminals f).productive = g.productive := by
  simp only [productive, names_renameTerminals, rules_renameTerminals, Rule.renameTerminals,
    List.filter_map, List.map_map, Function.comp_def, List.any_map,
    Production.nonTerminals_renameTerminals]

@[simp] theorem greibachObstacle?_renameTerminals (g : Grammar) :
    (g.renameTerminals f).greibachObstacle? = g.greibachObstacle? := by
  have hstray : (g.renameTerminals f).strayEpsilon? = g.strayEpsilon? := by
    simp only [strayEpsilon?, rules_renameTerminals, Rule.renameTerminals, List.findSome?_map,
      Function.comp_def, isStart_renameTerminals, Production.contains_epsilon_renameTerminals]
  have hused : (g.renameTerminals f).usedEpsilon? = g.usedEpsilon? := by
    simp only [usedEpsilon?, start?_renameTerminals, productionsOf_renameTerminals,
      Production.contains_epsilon_renameTerminals, mentions_renameTerminals]
  have hloop : (g.renameTerminals f).unitLoop? = g.unitLoop? := by
    simp only [unitLoop?, names_renameTerminals, unitReachable_renameTerminals]
  have hbarren : (g.renameTerminals f).barrenStart? = g.barrenStart? := by
    simp only [barrenStart?, start?_renameTerminals, productionsOf_renameTerminals,
      productive_renameTerminals, ne_eq, List.map_eq_nil_iff]
  rw [greibachObstacle?, hstray, hused, hloop, hbarren, greibachObstacle?]

/-! ## Going forward -/

theorem expandEarlier_renameTerminals (hf : Function.Injective f) (g : Grammar)
    (productions : List Production) (earlier : Name) :
    (g.renameTerminals f).expandEarlier (productions.map (Production.renameTerminals f)) earlier =
      (g.expandEarlier productions earlier).map (Production.renameTerminals f) := by
  refine eraseDups_flatMap_map (Production.injective_renameTerminals hf) (fun p ↦ ?_) productions
  rw [Production.leading?_renameTerminals]
  split
  · rw [productionsOf_renameTerminals, Production.replaceFirst_renameTerminals]
  · rfl

/-- The state with its grammar renamed.  Tails and generator are kept. -/
def Forward.renameTerminals (f : Name → Name) (state : Forward) : Forward :=
  { state with grammar := state.grammar.renameTerminals f }

theorem Forward.removeLeftRecursion_renameTerminals (hf : Function.Injective f) (state : Forward)
    (current : Name) : (state.renameTerminals f).removeLeftRecursion current =
      (state.removeLeftRecursion current).map (Forward.renameTerminals f) := by
  have hwithTail : ∀ (tail : Name) (productions : List Production),
      ((productions.map (Production.renameTerminals f)).flatMap
        (Production.withTail (.nonTerminal tail))).eraseDups =
          ((productions.flatMap (Production.withTail (.nonTerminal tail))).eraseDups).map
            (Production.renameTerminals f) :=
    fun tail ↦ eraseDups_flatMap_map (Production.injective_renameTerminals hf)
      (Production.withTail_renameTerminals tail)
  have hrest : ∀ productions : List Production,
      (productions.map (Production.renameTerminals f)).map (·.drop 1) =
        (productions.map (·.drop 1)).map (Production.renameTerminals f) := by
    intro productions
    simp only [Production.renameTerminals, List.map_map, Function.comp_def, List.map_drop]
  simp only [removeLeftRecursion, renameTerminals, productionsOf_renameTerminals, List.filter_map,
    Function.comp_def, Production.leading?_renameTerminals, List.map_eq_nil_iff,
    names_renameTerminals, hrest, hwithTail]
  split
  · rfl
  · refine bind_map_of_map ?_ fun _ ↦ rfl
    rw [modify_const_renameTerminals]
    exact insertFresh_renameTerminals _ _ _

theorem Forward.run_renameTerminals (hf : Function.Injective f) (state : Forward)
    (earlier later : List Name) : (state.renameTerminals f).run earlier later =
      (state.run earlier later).map (Forward.renameTerminals f) := by
  induction later generalizing state earlier with
  | nil => rfl
  | cons current later ih =>
    have hproductions : earlier.foldl (state.grammar.renameTerminals f).expandEarlier
        ((state.grammar.renameTerminals f).productionsOf current) =
          (earlier.foldl state.grammar.expandEarlier (state.grammar.productionsOf current)).map
            (Production.renameTerminals f) := by
      rw [productionsOf_renameTerminals]
      exact List.foldl_hom _ (expandEarlier_renameTerminals hf state.grammar)
    refine bind_map_of_map ?_ fun next ↦ ih next (earlier ++ [current])
    rw [← removeLeftRecursion_renameTerminals hf]
    simp only [renameTerminals, hproductions, modify_const_renameTerminals]

theorem forward_renameTerminals (hf : Function.Injective f) (g : Grammar) :
    (g.renameTerminals f).forward = g.forward.map (Forward.renameTerminals f) := by
  rw [forward, names_renameTerminals]
  exact Forward.run_renameTerminals hf { grammar := g } [] g.names

/-! ## Going backward -/

theorem expandLeading_renameTerminals (hf : Function.Injective f) (g : Grammar) (current : Name) :
    (g.renameTerminals f).expandLeading current = (g.expandLeading current).renameTerminals f := by
  apply modify_renameTerminals
  refine eraseDups_flatMap_map (Production.injective_renameTerminals hf) fun p ↦ ?_
  rw [Production.leading?_renameTerminals]
  cases p.leading? with
  | none => rfl
  | some lead =>
    simp only [productionsOf_renameTerminals, Production.replaceFirst_renameTerminals]

theorem toGreibach_renameTerminals (hf : Function.Injective f) (g : Grammar) :
    (g.renameTerminals f).toGreibach = g.toGreibach.map (renameTerminals f) := by
  unfold toGreibach
  rw [validate_renameTerminals, greibachObstacle?_renameTerminals, names_renameTerminals]
  cases g.validate with
  | error error => rfl
  | ok _ =>
    cases g.greibachObstacle? with
    | some error => rfl
    | none =>
      change ((g.renameTerminals f).forward >>= _) = (g.forward >>= _).map _
      refine bind_map_of_map (forward_renameTerminals hf g) fun state ↦ ?_
      exact congrArg Except.ok
        (List.foldl_hom (renameTerminals f) fun k n ↦ expandLeading_renameTerminals hf k n)

end Grammar

/-! ## Runs of changes of form -/

/-- The state with its grammar renamed.  The generator is kept. -/
def RunState.renameTerminals (f : Name → Name) (state : RunState) : RunState :=
  { state with grammar := state.grammar.renameTerminals f }

namespace Pass

theorem result_renameTerminals (hf : Function.Injective f) (state : RunState) (pass : Pass) :
    pass.result (state.renameTerminals f) =
      (pass.result state).map (Grammar.renameTerminals f) := by
  cases pass with
  | eliminateNull nullable => exact Grammar.eliminateNull_renameTerminals hf state.grammar nullable
  | eliminateUnits => exact Grammar.eliminateUnits_renameTerminals hf state.grammar
  | binarize =>
    exact bind_map_of_map (Grammar.binarize_renameTerminals state.grammar state.fresh) fun _ ↦ rfl
  | isolateTerminals =>
    exact bind_map_of_map (Grammar.isolateTerminals_renameTerminals hf state.grammar state.fresh)
      fun _ ↦ rfl
  | toChomsky => exact Grammar.toChomsky_renameTerminals hf state.grammar
  | toGreibach => exact Grammar.toGreibach_renameTerminals hf state.grammar

theorem freshAfter_renameTerminals (hf : Function.Injective f) (state : RunState) (pass : Pass) :
    pass.freshAfter (state.renameTerminals f) = pass.freshAfter state := by
  cases pass with
  | binarize =>
    simp only [freshAfter, RunState.renameTerminals, Grammar.validate_renameTerminals,
      Grammar.names_renameTerminals, Grammar.rules_renameTerminals,
      Grammar.splitRules_renameTerminals, Extended.map]
  | isolateTerminals =>
    simp only [freshAfter, RunState.renameTerminals, Grammar.validate_renameTerminals,
      Grammar.names_renameTerminals, Grammar.mixedTerminals_renameTerminals hf,
      TerminalTable.ofTerminals_rename, Prod.map_snd, id_eq]
  | eliminateNull nullable => rfl
  | eliminateUnits => rfl
  | toChomsky => rfl
  | toGreibach => rfl

theorem step_renameTerminals (hf : Function.Injective f) (state : RunState) (pass : Pass) :
    step (state.renameTerminals f) pass = (step state pass).renameTerminals f := by
  rw [step, freshAfter_renameTerminals hf, result_renameTerminals hf, step]
  cases pass.result state with
  | error error => rfl
  | ok h => rfl

theorem run_renameTerminals (hf : Function.Injective f) (state : RunState) (passes : List Pass) :
    run (state.renameTerminals f) passes = (run state passes).renameTerminals f :=
  List.foldl_hom (RunState.renameTerminals f) (step_renameTerminals hf)

end Pass

namespace Grammar

/-- Changes of form depend on the kinds of symbols and never on the names of terminals.  Of a
renamed grammar each of them makes the renamed result, with the same names in the same order, the
same names minted and the same generator afterwards, or it fails with the very same error.  So does
each of them at the end of a run of others, and the tests for the normal forms give the same
answers. -/
theorem forms_renameTerminals (hf : Function.Injective f) (g : Grammar) (fresh : FreshNames) :
    (g.renameTerminals f).validate = g.validate ∧
      (∀ nullable, (g.renameTerminals f).eliminateNull nullable =
        (g.eliminateNull nullable).map (renameTerminals f)) ∧
      (g.renameTerminals f).eliminateUnits = g.eliminateUnits.map (renameTerminals f) ∧
      (g.renameTerminals f).binarize fresh =
        (g.binarize fresh).map (Prod.map (renameTerminals f) id) ∧
      (g.renameTerminals f).isolateTerminals fresh =
        (g.isolateTerminals fresh).map (Prod.map (renameTerminals f) id) ∧
      (g.renameTerminals f).toChomsky = g.toChomsky.map (renameTerminals f) ∧
      (g.renameTerminals f).toGreibach = g.toGreibach.map (renameTerminals f) ∧
      (∀ h : Grammar, (h.renameTerminals f).names = h.names) ∧
      (g.renameTerminals f).isChomsky = g.isChomsky ∧
      (g.renameTerminals f).isGreibach = g.isGreibach ∧
      ∀ (passes : List Pass) (pass : Pass),
        pass.result (Pass.run ⟨g.renameTerminals f, fresh⟩ passes) =
            (pass.result (Pass.run ⟨g, fresh⟩ passes)).map (renameTerminals f) ∧
          pass.freshAfter (Pass.run ⟨g.renameTerminals f, fresh⟩ passes) =
            pass.freshAfter (Pass.run ⟨g, fresh⟩ passes) := by
  refine ⟨g.validate_renameTerminals, g.eliminateNull_renameTerminals hf,
    g.eliminateUnits_renameTerminals hf, g.binarize_renameTerminals fresh,
    g.isolateTerminals_renameTerminals hf fresh, g.toChomsky_renameTerminals hf,
    g.toGreibach_renameTerminals hf, names_renameTerminals f, g.isChomsky_renameTerminals,
    g.isGreibach_renameTerminals, fun passes pass ↦ ?_⟩
  have hrun : Pass.run ⟨g.renameTerminals f, fresh⟩ passes =
      (Pass.run ⟨g, fresh⟩ passes).renameTerminals f :=
    Pass.run_renameTerminals hf ⟨g, fresh⟩ passes
  rw [hrun]
  exact ⟨Pass.result_renameTerminals hf _ pass, Pass.freshAfter_renameTerminals hf _ pass⟩

/-- Two non-terminals that are left-recursive through each other. -/
def mutualSums : Grammar where
  rules := [
    ("S", [[.nonTerminal "A", .terminal "a", .terminal "b"], [.terminal "c"]]),
    ("A", [[.nonTerminal "S", .terminal "b"], [.terminal "a"]])]

def mutualSumsChomsky : Grammar where
  rules := [
    ("S", [[.nonTerminal "A", .nonTerminal "S0"], [.terminal "c"]]),
    ("A", [[.nonTerminal "S", .nonTerminal "T1"], [.terminal "a"]]),
    ("S0", [[.nonTerminal "T2", .nonTerminal "T1"]]),
    ("T1", [[.terminal "b"]]),
    ("T2", [[.terminal "a"]])]

/-- Sends the terminals of `mutualSums` to a non-terminal, to the mark of the empty string and to
the tail that is minted for it. -/
def collidingNames : Equiv.Perm Name :=
  (Equiv.swap "a" "S").trans ((Equiv.swap "b" epsilonName).trans (Equiv.swap "c" "T0"))

def collidingSums : Grammar where
  rules := [
    ("S", [[.nonTerminal "A", .terminal "S", .terminal "λ"], [.terminal "T0"]]),
    ("A", [[.nonTerminal "S", .terminal "λ"], [.terminal "S"]])]

/-- The names of the renamed terminals collide with those of non-terminals, old and new. -/
theorem forms_renameTerminals_colliding :
    Function.Injective collidingNames ∧
      mutualSums.renameTerminals collidingNames = collidingSums ∧
      mutualSums.toChomsky = .ok mutualSumsChomsky ∧
      collidingSums.toChomsky = .ok (mutualSumsChomsky.renameTerminals collidingNames) ∧
      (mutualSumsChomsky.renameTerminals collidingNames).productionsOf "T2" = [[.terminal "S"]] ∧
      (mutualSums.toGreibach.map names = .ok ["S", "A", "T0"]) ∧
      collidingSums.toGreibach =
        mutualSums.toGreibach.map (renameTerminals collidingNames) := by
  have hinjective : Function.Injective collidingNames := collidingNames.injective
  have hrenamed : mutualSums.renameTerminals collidingNames = collidingSums := by rfl
  have hchomsky : mutualSums.toChomsky = .ok mutualSumsChomsky := by rfl
  obtain ⟨-, -, -, -, -, htoChomsky, htoGreibach, -, -, -, -⟩ :=
    forms_renameTerminals hinjective mutualSums {}
  rw [hrenamed] at htoChomsky htoGreibach
  rw [hchomsky] at htoChomsky
  exact ⟨hinjective, hrenamed, hchomsky, htoChomsky, by rfl, by rfl, htoGreibach⟩

end Grammar

end ContextFree
