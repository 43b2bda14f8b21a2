import ContextFree.Proofs.Chomsky
import ContextFree.Proofs.Greibach.Outcome
import ContextFree.Proofs.Minting
import ContextFree.Proofs.UnitReachability

/-!
# Runs of passes

The changes of form may be applied in any order, those that take a generator sharing one.  Each of
them leaves a valid grammar that declares what was declared before and then the names it has minted,
so each finds a valid grammar, whatever has been applied before it.  A refusal always has its cause
in the unit productions or the empty ones, and never in a name.
-/

namespace ContextFree

open FreshNames (Mints)

/-- The errors that tell of a grammar which is not valid, or of a name that was to be new. -/
def GrammarError.BreaksForm : GrammarError → Prop
  | .nameCollision _ => True
  | .malformed _ .empty => True
  | .malformed _ .epsilonNotAlone => True
  | .malformed _ (.undeclared _) => True
  | _ => False

namespace Grammar

variable {g h k : Grammar} {fresh state last : FreshNames} {error : GrammarError}

/-! ## What a change of form leaves -/

/-- A valid grammar that declares the names of another one and then those minted for it, in the
order in which they were minted. -/
structure Extends (g h : Grammar) (fresh last : FreshNames) : Prop where
  valid : h.Valid
  names : ∃ added, h.names = g.names ++ added ∧ Mints g.names fresh added last

theorem extends_of_names_eq (hvalid : h.Valid) (hnames : h.names = g.names) :
    Extends g h fresh fresh :=
  ⟨hvalid, [], by rw [hnames, List.append_nil], .nil⟩

theorem Extends.trans (hfirst : Extends g h fresh state) (hsecond : Extends h k state last) :
    Extends g k fresh last := by
  obtain ⟨first, hfirstNames, hfirstMints⟩ := hfirst.names
  obtain ⟨second, hsecondNames, hsecondMints⟩ := hsecond.names
  have hsubset : g.names ⊆ h.names := by
    rw [hfirstNames]
    exact List.subset_append_left _ _
  refine ⟨hsecond.valid, first ++ second, ?_, hfirstMints.append (hsecondMints.mono hsubset)⟩
  rw [hsecondNames, hfirstNames, List.append_assoc]

/-- The first name stays the first. -/
theorem Extends.start?_eq (hextends : Extends g h fresh last) (hne : g.names ≠ []) :
    h.start? = g.start? := by
  obtain ⟨added, hnames, -⟩ := hextends.names
  obtain ⟨first, hfirst⟩ := List.exists_mem_of_ne_nil _ hne
  exact start?_of_names_append hnames hfirst

theorem extends_eliminateNull {nullable : List Name} (hresult : g.eliminateNull nullable = .ok h) :
    Extends g h fresh fresh :=
  extends_of_names_eq (valid_eliminateNull hresult) (names_eliminateNull hresult)

theorem extends_eliminateUnits (hresult : g.eliminateUnits = .ok h) : Extends g h fresh fresh :=
  extends_of_names_eq (valid_eliminateUnits hresult) (names_eliminateUnits hresult)

theorem extends_binarize (hresult : g.binarize fresh = .ok (h, last)) : Extends g h fresh last := by
  obtain ⟨-, -, rfl⟩ := binarize_eq_ok_iff.1 hresult
  exact ⟨valid_binarize hresult, _, names_binarize hresult, g.mints_splitOff fresh⟩

theorem extends_isolateTerminals (hresult : g.isolateTerminals fresh = .ok (h, last)) :
    Extends g h fresh last := by
  obtain ⟨-, -, rfl⟩ := isolateTerminals_eq_ok_iff.1 hresult
  exact ⟨valid_isolateTerminals hresult, _, names_isolateTerminals hresult,
    g.mints_terminalTable fresh⟩

theorem exists_extends_toChomsky (hresult : g.toChomsky = .ok h) :
    ∃ last, Extends g h {} last := by
  obtain ⟨nullFree, unitFree, binary, fresh, last, hnull, hunit, hbinary, hisolated⟩ :=
    toChomsky_eq_ok_iff.1 hresult
  have hunitFree : Extends g unitFree {} {} :=
    (extends_eliminateNull hnull).trans (extends_eliminateUnits hunit)
  have hbinaryFree : Extends g binary {} fresh := hunitFree.trans (extends_binarize hbinary)
  exact ⟨last, hbinaryFree.trans (extends_isolateTerminals hisolated)⟩

theorem exists_extends_toGreibach (hresult : g.toGreibach = .ok h) :
    ∃ last, Extends g h {} last := by
  obtain ⟨tails, last, hnames, hmints⟩ := exists_names_toGreibach hresult
  exact ⟨last, (leadInto_nil_toGreibach hresult).1.valid, tails, hnames, hmints⟩

/-! ## Why a change of form refuses a valid grammar -/

theorem exists_unitCycle_of_eliminateUnits (hvalid : g.Valid)
    (herror : g.eliminateUnits = .error error) :
    ∃ name others, error = .divergent name (.unitCycle others) := by
  rcases eliminateUnits_eq_error_iff.1 herror with hrefused | ⟨-, hcycle⟩
  · exact absurd hrefused hvalid.validate_ne_error
  · exact exists_unitCycle_of_unitCycle? hcycle

/-- Of the four passes only the second may fail. -/
theorem exists_unitCycle_of_toChomsky (hvalid : g.Valid) (herror : g.toChomsky = .error error) :
    ∃ name others, error = .divergent name (.unitCycle others) := by
  obtain ⟨nullFree, hnull⟩ := exists_eliminateNull_eq_ok hvalid g.nullable
  have hnullFree : nullFree.Valid := valid_eliminateNull hnull
  cases hunit : nullFree.eliminateUnits with
  | error first =>
    have hsame : first = error := by
      simpa only [toChomsky, hnull, hunit, bind, Except.bind, Except.error.injEq] using herror
    exact hsame ▸ exists_unitCycle_of_eliminateUnits hnullFree hunit
  | ok unitFree =>
    obtain ⟨binary, hbinary⟩ := exists_binarize_eq_ok (valid_eliminateUnits hunit) {}
    obtain ⟨c, hisolated⟩ := exists_isolateTerminals_eq_ok (valid_binarize hbinary)
      (splitRules unitFree.names {} unitFree.rules).fresh
    have hok : g.toChomsky = .ok c :=
      toChomsky_eq_ok_iff.2 ⟨nullFree, unitFree, binary, _, _, hnull, hunit, hbinary, hisolated⟩
    rw [hok] at herror
    exact nomatch herror

theorem not_breaksForm_of_toGreibach (hvalid : g.Valid) (herror : g.toGreibach = .error error) :
    ¬ error.BreaksForm := by
  rcases toGreibach_eq_error_iff.1 herror with hrefused | ⟨-, hobstacle⟩
  · exact absurd hrefused hvalid.validate_ne_error
  · cases hobstacle with
    | strayEpsilon => exact not_false
    | usedEpsilon => exact not_false
    | unitLoop => exact not_false
    | barrenStart => exact not_false

end Grammar

/-! ## Passes and their runs -/

/-- A grammar and the generator that the passes of a run share. -/
structure RunState where
  grammar : Grammar
  fresh : FreshNames

/-- A change of form, as a step of a run. -/
inductive Pass where
  | eliminateNull (nullable : List Name)
  | eliminateUnits
  | binarize
  | isolateTerminals
  | toChomsky
  | toGreibach
deriving DecidableEq, Repr

namespace Pass

/-- The changes to a normal form have a generator of their own. -/
def sharesGenerator : Pass → Bool
  | toChomsky | toGreibach => false
  | _ => true

/-- The generator that a pass mints its names from. -/
def generator (pass : Pass) (state : RunState) : FreshNames :=
  if pass.sharesGenerator then state.fresh else {}

def result (state : RunState) : Pass → Except GrammarError Grammar
  | eliminateNull nullable => state.grammar.eliminateNull nullable
  | eliminateUnits => state.grammar.eliminateUnits
  | binarize => do return (← state.grammar.binarize state.fresh).1
  | isolateTerminals => do return (← state.grammar.isolateTerminals state.fresh).1
  | toChomsky => state.grammar.toChomsky
  | toGreibach => state.grammar.toGreibach

/-- The shared generator afterwards, also if the pass fails.  Nothing is minted before the
validation, and everything before the first rule is inserted. -/
def freshAfter (state : RunState) : Pass → FreshNames
  | binarize =>
    match state.grammar.validate with
    | .ok _ => (Grammar.splitRules state.grammar.names state.fresh state.grammar.rules).fresh
    | .error _ => state.fresh
  | isolateTerminals =>
    match state.grammar.validate with
    | .ok _ => (TerminalTable.ofTerminals state.grammar.names state.fresh
        state.grammar.mixedTerminals).2
    | .error _ => state.fresh
  | _ => state.fresh

/-- A pass that fails leaves the grammar to the next one. -/
def step (state : RunState) (pass : Pass) : RunState where
  grammar :=
    match pass.result state with
    | .ok h => h
    | .error _ => state.grammar
  fresh := pass.freshAfter state

def run (state : RunState) (passes : List Pass) : RunState :=
  passes.foldl step state

/-- Whether a pass has searches that may find a reason to refuse a valid grammar. -/
def mayRefuse : Pass → Bool
  | eliminateUnits | toChomsky | toGreibach => true
  | _ => false

/-- Whether a pass keeps to the declared non-terminals. -/
def mintsNothing : Pass → Bool
  | eliminateNull _ | eliminateUnits => true
  | _ => false

/-- What a pass that succeeds leaves. -/
structure Succeeds (pass : Pass) (state : RunState) (h : Grammar) : Prop where
  valid : h.Valid
  names : ∃ added last, h.names = state.grammar.names ++ added ∧ added.Nodup ∧
    (∀ name ∈ added, name ∉ state.grammar.names) ∧
      Mints state.grammar.names (pass.generator state) added last ∧
        pass.freshAfter state = if pass.sharesGenerator then last else state.fresh
  start : state.grammar.names ≠ [] → h.start? = state.grammar.start?
  kept : pass.mintsNothing = true → h.names = state.grammar.names

/-- What a pass that fails leaves. -/
structure Refuses (pass : Pass) (state : RunState) (error : GrammarError) : Prop where
  cause : ¬ error.BreaksForm
  fresh : pass.freshAfter state = state.fresh

variable {state : RunState} {pass : Pass} {h : Grammar} {error : GrammarError} {last : FreshNames}

/-! ## One step -/

theorem freshAfter_binarize (hresult : state.grammar.binarize state.fresh = .ok (h, last)) :
    binarize.freshAfter state = last := by
  obtain ⟨hvalid, -, rfl⟩ := Grammar.binarize_eq_ok_iff.1 hresult
  rw [freshAfter, Grammar.validate_eq_ok_iff.2 hvalid]

theorem freshAfter_isolateTerminals
    (hresult : state.grammar.isolateTerminals state.fresh = .ok (h, last)) :
    isolateTerminals.freshAfter state = last := by
  obtain ⟨hvalid, -, rfl⟩ := Grammar.isolateTerminals_eq_ok_iff.1 hresult
  rw [freshAfter, Grammar.validate_eq_ok_iff.2 hvalid]

theorem succeeds_of_extends
    (hextends : state.grammar.Extends h (pass.generator state) last)
    (hlast : pass.freshAfter state = if pass.sharesGenerator then last else state.fresh)
    (hkept : pass.mintsNothing = true → h.names = state.grammar.names) :
    pass.Succeeds state h := by
  obtain ⟨added, hnames, hmints⟩ := hextends.names
  exact ⟨hextends.valid,
    ⟨added, last, hnames, hmints.nodup, fun name hname ↦ (hmints.notMem hname).1, hmints, hlast⟩,
    hextends.start?_eq, hkept⟩

/-- What each pass leaves when it succeeds. -/
theorem succeeds_of_result (hresult : pass.result state = .ok h) : pass.Succeeds state h := by
  cases pass with
  | eliminateNull nullable =>
    exact succeeds_of_extends (Grammar.extends_eliminateNull hresult) rfl
      fun _ ↦ Grammar.names_eliminateNull hresult
  | eliminateUnits =>
    exact succeeds_of_extends (Grammar.extends_eliminateUnits hresult) rfl
      fun _ ↦ Grammar.names_eliminateUnits hresult
  | binarize =>
    obtain ⟨⟨binary, last⟩, hbinary, hsame⟩ := bind_eq_ok_iff.1 hresult
    obtain rfl := pure_eq_ok_iff.1 hsame
    exact succeeds_of_extends (Grammar.extends_binarize hbinary) (freshAfter_binarize hbinary) nofun
  | isolateTerminals =>
    obtain ⟨⟨isolated, last⟩, hisolated, hsame⟩ := bind_eq_ok_iff.1 hresult
    obtain rfl := pure_eq_ok_iff.1 hsame
    exact succeeds_of_extends (Grammar.extends_isolateTerminals hisolated)
      (freshAfter_isolateTerminals hisolated) nofun
  | toChomsky =>
    obtain ⟨last, hextends⟩ := Grammar.exists_extends_toChomsky hresult
    exact succeeds_of_extends hextends rfl nofun
  | toGreibach =>
    obtain ⟨last, hextends⟩ := Grammar.exists_extends_toGreibach hresult
    exact succeeds_of_extends hextends rfl nofun

theorem exists_result_eq_ok (hvalid : state.grammar.Valid) (hnever : pass.mayRefuse = false) :
    ∃ h, pass.result state = .ok h := by
  cases pass with
  | eliminateNull nullable => exact Grammar.exists_eliminateNull_eq_ok hvalid nullable
  | binarize =>
    obtain ⟨h, hbinary⟩ := Grammar.exists_binarize_eq_ok hvalid state.fresh
    exact ⟨h, bind_eq_ok_iff.2 ⟨_, hbinary, rfl⟩⟩
  | isolateTerminals =>
    obtain ⟨h, hisolated⟩ := Grammar.exists_isolateTerminals_eq_ok hvalid state.fresh
    exact ⟨h, bind_eq_ok_iff.2 ⟨_, hisolated, rfl⟩⟩
  | eliminateUnits => exact nomatch hnever
  | toChomsky => exact nomatch hnever
  | toGreibach => exact nomatch hnever

/-- What each pass leaves when it fails.  Only those that search for a reason can. -/
theorem refuses_of_result (hvalid : state.grammar.Valid)
    (herror : pass.result state = .error error) : pass.Refuses state error := by
  have hnever : pass.mayRefuse ≠ false := by
    intro hnever
    obtain ⟨h, hresult⟩ := exists_result_eq_ok hvalid hnever
    rw [hresult] at herror
    exact nomatch herror
  cases pass with
  | eliminateUnits =>
    obtain ⟨name, others, rfl⟩ := Grammar.exists_unitCycle_of_eliminateUnits hvalid herror
    exact ⟨not_false, rfl⟩
  | toChomsky =>
    obtain ⟨name, others, rfl⟩ := Grammar.exists_unitCycle_of_toChomsky hvalid herror
    exact ⟨not_false, rfl⟩
  | toGreibach => exact ⟨Grammar.not_breaksForm_of_toGreibach hvalid herror, rfl⟩
  | eliminateNull nullable => exact absurd rfl hnever
  | binarize => exact absurd rfl hnever
  | isolateTerminals => exact absurd rfl hnever

/-- A step leaves a valid grammar that begins with the names it found. -/
theorem step_keeps (hvalid : state.grammar.Valid) (pass : Pass) :
    (step state pass).grammar.Valid ∧ state.grammar.names <+: (step state pass).grammar.names := by
  rw [step]
  cases hresult : pass.result state with
  | error error => exact ⟨hvalid, List.prefix_refl _⟩
  | ok h =>
    have hsucceeds := succeeds_of_result hresult
    obtain ⟨added, _, hnames, -⟩ := hsucceeds.names
    exact ⟨hsucceeds.valid, added, hnames.symm⟩

/-! ## Whole runs -/

theorem run_keeps (hvalid : state.grammar.Valid) (passes : List Pass) :
    (run state passes).grammar.Valid ∧
      state.grammar.names <+: (run state passes).grammar.names := by
  induction passes generalizing state with
  | nil => exact ⟨hvalid, List.prefix_refl _⟩
  | cons pass passes ih =>
    obtain ⟨hnext, hfirst⟩ := step_keeps hvalid pass
    obtain ⟨hlast, hrest⟩ := ih hnext
    exact ⟨hlast, hfirst.trans hrest⟩

/-- Every pass of a run from a valid grammar, with any generator to share, finds a valid grammar.
If it succeeds it leaves one that declares new names behind the old ones only, and if it fails it is
for no fault of the grammar's form, with nothing minted. -/
theorem run_invariant {g : Grammar} (hvalid : g.Valid) (fresh : FreshNames) (passes : List Pass)
    (pass : Pass) :
    (run ⟨g, fresh⟩ passes).grammar.Valid ∧ g.names <+: (run ⟨g, fresh⟩ passes).grammar.names ∧
      (∀ h, pass.result (run ⟨g, fresh⟩ passes) = .ok h →
        pass.Succeeds (run ⟨g, fresh⟩ passes) h) ∧
      (∀ error, pass.result (run ⟨g, fresh⟩ passes) = .error error →
        pass.Refuses (run ⟨g, fresh⟩ passes) error) ∧
      (pass.mayRefuse = false → ∃ h, pass.result (run ⟨g, fresh⟩ passes) = .ok h) := by
  obtain ⟨hrun, hnames⟩ : (run ⟨g, fresh⟩ passes).grammar.Valid ∧
      g.names <+: (run ⟨g, fresh⟩ passes).grammar.names := run_keeps hvalid passes
  exact ⟨hrun, hnames, fun _ hresult ↦ succeeds_of_result hresult,
    fun _ herror ↦ refuses_of_result hrun herror, fun hnever ↦ exists_result_eq_ok hrun hnever⟩

/-- Nested parentheses.  The start symbol has the production `λ` and is used. -/
def parentheses : Grammar where
  rules := [("S", [[.terminal "(", .nonTerminal "S", .terminal ")"], [.epsilon]])]

def parenthesesBinary : Grammar where
  rules := [
    ("S", [[.terminal "(", .nonTerminal "S1"], [.epsilon]]),
    ("S1", [[.nonTerminal "S", .terminal ")"]])]

def parenthesesIsolated : Grammar where
  rules := [
    ("S", [[.nonTerminal "T2", .nonTerminal "S1"], [.epsilon]]),
    ("S1", [[.nonTerminal "S", .nonTerminal "T3"]]),
    ("T2", [[.terminal "("]]),
    ("T3", [[.terminal ")"]])]

/-- The generator has minted a name for another grammar, and the first pass of the run fails. -/
theorem run_invariant_parentheses :
    parentheses.Valid ∧
      toGreibach.result ⟨parentheses, ⟨1, ["S0"]⟩⟩ =
        .error (.malformed "S" .epsilonOfUsedStart) ∧
      run ⟨parentheses, ⟨1, ["S0"]⟩⟩ [toGreibach, binarize] =
        ⟨parenthesesBinary, ⟨2, ["S1", "S0"]⟩⟩ ∧
      isolateTerminals.result ⟨parenthesesBinary, ⟨2, ["S1", "S0"]⟩⟩ = .ok parenthesesIsolated ∧
      isolateTerminals.Succeeds ⟨parenthesesBinary, ⟨2, ["S1", "S0"]⟩⟩ parenthesesIsolated := by
  have hvalid : parentheses.Valid := Grammar.validate_eq_ok_iff.1 (by rfl)
  have hrun : run ⟨parentheses, ⟨1, ["S0"]⟩⟩ [toGreibach, binarize] =
      ⟨parenthesesBinary, ⟨2, ["S1", "S0"]⟩⟩ := by rfl
  have hresult : isolateTerminals.result ⟨parenthesesBinary, ⟨2, ["S1", "S0"]⟩⟩ =
      .ok parenthesesIsolated := by rfl
  have hinvariant := run_invariant hvalid ⟨1, ["S0"]⟩ [toGreibach, binarize] isolateTerminals
  rw [hrun] at hinvariant
  obtain ⟨-, -, hsucceeds, -, -⟩ := hinvariant
  exact ⟨hvalid, by rfl, hrun, hresult, hsucceeds _ hresult⟩

end Pass

end ContextFree
