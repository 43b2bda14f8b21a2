import ContextFree.CommandLine.Run

/-!
# A log without errors

A change of form reports what it does, and at worst it warns.  The error that ends a run is no
message of the log, so a log that is cut down to errors is empty, whatever the input and however far
the run gets.
-/

namespace ContextFree

/-- No message is an error. -/
def ErrorFree (log : List LogEntry) : Prop :=
  ∀ entry ∈ log, entry.level ≠ .error

namespace ErrorFree

variable {entry : LogEntry} {log rest : List LogEntry} {α : Type} {l : List α}

theorem nil : ErrorFree [] :=
  List.forall_mem_nil _

theorem cons (hentry : entry.level ≠ .error) (hlog : ErrorFree log) : ErrorFree (entry :: log) :=
  List.forall_mem_cons.2 ⟨hentry, hlog⟩

theorem append (hlog : ErrorFree log) (hrest : ErrorFree rest) : ErrorFree (log ++ rest) :=
  List.forall_mem_append.2 ⟨hlog, hrest⟩

theorem map {report : α → LogEntry} (hreport : ∀ a, (report a).level ≠ .error) :
    ErrorFree (l.map report) :=
  List.forall_mem_map.2 fun a _ ↦ hreport a

theorem flatMap {reports : α → List LogEntry} (hreports : ∀ a, ErrorFree (reports a)) :
    ErrorFree (l.flatMap reports) := by
  intro entry hentry
  obtain ⟨a, -, hmember⟩ := List.mem_flatMap.1 hentry
  exact hreports a entry hmember

end ErrorFree

namespace Grammar

theorem errorFree_nullLogOf (isStart : Bool) (nullable : List Name) (left : Name)
    (p : Production) : ErrorFree (nullLogOf isStart nullable left p) := by
  unfold nullLogOf
  split
  · exact .cons nofun .nil
  · exact .map fun _ ↦ nofun

theorem errorFree_eliminateNullLog (g : Grammar) (nullable : List Name) :
    ErrorFree (g.eliminateNullLog nullable) := by
  unfold eliminateNullLog
  split
  · exact .nil
  · exact .cons nofun (.flatMap fun _ ↦ .flatMap (errorFree_nullLogOf _ _ _))

theorem errorFree_eliminateUnitsLog (g : Grammar) : ErrorFree g.eliminateUnitsLog := by
  unfold eliminateUnitsLog
  split
  · exact .cons nofun (.flatMap fun _ ↦ .map fun _ ↦ nofun)
  · exact .nil

theorem errorFree_binarizeLog (g : Grammar) : ErrorFree g.binarizeLog := by
  unfold binarizeLog
  split
  · exact .nil
  · exact .cons nofun (.flatMap fun _ ↦ .map fun _ ↦ nofun)

theorem errorFree_isolateTerminalsLog (g : Grammar) (fresh : FreshNames) :
    ErrorFree (g.isolateTerminalsLog fresh) := by
  unfold isolateTerminalsLog
  split
  · exact .nil
  · exact .cons nofun (.map fun _ ↦ nofun)

/-- A result that is not in Chomsky normal form is worth a warning, not an error. -/
theorem errorFree_chomskyReport (g result : Grammar) : ErrorFree (g.chomskyReport result) := by
  unfold chomskyReport
  refine .cons nofun ?_
  split
  · exact .nil
  · exact .cons nofun .nil

theorem errorFree_toChomskyLog (g : Grammar) : ErrorFree g.toChomskyLog := by
  -- One case for each pass at which the log may end.
  refine .append (g.errorFree_eliminateNullLog _) ?_
  split
  · exact .nil
  refine .append (errorFree_eliminateUnitsLog _) ?_
  split
  · exact .nil
  refine .append (errorFree_binarizeLog _) ?_
  split
  · exact .nil
  refine .append (errorFree_isolateTerminalsLog _ _) ?_
  split
  · exact .nil
  exact errorFree_chomskyReport _ _

theorem errorFree_forwardLog (state : Forward) : ErrorFree (forwardLog state) :=
  .map fun _ ↦ nofun

theorem errorFree_backwardLog (state : Forward) (declared : List Name) :
    ErrorFree (backwardLog state declared) :=
  .flatMap fun _ ↦ .map fun _ ↦ nofun

theorem errorFree_toGreibachLog (g : Grammar) : ErrorFree g.toGreibachLog := by
  unfold toGreibachLog
  split
  · refine .cons nofun ?_
    split
    · refine .append ?_ (.cons nofun .nil)
      exact .append (errorFree_forwardLog _) (errorFree_backwardLog _ _)
    · exact .nil
  · exact .nil

end Grammar

namespace CommandLine

theorem Action.errorFree_log (action : Action) (g : Grammar) : ErrorFree (action.log g) := by
  cases action with
  | chomsky => exact g.errorFree_toChomskyLog
  | greibach => exact g.errorFree_toGreibachLog

theorem Job.errorFree_actionsLog (actions : List Action) (g : Grammar) :
    ErrorFree (actionsLog actions g) := by
  induction actions generalizing g with
  | nil => exact .nil
  | cons action actions ih =>
    refine .append (action.errorFree_log g) ?_
    split
    · exact ih _
    · exact .nil

/-- No message of a job is an error, also where the job fails. -/
theorem Job.errorFree_log (job : Job) (library : Library) (input : Except InputFault ByteArray) :
    ErrorFree (job.log library input) := by
  unfold Job.log
  split
  · exact .nil
  · exact .cons nofun (errorFree_actionsLog _ _)

/-- A log that is cut down to errors is empty. -/
theorem logText_error {log : List LogEntry} (hlog : ErrorFree log) :
    logText (some .error) log = "" := by
  have hnone : log.filter (·.level.rank ≤ LogLevel.error.rank) = [] := by
    rw [List.filter_eq_nil_iff]
    intro entry hentry
    have hlevel : entry.level ≠ .error := hlog entry hentry
    cases hsame : entry.level <;> first | exact absurd hsame hlevel | decide
  rw [logText, hnone]
  rfl

end CommandLine

end ContextFree
