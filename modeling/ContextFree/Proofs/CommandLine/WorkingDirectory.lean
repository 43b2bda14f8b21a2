import ContextFree.CommandLine.WorkingDirectory
import ContextFree.Proofs.CommandLine.Outcome

/-!
# Files and standard input

A file put into a working directory is found again under its path, if each name on the path leads
one step down and nothing is too long.  The way to the file is laid together with it, and what is
put in further down hides nothing further up.  So a run gives the same for a text in a file as for
the text on standard input.
-/

namespace ContextFree.CommandLine

namespace WorkingDirectory

variable {tree : WorkingDirectory} {name path : String} {names way other : List String}
  {content : ByteArray}

/-- A name that leads one step down. -/
structure Plain (name : String) : Prop where
  ne_empty : name ≠ ""
  ne_here : name ≠ "."
  ne_above : name ≠ ".."
  short : name.utf8ByteSize ≤ maxNameBytes

/-- A path that leads down from the root of the tree. -/
structure LeadsDown (path : String) : Prop where
  plain : ∀ name ∈ steps path, Plain name
  short : path.utf8ByteSize ≤ maxPathBytes

theorem step_inside (hname : Plain name) :
    step (.inside way) name = some (.inside (way ++ [name])) := by
  obtain ⟨hempty, hhere, habove, -⟩ := hname
  unfold step
  split <;> simp_all

theorem node_insertAt_none (tree : WorkingDirectory) (way : List String) :
    (tree.insertAt none (.inside way)).node way = .directory := by
  simp [insertAt, node]

theorem node_insertAt_some (tree : WorkingDirectory) (content : ByteArray) (way : List String) :
    (tree.insertAt (some content) (.inside way)).node way = .file content := by
  simp [insertAt, node]

theorem node_insertAt_of_ne (entry : Option ByteArray) (hother : other ≠ way) :
    (tree.insertAt entry (.inside way)).node other = tree.node other := by
  simp [insertAt, node, List.lookup_cons, beq_eq_false_iff_ne.2 hother]

/-- What lies above a new entry stays as it is. -/
theorem node_insertFrom_of_length_lt (entry : Option ByteArray) (tree : WorkingDirectory)
    (hnames : ∀ name ∈ names, Plain name) (hother : other.length < way.length) :
    (insertFrom entry tree (.inside way) names).node other = tree.node other := by
  induction names generalizing tree way with
  | nil => exact node_insertAt_of_ne entry (ne_of_apply_ne List.length (Nat.ne_of_lt hother))
  | cons name names ih =>
    obtain ⟨hname, hlater⟩ := List.forall_mem_cons.1 hnames
    have hne : other ≠ way := ne_of_apply_ne List.length (Nat.ne_of_lt hother)
    rw [insertFrom, step_inside hname]
    dsimp only
    rw [ih _ hlater (by rw [List.length_append]; omega), node_insertAt_of_ne none hne]

/-- A new file is found on the way that it was put in by. -/
theorem readFrom_insertFrom (tree : WorkingDirectory) (content : ByteArray) (way : List String)
    (hnames : ∀ name ∈ names, Plain name) :
    (insertFrom (some content) tree (.inside way) names).readFrom (.inside way) names =
      .ok content := by
  induction names generalizing tree way with
  | nil =>
    rw [insertFrom, readFrom, node_insertAt_some]
  | cons name names ih =>
    obtain ⟨hname, hlater⟩ := List.forall_mem_cons.1 hnames
    have hlonger : way.length < (way ++ [name]).length := by simp
    rw [insertFrom, step_inside hname]
    dsimp only
    rw [readFrom, node_insertFrom_of_length_lt _ _ hlater hlonger, node_insertAt_none,
      step_inside hname, if_neg (Nat.not_lt.2 hname.short)]
    exact ih _ _ hlater

/-- A new file is read under its path. -/
theorem read_insert (tree : WorkingDirectory) (content : ByteArray) (hpath : LeadsDown path) :
    (tree.insert path (some content)).read path = .ok content := by
  have hread := readFrom_insertFrom tree content [] hpath.plain
  rw [read, if_neg (Nat.not_lt.2 hpath.short), insert]
  split
  · next hsteps => exact absurd rfl (hpath.plain "" (by simp [hsteps])).ne_empty
  · next hsteps => exact absurd rfl (hpath.plain "" (by simp [hsteps])).ne_empty
  · exact hread

end WorkingDirectory

/-- The same job with standard input in place of a file. -/
def Invocation.withoutPath (invocation : Invocation) : Invocation where
  actions := invocation.actions
  outputs := invocation.outputs
  options := invocation.options
  path? := none
  outputs_ne_nil := invocation.outputs_ne_nil
  path_notMem := by simp

/-- A run gives the same for a file as for its content on standard input. -/
theorem run_file_eq_run_stdin {invocation : Invocation} {path : String}
    (hpath : WorkingDirectory.LeadsDown path) (hnamed : invocation.path? = some path)
    (tree : WorkingDirectory) (content stdin : ByteArray) (level? : Option LogLevel)
    (library : Library) :
    run invocation.arguments level? ((tree.insert path (some content)).input stdin) library =
      run invocation.withoutPath.arguments level? (tree.input content) library := by
  have hfile : (tree.insert path (some content)).input stdin invocation.path? = .ok content := by
    rw [hnamed]
    exact tree.read_insert content hpath
  rw [run_arguments, run_arguments, hfile]
  -- Which input a job names plays no part in what is done with it.
  rfl

end ContextFree.CommandLine
