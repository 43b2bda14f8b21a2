import ContextFree.Symbol

/-!
# Closing a set of names under a rule

`closure candidates step` is the least set of candidates that holds every candidate which `step`
lists for the names already in it.  The set grows round by round until a round finds nothing new,
which happens after at most as many rounds as there are candidates.
-/

namespace ContextFree

/-- The candidates that a round adds. -/
def newlyAdmitted (candidates : List Name) (step : List Name → List Name) (seen : List Name) :
    List Name :=
  let admitted := step seen
  candidates.filter fun name ↦ !seen.contains name && admitted.contains name

/-- Adds the admitted names, round by round. -/
def grow (candidates : List Name) (step : List Name → List Name) : Nat → List Name → List Name
  | 0, seen => seen
  | rounds + 1, seen =>
    match newlyAdmitted candidates step seen with
    | [] => seen
    | added => grow candidates step rounds (seen ++ added)

def closure (candidates : List Name) (step : List Name → List Name) : List Name :=
  grow candidates step candidates.length []

theorem mem_newlyAdmitted {candidates seen : List Name} {step : List Name → List Name}
    {name : Name} : name ∈ newlyAdmitted candidates step seen ↔
      name ∈ candidates ∧ name ∉ seen ∧ name ∈ step seen := by
  simp [newlyAdmitted]

/-- A property that a round keeps holds of all names in the closure. -/
theorem closure_induction {candidates : List Name} {step : List Name → List Name}
    {motive : Name → Prop}
    (hkeeps : ∀ seen, (∀ name ∈ seen, motive name) →
      ∀ name ∈ candidates, name ∈ step seen → motive name) :
    ∀ name ∈ closure candidates step, motive name := by
  have hgrown : ∀ rounds seen, (∀ name ∈ seen, motive name) →
      ∀ name ∈ grow candidates step rounds seen, motive name := by
    intro rounds
    induction rounds with
    | zero => exact fun _ hseen ↦ hseen
    | succ rounds ih =>
      intro seen hseen
      unfold grow
      split
      · exact hseen
      · refine ih _ fun name hmember ↦ ?_
        rcases List.mem_append.1 hmember with hold | hadded
        · exact hseen name hold
        · obtain ⟨hknown, _, hadmitted⟩ := mem_newlyAdmitted.1 hadded
          exact hkeeps seen hseen name hknown hadmitted
  exact hgrown _ [] (by simp)

end ContextFree
