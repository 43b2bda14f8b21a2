import ContextFree.Proofs.UnitReachability

/-!
# Searching with a stack

What unit productions lead to can also be found with a stack.  The name on top gives way to those of
its targets that have not been seen, until the stack is empty.  A name that goes onto the stack has
not been seen before and is seen from then on, so each of the finitely many targets is on the stack
once at the most, and the search ends.  The name it starts from counts as seen only when a unit
production leads to it.
-/

namespace ContextFree

/-- The names that are still to be looked at, the next one first, and all that have been seen. -/
structure UnitSearch where
  stack : List Name
  seen : List Name

namespace UnitSearch

variable {search : UnitSearch} {targets candidates : List Name} {n : Name}

/-- A target that has not been seen is put on the stack. -/
def visit (search : UnitSearch) (target : Name) : UnitSearch :=
  if target ∈ search.seen then search
  else ⟨target :: search.stack, search.seen ++ [target]⟩

theorem mem_seen_foldl_visit : n ∈ (targets.foldl visit search).seen ↔
    n ∈ search.seen ∨ n ∈ targets := by
  induction targets generalizing search with
  | nil => simp
  | cons target targets ih =>
    rw [List.foldl_cons, ih, visit, List.mem_cons]
    split
    · next hseen =>
      constructor
      · exact Or.imp_right Or.inr
      · rintro (hold | rfl | hlater)
        · exact .inl hold
        · exact .inl hseen
        · exact .inr hlater
    · rw [List.mem_append, List.mem_singleton, or_assoc]

theorem mem_stack_foldl_visit : n ∈ (targets.foldl visit search).stack ↔
    n ∈ search.stack ∨ n ∈ targets ∧ n ∉ search.seen := by
  induction targets generalizing search with
  | nil => simp
  | cons target targets ih =>
    rw [List.foldl_cons, ih, visit]
    by_cases hsame : n = target
    · by_cases hseen : target ∈ search.seen <;> simp [hsame, hseen]
    · by_cases hseen : target ∈ search.seen <;> simp [hsame, hseen]

/-- How much a search may still do: the candidates that it has not seen and those on its stack. -/
def pending (candidates : List Name) (search : UnitSearch) : Nat :=
  (remaining candidates search.seen).length + search.stack.length

theorem pending_visit_le (hn : n ∈ candidates) :
    (search.visit n).pending candidates ≤ search.pending candidates := by
  unfold visit
  split
  · exact Nat.le_refl _
  · next hunseen =>
    have hfewer : (remaining candidates (search.seen ++ [n])).length <
        (remaining candidates search.seen).length :=
      length_remaining_append_lt (mem_remaining.2 ⟨hn, hunseen⟩) (List.mem_singleton_self n)
    simp only [pending, List.length_cons]
    omega

theorem pending_foldl_visit_le (htargets : targets ⊆ candidates) :
    (targets.foldl visit search).pending candidates ≤ search.pending candidates := by
  induction targets generalizing search with
  | nil => exact Nat.le_refl _
  | cons target targets ih =>
    obtain ⟨htarget, hlater⟩ := List.cons_subset.1 htargets
    exact Nat.le_trans (ih hlater) (pending_visit_le htarget)

end UnitSearch

namespace Grammar

variable {g : Grammar} {m n : Name} {search : UnitSearch}

/-- Whatever a unit production leads to. -/
def allUnitTargets (g : Grammar) : List Name :=
  g.names.flatMap g.unitTargets

theorem unitTargets_subset (g : Grammar) (n : Name) : g.unitTargets n ⊆ g.allUnitTargets := by
  intro target htarget
  have hn : n ∈ g.names := mem_names_of_mem_productionsOf (mem_unitTargets.1 htarget)
  exact List.mem_flatMap.2 ⟨n, hn, htarget⟩

/-- Goes on with a search until the stack is empty. -/
def searchOn (g : Grammar) : UnitSearch → List Name
  | ⟨[], seen⟩ => seen
  | ⟨name :: stack, seen⟩ => searchOn g ((g.unitTargets name).foldl UnitSearch.visit ⟨stack, seen⟩)
termination_by search => search.pending g.allUnitTargets
decreasing_by
  have hvisited : ((g.unitTargets name).foldl UnitSearch.visit ⟨stack, seen⟩).pending
      g.allUnitTargets ≤ UnitSearch.pending g.allUnitTargets ⟨stack, seen⟩ :=
    UnitSearch.pending_foldl_visit_le (g.unitTargets_subset name)
  have hpopped : UnitSearch.pending g.allUnitTargets ⟨stack, seen⟩ <
      UnitSearch.pending g.allUnitTargets ⟨name :: stack, seen⟩ := Nat.lt_succ_self _
  exact Nat.lt_of_le_of_lt hvisited hpopped

/-- Finds what one or more unit productions lead to from a name. -/
def searchUnits (g : Grammar) (name : Name) : List Name :=
  g.searchOn ⟨[name], []⟩

/-- A search from `m`, on its way.  It has seen only what `m` leads to, and a name whose targets
have not all been seen is on the stack. -/
structure SearchesFrom (g : Grammar) (m : Name) (search : UnitSearch) : Prop where
  seen_sound : ∀ n ∈ search.seen, g.UnitDerives m n
  stack_sound : ∀ n ∈ search.stack, n = m ∨ g.UnitDerives m n
  targets_seen : ∀ n, n = m ∨ n ∈ search.seen →
    n ∈ search.stack ∨ ∀ target ∈ g.unitTargets n, target ∈ search.seen

/-- One turn of the loop. -/
theorem SearchesFrom.pop {name : Name} {stack seen : List Name}
    (hsearch : g.SearchesFrom m ⟨name :: stack, seen⟩) :
    g.SearchesFrom m ((g.unitTargets name).foldl UnitSearch.visit ⟨stack, seen⟩) := by
  have htarget : ∀ target ∈ g.unitTargets name, g.UnitDerives m target := by
    intro target htarget
    rw [mem_unitTargets] at htarget
    rcases hsearch.stack_sound name List.mem_cons_self with rfl | hname
    · exact .single htarget
    · exact hname.tail htarget
  refine ⟨fun n hn ↦ ?_, fun n hn ↦ ?_, fun n hn ↦ ?_⟩
  · rcases UnitSearch.mem_seen_foldl_visit.1 hn with hold | hnew
    · exact hsearch.seen_sound n hold
    · exact htarget n hnew
  · rcases UnitSearch.mem_stack_foldl_visit.1 hn with hold | ⟨hnew, -⟩
    · exact hsearch.stack_sound n (List.mem_cons_of_mem name hold)
    · exact .inr (htarget n hnew)
  · simp only [UnitSearch.mem_seen_foldl_visit, UnitSearch.mem_stack_foldl_visit] at hn ⊢
    by_cases hseen : n = m ∨ n ∈ seen
    · rcases hsearch.targets_seen n hseen with hstack | htargets
      · rcases List.mem_cons.1 hstack with rfl | hstack
        · exact .inr fun target hmember ↦ .inr hmember
        · exact .inl (.inl hstack)
      · exact .inr fun target hmember ↦ .inl (htargets target hmember)
    · rw [not_or] at hseen
      have hnew : n ∈ g.unitTargets name := (hn.resolve_left hseen.1).resolve_left hseen.2
      exact .inl (.inr ⟨hnew, hseen.2⟩)

/-- What has been seen in the end is all that unit productions lead to. -/
theorem SearchesFrom.mem_searchOn_iff (hsearch : g.SearchesFrom m search) :
    n ∈ g.searchOn search ↔ g.UnitDerives m n := by
  fun_induction searchOn g search with
  | case1 seen =>
    refine ⟨hsearch.seen_sound n, fun hderives ↦ ?_⟩
    have hclosed : ∀ n, n = m ∨ n ∈ seen → ∀ target ∈ g.unitTargets n, target ∈ seen :=
      fun n hn ↦ (hsearch.targets_seen n hn).resolve_left List.not_mem_nil
    induction hderives with
    | single hunit => exact hclosed m (.inl rfl) _ (mem_unitTargets.2 hunit)
    | tail _ hunit ih => exact hclosed _ (.inr ih) _ (mem_unitTargets.2 hunit)
  | case2 name stack seen ih => exact ih hsearch.pop

/-- The search ends and finds exactly what one or more unit productions lead to. -/
theorem mem_searchUnits_iff : n ∈ g.searchUnits m ↔ g.UnitDerives m n := by
  apply SearchesFrom.mem_searchOn_iff
  refine ⟨by simp, by simp, fun n hn ↦ .inl ?_⟩
  simpa using hn

end Grammar

end ContextFree
