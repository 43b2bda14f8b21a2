import ContextFree.Proofs.Greibach.Obstacle
import ContextFree.Proofs.Greibach.Order
import ContextFree.Proofs.Greibach.Sweeps
import ContextFree.Proofs.Minting

/-!
# When a grammar has a Greibach normal form

The checks alone decide.  Once they are passed the way forward cannot fail, as every tail gets a new
name, and every rule that is read on either way is there: a conversion that has to look its rules
up, and stops where one is missing, gives what the conversion gives.
-/

namespace ContextFree.Grammar

open FreshNames (Mints)

variable {g h k : Grammar} {n current : Name} {earlier order : List Name} {error : GrammarError}

/-! ## The way forward -/

/-- A tail has a minted name, so its rule can be inserted. -/
theorem exists_removeLeftRecursion_eq_ok (state : Forward) (current : Name) :
    ∃ next, state.removeLeftRecursion current = .ok next := by
  dsimp only [Forward.removeLeftRecursion]
  split
  · exact ⟨_, rfl⟩
  · have hnew := (FreshNames.mint_not_mem state.fresh tailBase state.grammar.names).1
    rw [insertFresh, dif_neg (by rwa [names_modify])]
    exact ⟨_, rfl⟩

theorem exists_run_eq_ok (state : Forward) (earlier later : List Name) :
    ∃ final, state.run earlier later = .ok final := by
  induction later generalizing state earlier with
  | nil => exact ⟨state, rfl⟩
  | cons current later ih =>
    obtain ⟨next, hnext⟩ := exists_removeLeftRecursion_eq_ok
      { state with grammar := state.grammar.expandAll earlier current } current
    obtain ⟨final, hfinal⟩ := ih next (earlier ++ [current])
    refine ⟨final, ?_⟩
    rw [run_cons]
    exact bind_eq_ok_iff.2 ⟨next, hnext, hfinal⟩

theorem exists_forward_eq_ok (g : Grammar) : ∃ state, g.forward = .ok state :=
  exists_run_eq_ok { grammar := g } [] g.names

/-- The way forward declares the tails, which are the names that it has minted. -/
theorem names_forward {state : Forward} (hforward : g.forward = .ok state) :
    state.grammar.names = g.names ++ state.tails.map Prod.snd ∧
      Mints g.names {} (state.tails.map Prod.snd) state.fresh := by
  refine forward_induction (motive := fun _ _ state ↦
    state.grammar.names = g.names ++ state.tails.map Prod.snd ∧
      Mints g.names {} (state.tails.map Prod.snd) state.fresh) hforward ?_
    ⟨(List.append_nil _).symm, .nil⟩
  intro earlier current later state next _ hnext hstate
  obtain ⟨hnames, hmints⟩ := hstate
  rcases removeLeftRecursion_cases hnext with ⟨rfl, -⟩ | ⟨tail, hmoves, hminted, htails⟩
  · exact ⟨by rw [names_expandAll, hnames], hmints⟩
  · have hsubset : g.names ⊆ (state.grammar.expandAll earlier current).names := by
      rw [names_expandAll, hnames]
      exact List.subset_append_left _ _
    rw [hmoves.names, names_expandAll, hnames, htails, List.map_append, List.append_assoc]
    exact ⟨rfl, hmints.append (.cons hsubset hminted .nil)⟩

/-- The result declares the tails too, and nothing else. -/
theorem exists_names_toGreibach (hresult : g.toGreibach = .ok h) :
    ∃ tails last, h.names = g.names ++ tails ∧ Mints g.names {} tails last := by
  obtain ⟨-, -, state, hforward, rfl⟩ := toGreibach_eq_ok_iff.1 hresult
  obtain ⟨hnames, hmints⟩ := names_forward hforward
  exact ⟨_, _, (names_foldl_expandLeading _).trans hnames, hmints⟩

theorem exists_toGreibach_eq_ok_iff : (∃ h, g.toGreibach = .ok h) ↔ g.Convertible := by
  simp only [toGreibach_eq_ok_iff, convertible_iff]
  constructor
  · intro h
    obtain ⟨_, hvalid, hnone, -⟩ := h
    exact ⟨hvalid, hnone⟩
  · intro h
    obtain ⟨state, hforward⟩ := g.exists_forward_eq_ok
    exact ⟨_, h.1, h.2, state, hforward, rfl⟩

/-- A grammar is refused by the validation or for its first obstacle, and for nothing else. -/
theorem toGreibach_eq_error_iff : g.toGreibach = .error error ↔
    g.validate = .error error ∨ g.Valid ∧ g.FirstObstacle error := by
  unfold toGreibach
  rw [validate_bind_eq_error_iff, ← greibachObstacle?_eq_some_iff]
  apply or_congr_right
  apply and_congr_right
  intro _
  cases g.greibachObstacle? with
  | some first => simp
  | none =>
    obtain ⟨state, hforward⟩ := g.exists_forward_eq_ok
    simp [hforward, bind, Except.bind, pure, Except.pure]

/-! ## Looking rules up -/

/-- Why a conversion that has to find each rule it reads may stop. -/
inductive Interruption where
  | refused (error : GrammarError)
  | missingRule (name : Name)
deriving DecidableEq, Repr

/-- The productions of a name, whose rule has to be there. -/
def lookUp (g : Grammar) (name : Name) : Except Interruption (List Production) :=
  match g.productions? name with
  | some productions => .ok productions
  | none => .error (.missingRule name)

/-- Expands one earlier non-terminal in the productions of `current`, both of them looked up. -/
def lookUpEarlier (current : Name) (g : Grammar) (earlier : Name) :
    Except Interruption Grammar := do
  let productions ← g.lookUp current
  let replacements ← g.lookUp earlier
  return g.modify current fun _ ↦ (productions.flatMap fun p ↦
    if p.leading? = some earlier then p.replaceFirst replacements else [p]).eraseDups

/-- The way forward with its rules looked up. -/
def Forward.runLookingUp (state : Forward) (earlier : List Name) :
    List Name → Except Interruption Forward
  | [] => .ok state
  | current :: later => do
    let expanded ← earlier.foldlM (lookUpEarlier current) state.grammar
    let _ ← expanded.lookUp current
    let next ← (Forward.removeLeftRecursion { state with grammar := expanded } current).mapError
      .refused
    next.runLookingUp (earlier ++ [current]) later

/-- What takes the place of a production when its leading non-terminal is looked up. -/
def lookUpExpansions (g : Grammar) (p : Production) : Except Interruption (List Production) :=
  match p.leading? with
  | some lead => do return p.replaceFirst (← g.lookUp lead)
  | none => return [p]

/-- Expands the leading non-terminals of `current`, all of them looked up. -/
def lookUpLeading (g : Grammar) (current : Name) : Except Interruption Grammar := do
  let productions ← g.lookUp current
  let expanded ← productions.mapM g.lookUpExpansions
  return g.modify current fun _ ↦ expanded.flatten.eraseDups

/-- The change to Greibach normal form with its rules looked up. -/
def toGreibachLookingUp (g : Grammar) : Except Interruption Grammar := do
  g.validate.mapError .refused
  match g.greibachObstacle? with
  | some error => .error (.refused error)
  | none =>
    let state ← Forward.runLookingUp { grammar := g } [] g.names
    (state.wayBack g.names).foldlM lookUpLeading state.grammar

/-- What takes the place of a production when its leading non-terminal is expanded. -/
def expansions (g : Grammar) (p : Production) : List Production :=
  match p.leading? with
  | some lead => p.replaceFirst (g.productionsOf lead)
  | none => [p]

theorem expandLeading_eq (g : Grammar) (current : Name) : g.expandLeading current =
    g.modify current fun productions ↦ (productions.flatMap g.expansions).eraseDups := rfl

theorem lookUp_eq_ok (hn : n ∈ g.names) : g.lookUp n = .ok (g.productionsOf n) := by
  rw [lookUp, productions?_eq_some_iff.2 (rule_mem hn)]

theorem modify_modify (g : Grammar) (n : Name) (first : List Production → List Production)
    (productions : List Production) :
    ((g.modify n first).modify n fun _ ↦ productions) = g.modify n fun _ ↦ productions := by
  apply ext_of_productionsOf (by simp only [names_modify])
  intro m hm
  rw [names_modify, names_modify] at hm
  by_cases hsame : m = n
  · subst hsame
    rw [productionsOf_modify_self (by rwa [names_modify]), productionsOf_modify_self hm]
  · simp only [productionsOf_modify_of_ne hsame]

/-- Expanding the earlier non-terminals one after the other finds all the rules. -/
theorem foldlM_lookUpEarlier (productions : List Production) (hcurrent : current ∈ g.names)
    (hearlier : earlier ⊆ g.names) (hnew : current ∉ earlier) :
    earlier.foldlM (lookUpEarlier current) (g.modify current fun _ ↦ productions) =
      .ok (g.modify current fun _ ↦ earlier.foldl g.expandEarlier productions) := by
  induction earlier generalizing productions with
  | nil => rfl
  | cons first earlier ih =>
    obtain ⟨hne, hrest⟩ : current ≠ first ∧ current ∉ earlier := by simpa using hnew
    obtain ⟨hfirst, hsubset⟩ := List.cons_subset.1 hearlier
    have hstep : lookUpEarlier current (g.modify current fun _ ↦ productions) first =
        .ok (g.modify current fun _ ↦ g.expandEarlier productions first) := by
      rw [lookUpEarlier, lookUp_eq_ok (by rwa [names_modify]),
        lookUp_eq_ok (by rwa [names_modify]), productionsOf_modify_self hcurrent,
        productionsOf_modify_of_ne hne.symm]
      simp only [bind, Except.bind, pure, Except.pure, modify_modify]
      rfl
    rw [List.foldlM_cons, hstep]
    exact ih _ hsubset hrest

/-- The way forward finds all the rules. -/
theorem runLookingUp_eq (state : Forward) (later : List Name)
    (hdistinct : (earlier ++ later).Nodup) (hsubset : earlier ++ later ⊆ state.grammar.names) :
    state.runLookingUp earlier later = (state.run earlier later).mapError .refused := by
  induction later generalizing state earlier with
  | nil => rfl
  | cons current later ih =>
    have hcurrent : current ∈ state.grammar.names := hsubset (by simp)
    have hnew : current ∉ earlier := fun hmember ↦
      (List.nodup_append.1 hdistinct).2.2 current hmember current List.mem_cons_self rfl
    have hexpanded : earlier.foldlM (lookUpEarlier current) state.grammar =
        .ok (state.grammar.expandAll earlier current) := by
      have hfold := foldlM_lookUpEarlier (state.grammar.productionsOf current) hcurrent
        (List.Subset.trans (List.subset_append_left _ _) hsubset) hnew
      rwa [modify_productionsOf] at hfold
    obtain ⟨next, hnext⟩ := exists_removeLeftRecursion_eq_ok
      { state with grammar := state.grammar.expandAll earlier current } current
    have hkept : state.grammar.names ⊆ next.grammar.names := by
      rcases removeLeftRecursion_cases hnext with ⟨rfl, -⟩ | ⟨tail, hmoves, -, -⟩
      · exact fun m hm ↦ by rwa [names_expandAll]
      · have hmoved := hmoves.names_subset
        rwa [names_expandAll] at hmoved
    have hsplit : earlier ++ current :: later = earlier ++ [current] ++ later := by simp
    have hrest := ih next (hsplit ▸ hdistinct) (hsplit ▸ List.Subset.trans hsubset hkept)
    rw [run_cons, hnext, Forward.runLookingUp, hexpanded]
    simp only [bind, Except.bind, lookUp_eq_ok ((names_expandAll earlier current).symm ▸ hcurrent),
      hnext, Except.mapError]
    exact hrest

theorem mapM_eq_ok {ε α β : Type} {l : List α} {f : α → Except ε β} {value : α → β}
    (hf : ∀ a ∈ l, f a = .ok (value a)) : l.mapM f = .ok (l.map value) := by
  induction l with
  | nil => rfl
  | cons a l ih =>
    rw [List.mapM_cons, hf a List.mem_cons_self, ih fun b hb ↦ hf b (List.mem_cons_of_mem a hb)]
    rfl

theorem lookUpLeading_eq_ok (hdeclared : g.MentionsDeclared) (hcurrent : current ∈ g.names) :
    g.lookUpLeading current = .ok (g.expandLeading current) := by
  have hexpanded : (g.productionsOf current).mapM g.lookUpExpansions =
      .ok ((g.productionsOf current).map g.expansions) := by
    apply mapM_eq_ok
    intro p hp
    rw [lookUpExpansions, expansions]
    cases hlead : p.leading? with
    | none => rfl
    | some lead =>
      have hmember : lead ∈ g.names :=
        hdeclared current p hp lead (Production.mem_of_leading? hlead)
      simp only [lookUp_eq_ok hmember]
      rfl
  have hreplaced : (g.modify current fun _ ↦
      ((g.productionsOf current).map g.expansions).flatten.eraseDups) =
        g.expandLeading current := by
    rw [expandLeading_eq]
    apply modify_congr
    rw [List.flatMap_def]
  rw [lookUpLeading, lookUp_eq_ok hcurrent]
  simp only [bind, Except.bind, hexpanded]
  exact congrArg Except.ok hreplaced

/-- The way back finds all the rules. -/
theorem foldlM_lookUpLeading (hdeclared : g.MentionsDeclared) (horder : order ⊆ g.names) :
    order.foldlM lookUpLeading g = .ok (order.foldl expandLeading g) := by
  induction order generalizing g with
  | nil => rfl
  | cons current order ih =>
    obtain ⟨hcurrent, hrest⟩ := List.cons_subset.1 horder
    have hnext : (g.expandLeading current).MentionsDeclared :=
      (unfolds_expandLeading g current).mentionsDeclared (names_expandLeading current) hdeclared
    rw [List.foldlM_cons, lookUpLeading_eq_ok hdeclared hcurrent]
    exact ih hnext (by rwa [names_expandLeading])

theorem toGreibachLookingUp_eq (g : Grammar) :
    g.toGreibachLookingUp = g.toGreibach.mapError .refused := by
  unfold toGreibachLookingUp toGreibach
  cases hvalidate : g.validate with
  | error error => rfl
  | ok _ =>
    cases g.greibachObstacle? with
    | some error => rfl
    | none =>
      obtain ⟨state, hforward⟩ := g.exists_forward_eq_ok
      have hrun : Forward.runLookingUp { grammar := g } [] g.names = .ok state := by
        rw [runLookingUp_eq { grammar := g } g.names g.names_nodup (List.Subset.refl _)]
        exact congrArg (Except.mapError Interruption.refused) hforward
      have hdeclared : state.grammar.MentionsDeclared :=
        grammar_forward_induction hforward
          (fun _ _ hunfolds hnames hk ↦ hunfolds.mentionsDeclared hnames hk)
          (fun _ _ _ _ _ hmoves hk ↦ hmoves.mentionsDeclared hk)
          (validate_eq_ok_iff.1 hvalidate).mentionsDeclared
      have hback : state.wayBack g.names ⊆ state.grammar.names :=
        (wayBack_perm (names_forward hforward).1).subset
      have hfold := foldlM_lookUpLeading hdeclared hback
      simp only [hforward, hrun, hfold, bind, Except.bind, pure, Except.pure, Except.mapError]

/-! ## The outcome -/

/-- No name that is minted is taken. -/
theorem toGreibach_ne_nameCollision (g : Grammar) (name : Name) :
    g.toGreibach ≠ .error (.nameCollision name) := by
  intro hcollision
  rcases toGreibach_eq_error_iff.1 hcollision with hrefused | ⟨-, hobstacle⟩
  · obtain ⟨_, _, hmalformed⟩ := exists_malformed_of_validate hrefused
    exact nomatch hmalformed
  · exact nomatch hobstacle

/-- A grammar is brought into Greibach normal form exactly when it is convertible.  Otherwise the
error is that of the validation or of the first obstacle.  No minted name is ever taken, and no rule
that is read is ever missing.  Sweeps over the rules decide on the start symbol as the closure
does. -/
theorem toGreibach_outcome (g : Grammar) :
    ((∃ h, g.toGreibach = .ok h) ↔ g.Convertible) ∧
      (∀ error, g.toGreibach = .error error ↔
        g.validate = .error error ∨ g.Valid ∧ g.FirstObstacle error) ∧
      (∀ name, g.toGreibach ≠ .error (.nameCollision name)) ∧
      g.toGreibachLookingUp = g.toGreibach.mapError .refused ∧
      g.barrenStartBySweeps? = g.barrenStart? :=
  ⟨exists_toGreibach_eq_ok_iff, fun _ ↦ toGreibach_eq_error_iff, g.toGreibach_ne_nameCollision,
    toGreibachLookingUp_eq g, barrenStartBySweeps?_eq g⟩

end ContextFree.Grammar
