import ContextFree.Proofs.Binary
import ContextFree.Proofs.Isolated

/-!
# Runs of the generator

A change of form mints all its names from one generator, one after the other.  The names of such a
run are new and pairwise distinct, whatever the generator has minted before, so the rules made for
them can all be appended.  Splitting long productions and isolating terminals therefore never fail
on a valid grammar, and the names they declare come in the order in which they were minted.
-/

namespace ContextFree

namespace FreshNames

/-- Calls of the generator give the names one after the other.  The declared names may be others in
each call, but they always include those to avoid. -/
inductive Mints (avoided : List Name) : FreshNames → List Name → FreshNames → Prop
  | nil {fresh : FreshNames} : Mints avoided fresh [] fresh
  | cons {fresh state last : FreshNames} {base name : Name} {declared rest : List Name} :
    avoided ⊆ declared → fresh.mint base declared = (name, state) → Mints avoided state rest last →
      Mints avoided fresh (name :: rest) last

/-- One call. -/
theorem of_mint {fresh state : FreshNames} {base name : Name} {declared : List Name}
    (hminted : fresh.mint base declared = (name, state)) :
    state.minted = name :: fresh.minted ∧ name ∉ declared ∧ name ∉ fresh.minted := by
  have hstate := minted_mint fresh base declared
  have hnew := mint_not_mem fresh base declared
  rw [hminted] at hstate hnew
  exact ⟨hstate, hnew⟩

namespace Mints

variable {avoided smaller first second names : List Name} {fresh state last : FreshNames}
  {name : Name}

theorem append (hfirst : Mints avoided fresh first state)
    (hsecond : Mints avoided state second last) : Mints avoided fresh (first ++ second) last := by
  induction hfirst with
  | nil => exact hsecond
  | cons hdeclared hminted _ ih => exact .cons hdeclared hminted (ih hsecond)

theorem mono (hmints : Mints avoided fresh names last) (hsubset : smaller ⊆ avoided) :
    Mints smaller fresh names last := by
  induction hmints with
  | nil => exact .nil
  | cons hdeclared hminted _ ih => exact .cons (List.Subset.trans hsubset hdeclared) hminted ih

/-- No name is one to avoid, or was minted before. -/
theorem notMem (hmints : Mints avoided fresh names last) (hname : name ∈ names) :
    name ∉ avoided ∧ name ∉ fresh.minted := by
  induction hmints with
  | nil => exact absurd hname List.not_mem_nil
  | cons hdeclared hminted _ ih =>
    obtain ⟨hstate, hnew, hunminted⟩ := of_mint hminted
    rcases List.mem_cons.1 hname with rfl | hrest
    · exact ⟨fun havoided ↦ hnew (hdeclared havoided), hunminted⟩
    · rw [hstate, List.mem_cons, not_or] at ih
      exact ⟨(ih hrest).1, (ih hrest).2.2⟩

theorem nodup (hmints : Mints avoided fresh names last) : names.Nodup := by
  induction hmints with
  | nil => exact List.nodup_nil
  | cons _ hminted hrest ih =>
    refine List.nodup_cons.2 ⟨fun hagain ↦ (hrest.notMem hagain).2 ?_, ih⟩
    rw [(of_mint hminted).1]
    exact List.mem_cons_self

end Mints

end FreshNames

open FreshNames (Mints)

/-! ## The names of the passes -/

theorem Extended.mints_traverse {α β : Type} {f : FreshNames → α → Extended β}
    {avoided : List Name} {fresh : FreshNames} {l : List α}
    (hf : ∀ state a, Mints avoided state ((f state a).added.map Prod.fst) (f state a).fresh) :
    Mints avoided fresh ((traverse f fresh l).added.map Prod.fst) (traverse f fresh l).fresh := by
  induction l generalizing fresh with
  | nil => exact .nil
  | cons a l ih =>
    rw [traverse, List.map_append]
    exact (hf fresh a).append ih

theorem Production.mints_split {base : Name} {declared : List Name} (fresh : FreshNames)
    (p : Production) :
    Mints declared fresh ((split base declared fresh p).added.map Prod.fst)
      (split base declared fresh p).fresh := by
  fun_induction split base declared fresh p with
  | case1 fresh first second third rest name state hminted tail ih =>
    exact .cons (List.Subset.refl declared) hminted ih
  | case2 fresh short hshort => exact .nil

theorem Production.mints_traverse_split (base : Name) (declared : List Name) (fresh : FreshNames)
    (productions : List Production) :
    Mints declared fresh
      ((Extended.traverse (split base declared) fresh productions).added.map Prod.fst)
      (Extended.traverse (split base declared) fresh productions).fresh :=
  Extended.mints_traverse fun state p ↦ p.mints_split state

theorem TerminalTable.mints_ofTerminals {declared : List Name} (fresh : FreshNames)
    (terminals : List Name) :
    Mints declared fresh ((ofTerminals declared fresh terminals).1.map Prod.snd)
      (ofTerminals declared fresh terminals).2 := by
  induction terminals generalizing fresh with
  | nil => exact .nil
  | cons terminal rest ih => exact .cons (List.Subset.refl declared) rfl (ih _)

namespace Grammar

variable {g h : Grammar} {fresh fresh' : FreshNames}

theorem mints_splitOff (g : Grammar) (fresh : FreshNames) :
    Mints g.names fresh ((g.splitOff fresh).map Prod.fst)
      (splitRules g.names fresh g.rules).fresh :=
  Extended.mints_traverse fun state rule ↦
    Production.mints_traverse_split rule.1 g.names state rule.2

theorem mints_terminalTable (g : Grammar) (fresh : FreshNames) :
    Mints g.names fresh ((g.terminalTable fresh).map Prod.snd)
      (TerminalTable.ofTerminals g.names fresh g.mixedTerminals).2 :=
  TerminalTable.mints_ofTerminals fresh g.mixedTerminals

/-! ## Inserting never fails -/

/-- Rules for new and distinct names can all be inserted. -/
theorem exists_insertAllFresh_eq_ok {rules : List Rule} {last : FreshNames}
    (hmints : Mints g.names fresh (rules.map Prod.fst) last) :
    ∃ h, g.insertAllFresh rules = .ok h := by
  have hdistinct : ((g.rules ++ rules).map Prod.fst).Nodup := by
    rw [List.map_append, List.nodup_append]
    refine ⟨g.distinct, hmints.nodup, fun old hold new hnew hsame ↦ ?_⟩
    exact (hmints.notMem hnew).1 (hsame ▸ hold)
  exact ⟨⟨g.rules ++ rules, hdistinct⟩, insertAllFresh_eq_ok_iff.2 rfl⟩

/-- Splitting long productions never fails on a valid grammar. -/
theorem exists_binarize_eq_ok (hvalid : g.Valid) (fresh : FreshNames) :
    ∃ h, g.binarize fresh = .ok (h, (splitRules g.names fresh g.rules).fresh) := by
  have hmints := g.mints_splitOff fresh
  rw [← names_shortened g fresh] at hmints
  obtain ⟨h, hinserted⟩ := exists_insertAllFresh_eq_ok hmints
  exact ⟨h, binarize_eq_ok_iff.2 ⟨hvalid, insertAllFresh_eq_ok_iff.1 hinserted, rfl⟩⟩

/-- Isolating terminals never fails on a valid grammar. -/
theorem exists_isolateTerminals_eq_ok (hvalid : g.Valid) (fresh : FreshNames) :
    ∃ h, g.isolateTerminals fresh =
      .ok (h, (TerminalTable.ofTerminals g.names fresh g.mixedTerminals).2) := by
  have hnames : (g.terminalTable fresh).rules.map Prod.fst =
      (g.terminalTable fresh).map Prod.snd := by
    simp [TerminalTable.rules, Function.comp_def]
  have hmints := g.mints_terminalTable fresh
  rw [← names_isolated g (g.terminalTable fresh), ← hnames] at hmints
  obtain ⟨h, hinserted⟩ := exists_insertAllFresh_eq_ok hmints
  exact ⟨h, isolateTerminals_eq_ok_iff.2 ⟨hvalid, insertAllFresh_eq_ok_iff.1 hinserted, rfl⟩⟩

end Grammar

end ContextFree
