import ContextFree.Proofs.Greibach.Form
import ContextFree.Proofs.SymbolKinds

/-!
# The symbols that changes of form bring in

No change of form brings in a terminal, and a non-terminal that it brings in has a minted name.
Such a name is no spelling of the empty string and was not declared before, but nothing keeps it
from being the name of a terminal.  This is the only way in which the names of a normal form can
fail to tell the kinds of its symbols.
-/

namespace ContextFree.Grammar

variable {g h k : Grammar} {fresh fresh' : FreshNames} {n : Name}

/-- Every symbol of `h` is a symbol of `g`, `λ`, or a non-terminal with a minted name. -/
def SymbolsFrom (g h : Grammar) : Prop :=
  ∀ s, h.HasSymbol s → g.HasSymbol s ∨ s = .epsilon ∨
    ∃ base number, s = .nonTerminal (FreshNames.numbered base number)

theorem symbolsFrom_refl (g : Grammar) : SymbolsFrom g g :=
  fun _ hs ↦ .inl hs

theorem SymbolsFrom.trans (hfirst : SymbolsFrom g h) (hsecond : SymbolsFrom h k) :
    SymbolsFrom g k := by
  intro s hs
  rcases hsecond s hs with hold | hnew
  · exact hfirst s hold
  · exact .inr hnew

/-- No terminal is brought in. -/
theorem SymbolsFrom.hasSymbol_terminal {t : Name} (hsymbols : SymbolsFrom g h)
    (ht : h.HasSymbol (.terminal t)) : g.HasSymbol (.terminal t) := by
  rcases hsymbols _ ht with hold | hepsilon | ⟨base, number, hnew⟩
  · exact hold
  · exact Symbol.noConfusion hepsilon
  · exact Symbol.noConfusion hnew

/-! ## One step -/

theorem symbolsFrom_eliminateNull {nullable : List Name}
    (hresult : g.eliminateNull nullable = .ok h) : SymbolsFrom g h := by
  intro s hs
  obtain ⟨n, q, hq, hs⟩ := hs
  obtain ⟨p, hp, hvariant⟩ := (mem_productionsOf_eliminateNull hresult).1 hq
  rcases (Production.mem_nullVariants_iff.1 hvariant).2 with rfl | ⟨name, -, hsome⟩
  · exact .inl ⟨n, q, hp, hs⟩
  · rcases Production.mem_of_mem_nullVariant? hsome hs with hs | ⟨-, rfl⟩
    · exact .inl ⟨n, p, hp, hs⟩
    · exact .inr (.inl (List.mem_singleton.1 hs))

/-- Unfolding puts symbols of productions together anew. -/
theorem Unfolds.symbolsFrom (hunfolds : Unfolds g h) : SymbolsFrom g h := by
  intro s hs
  obtain ⟨n, p, hp, hs⟩ := hs
  left
  rcases hunfolds.justified n p hp with hold | ⟨lead, q, rest, hlead, hq, rfl⟩
  · exact ⟨n, p, hold, hs⟩
  · rcases List.mem_append.1 hs with hs | hs
    · exact ⟨lead, q, hq, hs⟩
    · exact ⟨n, _, hlead, List.mem_cons_of_mem _ hs⟩

theorem symbolsFrom_eliminateUnits (hresult : g.eliminateUnits = .ok h) : SymbolsFrom g h := by
  rw [(eliminateUnits_eq_ok_iff.1 hresult).2.2]
  exact foldl_inlineUnits_induction (motive := SymbolsFrom g) g.names
    (fun k left hk ↦ hk.trans (unfolds_inlineUnits k left).symbolsFrom) (symbolsFrom_refl g)

theorem symbolsFrom_binarize (hresult : g.binarize fresh = .ok (h, fresh')) : SymbolsFrom g h := by
  intro s hs
  obtain ⟨n, q, hq, hs⟩ := hs
  obtain ⟨m, p, hp, state, hsplit, -⟩ := exists_split_of_mem_binarize hresult hq
  rcases Production.mem_or_added_of_mem_split hsplit hs with hold | ⟨rule, hrule, rfl⟩
  · exact .inl ⟨m, p, hp, hold⟩
  · obtain ⟨number, hsame⟩ := Production.exists_numbered_of_mem_split_added hrule
    exact .inr (.inr ⟨m, number, by rw [hsame]⟩)

theorem symbolsFrom_isolateTerminals (hresult : g.isolateTerminals fresh = .ok (h, fresh')) :
    SymbolsFrom g h := by
  intro s hs
  obtain ⟨n, q, hq, hs⟩ := hs
  rcases mem_productionsOf_isolateTerminals hresult hq with ⟨p, hp, rfl⟩ | ⟨-, t, ht, rfl⟩
  · rcases Production.mem_or_of_mem_isolate hs with hold | ⟨entry, hentry, rfl⟩
    · exact .inl ⟨n, p, hp, hold⟩
    · obtain ⟨number, hsame⟩ := TerminalTable.exists_numbered_of_mem_ofTerminals hentry
      exact .inr (.inr ⟨TerminalTable.base, number, by rw [hsame]⟩)
  · obtain ⟨m, p, hp, -, hmember⟩ := mem_mixedTerminals_iff.1 ht
    exact .inl ⟨m, p, hp, List.mem_singleton.1 hs ▸ hmember⟩

theorem MovesLeftRecursion.symbolsFrom {current tail : Name} {number : Nat}
    (hmoves : MovesLeftRecursion g h current tail)
    (htail : tail = FreshNames.numbered tailBase number) : SymbolsFrom g h := by
  intro s hs
  obtain ⟨n, p, hp, hs⟩ := hs
  rcases hmoves.exists_part hp with hold | ⟨source, hsource, part, hpart, -, hcases⟩
  · exact .inl ⟨n, p, hold, hs⟩
  · rcases hcases with rfl | rfl
    · exact .inl ⟨current, source, hsource, hpart hs⟩
    · rcases List.mem_append.1 hs with hs | hs
      · exact .inl ⟨current, source, hsource, hpart hs⟩
      · rw [List.mem_singleton.1 hs, htail]
        exact .inr (.inr ⟨tailBase, number, rfl⟩)

/-! ## The normal forms -/

theorem symbolsFrom_toChomsky (hresult : g.toChomsky = .ok h) : SymbolsFrom g h := by
  obtain ⟨nullFree, unitFree, binary, fresh, fresh', hnull, hunit, hbinary, hisolated⟩ :=
    toChomsky_eq_ok_iff.1 hresult
  have hunitFree : SymbolsFrom g unitFree :=
    (symbolsFrom_eliminateNull hnull).trans (symbolsFrom_eliminateUnits hunit)
  have hbinaryFree : SymbolsFrom g binary := hunitFree.trans (symbolsFrom_binarize hbinary)
  exact hbinaryFree.trans (symbolsFrom_isolateTerminals hisolated)

theorem symbolsFrom_toGreibach (hresult : g.toGreibach = .ok h) : SymbolsFrom g h := by
  refine toGreibach_induction hresult ?_ ?_ (symbolsFrom_refl g)
  · exact fun k k' hunfolds _ hk ↦ hk.trans hunfolds.symbolsFrom
  · intro k k' current tail hstep hmoves hk
    obtain ⟨-, number, htail⟩ := hstep
    exact hk.trans (hmoves.symbolsFrom htail)

/-- No name that `h` declares and `g` does not is also the name of a terminal. -/
def NewNamesApart (g h : Grammar) : Prop :=
  ∀ name ∈ h.names, name ∉ g.names → ¬ h.HasSymbol (.terminal name)

instance : Decidable (NewNamesApart g h) :=
  inferInstanceAs (Decidable (∀ name ∈ h.names, name ∉ g.names → ¬ h.HasSymbol (.terminal name)))

/-- If the names of the source tell the kinds of its symbols, those afterwards do as long as the new
names are apart from the terminals. -/
theorem SymbolsFrom.namesTellKinds_iff (hsymbols : SymbolsFrom g h) (hkinds : g.NamesTellKinds) :
    h.NamesTellKinds ↔ g.NewNamesApart h := by
  constructor
  · exact fun h' name hname _ ht ↦ h'.terminal_notMem name ht hname
  · intro hnew
    refine ⟨fun t ht hname ↦ ?_, fun t ht ↦ ?_, fun n hn ↦ ?_⟩
    · exact hnew t hname (hkinds.terminal_notMem t (hsymbols.hasSymbol_terminal ht)) ht
    · exact hkinds.terminal_ne_epsilon t (hsymbols.hasSymbol_terminal ht)
    · rcases hsymbols _ hn with hold | hepsilon | ⟨base, number, hminted⟩
      · exact hkinds.nonTerminal_ne_epsilon n hold
      · exact Symbol.noConfusion hepsilon
      · rw [Symbol.nonTerminal.inj hminted]
        exact FreshNames.numbered_notMem_epsilonSpellings base number

end ContextFree.Grammar
