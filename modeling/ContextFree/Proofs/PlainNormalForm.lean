import ContextFree.Proofs.NewSymbols
import ContextFree.Proofs.Plaintext

/-!
# Normal forms in plain text

Plain text leaves out the rules without productions, and a change of form can leave such rules.  A
non-terminal that is left out loses its declaration, so wherever it is mentioned it is read back as
a terminal.  What is read back from a Chomsky normal form is therefore the normal form itself up to
the rules that are left out, provided that the minted names differ from the terminals and can be
written: a name is cut where it has a bar in it.

No string of a left-out non-terminal is lost, as it has none.  But strings are won, those with the
left-out names as terminals, and the start symbol is another one when its own rule is left out.
-/

namespace ContextFree

/-! ## Names with a number -/

/-- A digit is no blank. -/
theorem Text.isBlank_of_isDigit {c : Char} (hc : c.isDigit = true) : isBlank c = false := by
  have hrange : 48 ≤ c.toNat ∧ c.toNat ≤ 57 := by
    simpa [Char.isDigit, UInt32.le_iff_toNat_le] using hc
  simp [isBlank]
  omega

/-- A word with a number behind it is a word. -/
theorem IsWord.numbered {base : Name} (hbase : IsWord base) (number : Nat) :
    IsWord (FreshNames.numbered base number) := by
  obtain ⟨c, rest, hchars, hdigits⟩ := FreshNames.exists_toList_numbered base number
  refine ⟨?_, ?_, ?_⟩
  · intro hempty
    rw [hempty] at hchars
    simp at hchars
  · rw [hchars]
    intro d hd
    rcases List.mem_append.1 hd with hold | hnew
    · exact hbase.noBlank d hold
    · exact Text.isBlank_of_isDigit (hdigits d hnew)
  · -- An arrow has no digit in it, so it would lie within the base.
    have hpart : ∀ d ∈ c :: rest, d ∉ ['-', '>'] := by
      intro d hd hmember
      have hdigit : d.isDigit = true := hdigits d hd
      rcases List.mem_pair.1 hmember with rfl | rfl <;> exact absurd hdigit (by decide)
    rw [hchars, Text.hasArrow_append_cons_iff (hpart c List.mem_cons_self), not_or]
    refine ⟨hbase.noArrow, fun harrow ↦ ?_⟩
    have hhyphen : '-' ∈ rest := harrow.subset List.mem_cons_self
    exact hpart '-' (List.mem_cons_of_mem c hhyphen) List.mem_cons_self

theorem isWord_terminalBase : IsWord TerminalTable.base where
  ne_empty := by decide
  noBlank c hc := by
    have hletter : c = 'T' := List.mem_singleton.1 hc
    rw [hletter]
    decide
  noArrow := by
    rw [← Text.cutArrow?_eq_none_iff]
    decide

namespace Symbol

/-- A non-terminal that is left out is taken for a terminal. -/
def leaveOut (out : List Name) : Symbol → Symbol
  | nonTerminal n => if n ∈ out then terminal n else nonTerminal n
  | s => s

variable {out : List Name} {s : Symbol} {n t : Name}

@[simp]
theorem name_leaveOut (out : List Name) (s : Symbol) : (s.leaveOut out).name = s.name := by
  cases s with
  | nonTerminal n =>
    by_cases hn : n ∈ out
    · rw [leaveOut, if_pos hn]
      rfl
    · rw [leaveOut, if_neg hn]
  | terminal t => rfl
  | epsilon => rfl

theorem leaveOut_eq_epsilon_iff : s.leaveOut out = .epsilon ↔ s = .epsilon := by
  cases s with
  | nonTerminal n => by_cases hn : n ∈ out <;> simp [leaveOut, hn]
  | terminal t => rfl
  | epsilon => rfl

theorem leaveOut_eq_nonTerminal_iff : s.leaveOut out = .nonTerminal n ↔
    s = .nonTerminal n ∧ n ∉ out := by
  cases s with
  | nonTerminal m =>
    by_cases hm : m ∈ out
    · simp only [leaveOut, if_pos hm, reduceCtorEq, nonTerminal.injEq, false_iff, not_and, not_not]
      exact fun hsame ↦ hsame ▸ hm
    · simp only [leaveOut, if_neg hm, nonTerminal.injEq, iff_self_and]
      exact fun hsame ↦ hsame ▸ hm
  | terminal t => simp [leaveOut]
  | epsilon => simp [leaveOut]

theorem leaveOut_eq_terminal_iff : s.leaveOut out = .terminal t ↔
    s = .terminal t ∨ s = .nonTerminal t ∧ t ∈ out := by
  cases s with
  | nonTerminal m =>
    by_cases hm : m ∈ out
    · simp only [leaveOut, if_pos hm, terminal.injEq, reduceCtorEq, nonTerminal.injEq, false_or,
        iff_self_and]
      exact fun hsame ↦ hsame ▸ hm
    · simp only [leaveOut, if_neg hm, reduceCtorEq, nonTerminal.injEq, false_or, false_iff, not_and]
      exact fun hsame ↦ hsame ▸ hm
  | terminal t => simp [leaveOut]
  | epsilon => simp [leaveOut]

end Symbol

namespace Grammar

variable {g c h : Grammar} {n t : Name} {p : Production} {w : List Name} {text : String}

/-- The non-terminals without productions. -/
def emptyNames (g : Grammar) : List Name :=
  g.names.filter fun n ↦ g.productionsOf n = []

/-- The grammar without the rules that have no productions.  Their non-terminals are terminals
then. -/
def leaveOutEmpty (g : Grammar) : Grammar :=
  ofNames (g.names.filter fun n ↦ g.productionsOf n ≠ []) fun n ↦
    (g.productionsOf n).map (·.map (Symbol.leaveOut g.emptyNames))

theorem mem_emptyNames_iff : n ∈ g.emptyNames ↔ n ∈ g.names ∧ g.productionsOf n = [] := by
  simp [emptyNames, List.mem_filter]

theorem names_leaveOutEmpty (g : Grammar) :
    g.leaveOutEmpty.names = g.names.filter fun n ↦ g.productionsOf n ≠ [] := by
  rw [leaveOutEmpty, names_ofNames, eraseDups_eq_self (g.names_nodup.filter _)]

theorem mem_names_leaveOutEmpty_iff :
    n ∈ g.leaveOutEmpty.names ↔ n ∈ g.names ∧ n ∉ g.emptyNames := by
  rw [names_leaveOutEmpty, List.mem_filter, mem_emptyNames_iff]
  simp +contextual

/-- The first rule stays the first one unless it is left out. -/
theorem start?_leaveOutEmpty_iff {start : Name} (hstart : g.start? = some start) :
    g.leaveOutEmpty.start? = some start ↔ g.productionsOf start ≠ [] := by
  obtain ⟨rest, hnames⟩ := List.head?_eq_some_iff.1 hstart
  rw [start?, names_leaveOutEmpty, hnames]
  constructor
  · intro hhead
    have hmember := List.mem_of_head? hhead
    exact of_decide_eq_true (List.mem_filter.1 hmember).2
  · intro hne
    rw [List.filter_cons, if_pos (decide_eq_true hne), List.head?_cons]

theorem productionsOf_leaveOutEmpty (g : Grammar) (n : Name) :
    g.leaveOutEmpty.productionsOf n =
      (g.productionsOf n).map (·.map (Symbol.leaveOut g.emptyNames)) := by
  by_cases hn : n ∈ g.names.filter fun n ↦ g.productionsOf n ≠ []
  · exact productionsOf_ofNames hn
  · have hnone : g.productionsOf n = [] := by
      by_contra hne
      obtain ⟨p, hp⟩ := List.exists_mem_of_ne_nil _ hne
      exact hn (List.mem_filter.2 ⟨mem_names_of_mem_productionsOf hp, decide_eq_true hne⟩)
    rw [hnone, productionsOf_eq_nil (by rwa [names_leaveOutEmpty])]
    rfl

theorem hasSymbol_leaveOutEmpty_iff {s : Symbol} :
    g.leaveOutEmpty.HasSymbol s ↔ ∃ s', g.HasSymbol s' ∧ s'.leaveOut g.emptyNames = s := by
  simp only [HasSymbol, productionsOf_leaveOutEmpty, List.mem_map]
  constructor
  · intro hs
    obtain ⟨n, _, ⟨p, hp, rfl⟩, hs⟩ := hs
    obtain ⟨s', hs', hsame⟩ := List.mem_map.1 hs
    exact ⟨s', ⟨n, p, hp, hs'⟩, hsame⟩
  · intro hs
    obtain ⟨s', ⟨n, p, hp, hs'⟩, hsame⟩ := hs
    exact ⟨n, _, ⟨p, hp, rfl⟩, List.mem_map.2 ⟨s', hs', hsame⟩⟩

/-- What is left out leaves no trace in plain text. -/
theorem plaintext_leaveOutEmpty (g : Grammar) : g.leaveOutEmpty.plaintext = g.plaintext := by
  let written (n : Name) : ShownRule := ⟨n, (g.productionsOf n).map (·.map Symbol.name)⟩
  have hsame : ∀ n, ⟨n, (g.leaveOutEmpty.productionsOf n).map (·.map Symbol.name)⟩ = written n := by
    intro n
    simp [written, productionsOf_leaveOutEmpty, Function.comp_def]
  have hshown : g.leaveOutEmpty.shown = g.shown.filter (·.rights ≠ []) := by
    calc g.leaveOutEmpty.shown
        = (g.names.filter fun n ↦ g.productionsOf n ≠ []).map written := by
          rw [shown_eq_map, names_leaveOutEmpty]
          exact List.map_congr_left fun n _ ↦ hsame n
      _ = (g.names.map written).filter (·.rights ≠ []) := by
          simp [List.filter_map, Function.comp_def, written]
      _ = g.shown.filter (·.rights ≠ []) := by rw [shown_eq_map]
  rw [plaintext, hshown, List.filter_filter, plaintext]
  simp only [Bool.and_self]

/-! ## Reading back -/

/-- What the names tell is kept for the symbols that are left out as for the others. -/
theorem NamesTellKinds.leaveOutEmpty (hkinds : h.NamesTellKinds) :
    h.leaveOutEmpty.NamesTellKinds where
  terminal_notMem t ht hname := by
    obtain ⟨hdeclared, hshown⟩ := mem_names_leaveOutEmpty_iff.1 hname
    obtain ⟨s, hs, hsame⟩ := hasSymbol_leaveOutEmpty_iff.1 ht
    rcases Symbol.leaveOut_eq_terminal_iff.1 hsame with rfl | ⟨-, hout⟩
    · exact hkinds.terminal_notMem t hs hdeclared
    · exact hshown hout
  terminal_ne_epsilon t ht := by
    obtain ⟨s, hs, hsame⟩ := hasSymbol_leaveOutEmpty_iff.1 ht
    rcases Symbol.leaveOut_eq_terminal_iff.1 hsame with rfl | ⟨rfl, -⟩
    · exact hkinds.terminal_ne_epsilon t hs
    · exact hkinds.nonTerminal_ne_epsilon t hs
  nonTerminal_ne_epsilon n hn := by
    obtain ⟨s, hs, hsame⟩ := hasSymbol_leaveOutEmpty_iff.1 hn
    obtain ⟨rfl, -⟩ := Symbol.leaveOut_eq_nonTerminal_iff.1 hsame
    exact hkinds.nonTerminal_ne_epsilon n hs

theorem valid_leaveOutEmpty (hvalid : h.Valid) : h.leaveOutEmpty.Valid := by
  refine valid_iff.2 fun n q hq ↦ ?_
  rw [productionsOf_leaveOutEmpty] at hq
  obtain ⟨p, hp, rfl⟩ := List.mem_map.1 hq
  have hwell := hvalid.wellFormed hp
  refine ⟨?_, fun hepsilon ↦ ?_, fun m hm ↦ ?_⟩
  · exact fun hnil ↦ hwell.ne_nil (List.map_eq_nil_iff.1 hnil)
  · obtain ⟨s, hs, hsame⟩ := List.mem_map.1 hepsilon
    rw [Symbol.leaveOut_eq_epsilon_iff.1 hsame] at hs
    rw [hwell.eq_epsilon_of_mem hs]
    rfl
  · obtain ⟨s, hs, hsame⟩ := List.mem_map.1 hm
    obtain ⟨rfl, hout⟩ := Symbol.leaveOut_eq_nonTerminal_iff.1 hsame
    exact mem_names_leaveOutEmpty_iff.2 ⟨hwell.declared_of_mem m hs, hout⟩

theorem plainlyWritable_leaveOutEmpty (hvalid : h.Valid) (hkinds : h.NamesTellKinds)
    (hwords : ∀ n ∈ h.names, IsWord n) (htokens : ∀ s, h.HasSymbol s → IsToken s.name) :
    h.leaveOutEmpty.PlainlyWritable where
  valid := validate_eq_ok_iff.2 (valid_leaveOutEmpty hvalid)
  productions_ne_nil n hn hnone := by
    obtain ⟨hdeclared, hshown⟩ := mem_names_leaveOutEmpty_iff.1 hn
    rw [productionsOf_leaveOutEmpty, List.map_eq_nil_iff] at hnone
    exact hshown (mem_emptyNames_iff.2 ⟨hdeclared, hnone⟩)
  isWord n hn := hwords n (mem_names_leaveOutEmpty_iff.1 hn).1
  isToken s hs := by
    obtain ⟨s', hs', rfl⟩ := hasSymbol_leaveOutEmpty_iff.1 hs
    rw [Symbol.name_leaveOut]
    exact htokens s' hs'
  namesTellKinds := hkinds.leaveOutEmpty

/-- A grammar whose names are words and tell the kinds is read back without its empty rules, as
long as every name on a right-hand side can be written there. -/
theorem ofText_plaintext_eq_ok_iff (hvalid : h.Valid) (hkinds : h.NamesTellKinds)
    (hwords : ∀ n ∈ h.names, IsWord n) :
    ofText h.plaintext = .ok h.leaveOutEmpty ↔ ∀ s, h.HasSymbol s → IsToken s.name := by
  rw [← plaintext_leaveOutEmpty]
  constructor
  · intro hread s hs
    have hs' : h.leaveOutEmpty.HasSymbol (s.leaveOut h.emptyNames) :=
      hasSymbol_leaveOutEmpty_iff.2 ⟨s, hs, rfl⟩
    have htoken := (plainlyWritable_of_ofText hread).isToken _ hs'
    rwa [Symbol.name_leaveOut] at htoken
  · exact fun htokens ↦
      ofText_plaintext (plainlyWritable_leaveOutEmpty hvalid hkinds hwords htokens)

/-! ## Languages -/

/-- The terminals of a generated string occur in productions. -/
theorem hasSymbol_of_generates (hgenerates : g.Generates n w) :
    ∀ t ∈ w, g.HasSymbol (.terminal t) := by
  refine Generates.least (motive := fun _ u ↦ ∀ t ∈ u, g.HasSymbol (.terminal t)) ?_ hgenerates
  intro m p hp u hu t ht
  rcases hu.mem_cases ht with hmember | ⟨_, v, -, hv, htv⟩
  · exact ⟨m, p, hp, hmember⟩
  · exact hv t htv

/-- Leaving out what has no strings loses none of them. -/
theorem generates_leaveOutEmpty_of_generates (hgenerates : g.Generates n w) :
    g.leaveOutEmpty.Generates n w := by
  refine Generates.transfer (fun m p hp u hu ↦ ?_) hgenerates
  refine ⟨p.map (Symbol.leaveOut g.emptyNames), ?_, hu.map fun s _ v hv ↦ ?_⟩
  · rw [productionsOf_leaveOutEmpty]
    exact List.mem_map_of_mem hp
  · cases s with
    | terminal t => exact hv
    | epsilon => exact hv
    | nonTerminal k =>
      have hk : k ∉ g.emptyNames := by
        intro hempty
        obtain ⟨q, hq, -⟩ := reads_singleton_nonTerminal.1 hv
        rw [productionsOf_leaveOutEmpty, (mem_emptyNames_iff.1 hempty).2] at hq
        exact absurd hq List.not_mem_nil
      rwa [Symbol.leaveOut, if_neg hk]

theorem reads_of_reads_leaveOut {meaning larger : Name → List Name → Prop} {out : List Name}
    (hle : ∀ m u, (∀ t ∈ u, t ∉ out) → meaning m u → larger m u) (hclean : ∀ t ∈ w, t ∉ out)
    (hreads : Reads meaning (p.map (Symbol.leaveOut out)) w) : Reads larger p w := by
  induction p generalizing w with
  | nil => exact hreads
  | cons s rest ih =>
    cases s with
    | terminal t =>
      obtain ⟨v, rfl, hv⟩ := hreads
      exact ⟨v, rfl, ih (List.forall_mem_cons.1 hclean).2 hv⟩
    | epsilon => exact ih hclean hreads
    | nonTerminal m =>
      rw [List.map_cons, Symbol.leaveOut] at hreads
      split at hreads
      · next hm =>
        obtain ⟨v, rfl, -⟩ := hreads
        exact absurd hm (hclean m List.mem_cons_self)
      · obtain ⟨u, v, rfl, hu, hv⟩ := hreads
        obtain ⟨hfirst, hrest⟩ := List.forall_mem_append.1 hclean
        exact ⟨u, v, rfl, hle m u hfirst hu, ih hrest hv⟩

/-- A string that does without the left-out names was there before. -/
theorem generates_of_generates_leaveOutEmpty (hgenerates : g.leaveOutEmpty.Generates n w) :
    (∀ t ∈ w, t ∉ g.emptyNames) → g.Generates n w := by
  refine Generates.least (motive := fun m u ↦ (∀ t ∈ u, t ∉ g.emptyNames) → g.Generates m u) ?_
    hgenerates
  intro m q hq u hu hclean
  rw [productionsOf_leaveOutEmpty] at hq
  obtain ⟨p, hp, rfl⟩ := List.mem_map.1 hq
  have hreads : Reads g.Generates p u :=
    reads_of_reads_leaveOut (fun _ _ hsmall hm ↦ hm hsmall) hclean hu
  exact generates_iff_reads.2 ⟨p, hp, hreads⟩

/-- Leaving out empty rules adds the strings that hold a left-out name and no others. -/
theorem generates_iff_leaveOutEmpty (hkinds : g.NamesTellKinds) :
    g.Generates n w ↔ g.leaveOutEmpty.Generates n w ∧ ∀ t ∈ w, t ∉ g.emptyNames := by
  constructor
  · intro hgenerates
    refine ⟨generates_leaveOutEmpty_of_generates hgenerates, fun t ht hempty ↦ ?_⟩
    have hterminal := hasSymbol_of_generates hgenerates t ht
    exact hkinds.terminal_notMem t hterminal (mem_emptyNames_iff.1 hempty).1
  · exact fun ⟨hgenerates, hclean⟩ ↦ generates_of_generates_leaveOutEmpty hgenerates hclean

/-- If no left-out name is mentioned, the languages stay as they are. -/
theorem generates_leaveOutEmpty_iff (hkinds : g.NamesTellKinds)
    (hunmentioned : ∀ m ∈ g.emptyNames, ¬ g.HasSymbol (.nonTerminal m)) :
    g.leaveOutEmpty.Generates n w ↔ g.Generates n w := by
  rw [generates_iff_leaveOutEmpty hkinds]
  refine (and_iff_left_of_imp fun hgenerates t ht hempty ↦ ?_).symm
  obtain ⟨s, hs, hsame⟩ := hasSymbol_leaveOutEmpty_iff.1 (hasSymbol_of_generates hgenerates t ht)
  rcases Symbol.leaveOut_eq_terminal_iff.1 hsame with rfl | ⟨rfl, -⟩
  · exact hkinds.terminal_notMem t hs (mem_emptyNames_iff.1 hempty).1
  · exact hunmentioned t hempty hs

/-! ## Chomsky normal forms -/

/-- No terminal is a declared name, or the base of the names for terminals, with a number behind
it. -/
def TerminalsUnnumbered (g : Grammar) : Prop :=
  ∀ base ∈ TerminalTable.base :: g.names, ∀ number,
    ¬ g.HasSymbol (.terminal (FreshNames.numbered base number))

/-- Terminals without digits are not taken for minted names. -/
theorem terminalsUnnumbered_of_noDigit (hnoDigit : g.rules.all fun rule ↦ rule.2.all fun p ↦
    p.terminals.all fun t ↦ t.toList.all fun d ↦ !d.isDigit) : g.TerminalsUnnumbered := by
  intro base _ number hterminal
  obtain ⟨n, p, hp, ht⟩ := hterminal
  obtain ⟨productions, hrule, hmember⟩ := mem_productionsOf_iff.1 hp
  obtain ⟨d, hd, hdigit⟩ := FreshNames.exists_isDigit_mem_numbered base number
  simp only [List.all_eq_true] at hnoDigit
  have hnone := hnoDigit _ hrule p hmember _ (Production.mem_terminals.2 ht) d hd
  rw [hdigit] at hnone
  exact Bool.noConfusion hnone

/-- A name of the normal form is an old one or one of them, or the base for terminals, with a number
behind it. -/
theorem names_toChomsky_cases (hresult : g.toChomsky = .ok c) (hn : n ∈ c.names) :
    n ∈ g.names ∨ ∃ base ∈ TerminalTable.base :: g.names, ∃ number,
      n = FreshNames.numbered base number := by
  obtain ⟨nullFree, unitFree, binary, fresh, fresh', hnull, hunit, hbinary, hisolated⟩ :=
    toChomsky_eq_ok_iff.1 hresult
  have hunitFree : unitFree.names = g.names := by
    rw [names_eliminateUnits hunit, names_eliminateNull hnull]
  rw [names_isolateTerminals hisolated, names_binarize hbinary, hunitFree] at hn
  rcases List.mem_append.1 hn with hn | hn
  · rcases List.mem_append.1 hn with hold | hsplit
    · exact .inl hold
    · obtain ⟨rule, hrule, rfl⟩ := List.mem_map.1 hsplit
      obtain ⟨base, p, hp, state, hpart, -⟩ := exists_split_of_mem_splitOff hrule
      have hbase : base ∈ g.names := hunitFree ▸ mem_names_of_mem_productionsOf hp
      exact .inr ⟨base, List.mem_cons_of_mem _ hbase,
        Production.exists_numbered_of_mem_split_added hpart⟩
  · obtain ⟨entry, hentry, rfl⟩ := List.mem_map.1 hn
    exact .inr ⟨TerminalTable.base, List.mem_cons_self,
      TerminalTable.exists_numbered_of_mem_ofTerminals hentry⟩

theorem namesTellKinds_toChomsky (hresult : g.toChomsky = .ok c) (hkinds : g.NamesTellKinds)
    (hterminals : g.TerminalsUnnumbered) : c.NamesTellKinds := by
  have hsymbols := symbolsFrom_toChomsky hresult
  refine (hsymbols.namesTellKinds_iff hkinds).2 fun n hn hnew ht ↦ ?_
  rcases names_toChomsky_cases hresult hn with hold | ⟨base, hbase, number, rfl⟩
  · exact hnew hold
  · exact hterminals base hbase number (hsymbols.hasSymbol_terminal ht)

/-- The base of the names for terminals is a word, so all names of the normal form are. -/
theorem isWord_of_mem_names_toChomsky (hread : ofText text = .ok g) (hresult : g.toChomsky = .ok c)
    (hn : n ∈ c.names) : IsWord n := by
  have hold : ∀ m ∈ g.names, IsWord m := (plainlyWritable_of_ofText hread).isWord
  rcases names_toChomsky_cases hresult hn with hn | ⟨base, hbase, number, rfl⟩
  · exact hold n hn
  · rcases List.mem_cons.1 hbase with rfl | hbase
    · exact isWord_terminalBase.numbered number
    · exact (hold base hbase).numbered number

/-- Only a bar in a name keeps a symbol of the normal form from being written. -/
theorem forall_isToken_toChomsky_iff (hread : ofText text = .ok g)
    (hresult : g.toChomsky = .ok c) : (∀ s, c.HasSymbol s → IsToken s.name) ↔
      ∀ n, c.HasSymbol (.nonTerminal n) → '|' ∉ n.toList := by
  constructor
  · exact fun htokens n hn ↦ (htokens _ hn).noBar
  · intro hnoBar s hs
    cases s with
    | terminal t =>
      have hold : g.HasSymbol (.terminal t) := (symbolsFrom_toChomsky hresult).hasSymbol_terminal hs
      exact (plainlyWritable_of_ofText hread).isToken _ hold
    | epsilon => exact isToken_epsilonName
    | nonTerminal n =>
      obtain ⟨m, p, hp, hn⟩ := hs
      have hdeclared : n ∈ c.names := (valid_toChomsky hresult).mentionsDeclared m p hp n hn
      exact ⟨isWord_of_mem_names_toChomsky hread hresult hdeclared, hnoBar n ⟨m, p, hp, hn⟩⟩

/-- What the plain text of a Chomsky normal form says.  If no terminal can be taken for a minted
name, it is read back as the normal form without its empty rules exactly when no name on a
right-hand side has a bar in it.  The start symbol is kept exactly when it has productions, and
leaving out empty rules adds the strings that hold a left-out name and no others. -/
theorem ofText_plaintext_toChomsky (hread : ofText text = .ok g) (hresult : g.toChomsky = .ok c)
    (hterminals : g.TerminalsUnnumbered) :
    (ofText c.plaintext = .ok c.leaveOutEmpty ↔
        ∀ n, c.HasSymbol (.nonTerminal n) → '|' ∉ n.toList) ∧
      (∀ start, c.start? = some start →
        (c.leaveOutEmpty.start? = some start ↔ c.productionsOf start ≠ [])) ∧
      (∀ n w, c.Generates n w ↔
        c.leaveOutEmpty.Generates n w ∧ ∀ t ∈ w, t ∉ c.emptyNames) ∧
      ((∀ m ∈ c.emptyNames, ¬ c.HasSymbol (.nonTerminal m)) →
        ∀ n w, c.leaveOutEmpty.Generates n w ↔ c.Generates n w) := by
  have hkinds : c.NamesTellKinds :=
    namesTellKinds_toChomsky hresult (namesTellKinds_ofText hread).2 hterminals
  have hwords : ∀ n ∈ c.names, IsWord n := fun _ ↦ isWord_of_mem_names_toChomsky hread hresult
  refine ⟨?_, fun _ ↦ start?_leaveOutEmpty_iff, fun _ _ ↦ generates_iff_leaveOutEmpty hkinds,
    fun hunmentioned _ _ ↦ generates_leaveOutEmpty_iff hkinds hunmentioned⟩
  rw [ofText_plaintext_eq_ok_iff (valid_toChomsky hresult) hkinds hwords,
    forall_isToken_toChomsky_iff hread hresult]

/-- A non-terminal that derives the empty string only, and no right-hand side mentions it once
empty and unit productions are gone. -/
def silentUnit : Grammar where
  rules := [
    ("S", [[.nonTerminal "A"], [.terminal "a", .nonTerminal "B"]]),
    ("A", [[.epsilon]]),
    ("B", [[.terminal "b"], [.nonTerminal "S", .nonTerminal "B"]])]

def silentUnitChomsky : Grammar where
  rules := [
    ("S", [[.epsilon], [.nonTerminal "T0", .nonTerminal "B"]]),
    ("A", []),
    ("B", [[.terminal "b"], [.nonTerminal "S", .nonTerminal "B"]]),
    ("T0", [[.terminal "a"]])]

def silentUnitReadBack : Grammar where
  rules := [
    ("S", [[.epsilon], [.nonTerminal "T0", .nonTerminal "B"]]),
    ("B", [[.terminal "b"], [.nonTerminal "S", .nonTerminal "B"]]),
    ("T0", [[.terminal "a"]])]

theorem ofText_plaintext_toChomsky_silentUnit :
    ofText "S -> A | a B\nA -> λ\nB -> b | S B" = .ok silentUnit ∧
      silentUnit.toChomsky = .ok silentUnitChomsky ∧ silentUnit.TerminalsUnnumbered ∧
      ofText silentUnitChomsky.plaintext = .ok silentUnitReadBack ∧
      silentUnitReadBack.start? = some "S" ∧
      ∀ w, silentUnitReadBack.Generates "S" w ↔ silentUnitChomsky.Generates "S" w := by
  have hread : ofText "S -> A | a B\nA -> λ\nB -> b | S B" = .ok silentUnit := by rfl
  have hresult : silentUnit.toChomsky = .ok silentUnitChomsky := by rfl
  have hterminals : silentUnit.TerminalsUnnumbered := terminalsUnnumbered_of_noDigit (by decide)
  have hsame : silentUnitChomsky.leaveOutEmpty = silentUnitReadBack := by rfl
  obtain ⟨hback, hstart, -, hlanguage⟩ := ofText_plaintext_toChomsky hread hresult hterminals
  have hnoBar : ∀ n, silentUnitChomsky.HasSymbol (.nonTerminal n) → '|' ∉ n.toList := by
    have hnames : silentUnitChomsky.names.all fun n ↦ !n.toList.contains '|' := by decide
    intro n hn
    obtain ⟨m, p, hp, hmember⟩ := hn
    have hdeclared := (valid_toChomsky hresult).mentionsDeclared m p hp n hmember
    simpa using List.all_eq_true.1 hnames n hdeclared
  rw [hsame] at hback hstart hlanguage
  exact ⟨hread, hresult, hterminals, hback.2 hnoBar, (hstart "S" rfl).2 (by decide),
    hlanguage (by decide) "S"⟩

/-- A non-terminal that derives the empty string only, beside another one. -/
def silentPart : Grammar where
  rules := [
    ("S", [[.nonTerminal "A", .nonTerminal "B"], [.terminal "b"]]),
    ("A", [[.epsilon]]),
    ("B", [[.terminal "b"]])]

def silentPartChomsky : Grammar where
  rules := [
    ("S", [[.terminal "b"], [.nonTerminal "A", .nonTerminal "B"]]),
    ("A", []),
    ("B", [[.terminal "b"]])]

def silentPartReadBack : Grammar where
  rules := [
    ("S", [[.terminal "b"], [.terminal "A", .nonTerminal "B"]]),
    ("B", [[.terminal "b"]])]

/-- A start symbol that leads to itself only. -/
def loopingStart : Grammar where
  rules := [("S", [[.nonTerminal "S"]]), ("A", [[.terminal "a"]])]

def loopingStartChomsky : Grammar where
  rules := [("S", []), ("A", [[.terminal "a"]])]

def loopingStartReadBack : Grammar where
  rules := [("A", [[.terminal "a"]])]

/-- A long production of a name with a bar. -/
def barred : Grammar where
  rules := [("|A", [[.terminal "a", .terminal "b", .terminal "c"]])]

def barredChomsky : Grammar where
  rules := [
    ("|A", [[.nonTerminal "T1", .nonTerminal "|A0"]]),
    ("|A0", [[.nonTerminal "T2", .nonTerminal "T3"]]),
    ("T1", [[.terminal "a"]]),
    ("T2", [[.terminal "b"]]),
    ("T3", [[.terminal "c"]])]

/-- The new name is cut at its bar. -/
def barredReadBack : Grammar where
  rules := [
    ("|A", [[.nonTerminal "T1"], [.terminal "A0"]]),
    ("|A0", [[.nonTerminal "T2", .nonTerminal "T3"]]),
    ("T1", [[.terminal "a"]]),
    ("T2", [[.terminal "b"]]),
    ("T3", [[.terminal "c"]])]

/-- Plain text changes the strings of a start symbol that mentions a left-out name, the start symbol
itself if it is left out, and the strings of a start symbol that mentions a name with a bar. -/
theorem normalForm_changed_by_plaintext :
    (ofText "S -> A B | b\nA -> λ\nB -> b" = .ok silentPart ∧ silentPart.TerminalsUnnumbered ∧
      silentPart.toChomsky = .ok silentPartChomsky ∧
      ofText silentPartChomsky.plaintext = .ok silentPartReadBack ∧
      silentPartChomsky.start? = some "S" ∧ silentPartReadBack.start? = some "S" ∧
      silentPartReadBack.Generates "S" ["A", "b"] ∧
      ¬ silentPartChomsky.Generates "S" ["A", "b"]) ∧
    (ofText "S -> S\nA -> a" = .ok loopingStart ∧ loopingStart.TerminalsUnnumbered ∧
      loopingStart.toChomsky = .ok loopingStartChomsky ∧
      ofText loopingStartChomsky.plaintext = .ok loopingStartReadBack ∧
      loopingStartChomsky.start? = some "S" ∧ loopingStartReadBack.start? = some "A") ∧
    (ofText "|A -> a b c" = .ok barred ∧ barred.TerminalsUnnumbered ∧
      barred.toChomsky = .ok barredChomsky ∧
      ofText barredChomsky.plaintext = .ok barredReadBack ∧
      barredChomsky.start? = some "|A" ∧ barredReadBack.start? = some "|A" ∧
      barredReadBack.Generates "|A" ["A0"] ∧ ¬ barredChomsky.Generates "|A" ["A0"]) := by
  have hsilent : silentPartReadBack.Generates "S" ["A", "b"] := by
    have hb : silentPartReadBack.Generates "B" ["b"] :=
      ⟨[.terminal "b"], by decide, .terminal .nil⟩
    exact generates_append_of_mem (p := [.terminal "A"]) (by decide) ⟨[], rfl, rfl⟩ hb
  have hbarred : barredReadBack.Generates "|A" ["A0"] :=
    ⟨[.terminal "A0"], by decide, .terminal .nil⟩
  refine ⟨⟨by rfl, terminalsUnnumbered_of_noDigit (by decide), by rfl, by rfl, rfl, rfl, hsilent,
    fun hgenerates ↦ ?_⟩, ⟨by rfl, terminalsUnnumbered_of_noDigit (by decide), by rfl, by rfl, rfl,
    rfl⟩, ⟨by rfl, terminalsUnnumbered_of_noDigit (by decide), by rfl, by rfl, rfl, rfl, hbarred,
    fun hgenerates ↦ ?_⟩⟩
  · exact absurd (hasSymbol_of_generates hgenerates "A" List.mem_cons_self) (by decide)
  · exact absurd (hasSymbol_of_generates hgenerates "A0" List.mem_cons_self) (by decide)

end Grammar

end ContextFree
