import ContextFree.Grammar.Language

/-!
# Comparing the languages of two grammars

The generated strings are the least reading closed under the productions.  One grammar therefore
generates what another one does as soon as its own language justifies every production of the
other, and every change of form is compared with its source by two such inclusions.

The comparison never looks at a derivation as a tree: a production is read with the non-terminals
standing for their languages, and the least reading carries the induction.
-/

namespace ContextFree.Grammar

variable {g h : Grammar} {n : Name} {w : List Name}

theorem generates_iff_reads :
    g.Generates n w ↔ ∃ p ∈ g.productionsOf n, Reads g.Generates p w := by
  simp only [Generates, derives_iff_reads]

/-- Only a declared non-terminal has productions. -/
theorem mem_names_of_mem_productionsOf {p : Production} (hp : p ∈ g.productionsOf n) :
    n ∈ g.names := by
  obtain ⟨productions, hrule, -⟩ := mem_productionsOf_iff.1 hp
  exact List.mem_map_of_mem hrule

/-- The productions of a declared name after every list of productions has been changed. -/
theorem mem_productionsOf_mapProductions {f : Name → List Production → List Production}
    {p : Production} : p ∈ (g.mapProductions f).productionsOf n ↔
      n ∈ g.names ∧ p ∈ f n (g.productionsOf n) := by
  by_cases hn : n ∈ g.names
  · simp [productionsOf_mapProductions hn, hn]
  · have hnone : n ∉ (g.mapProductions f).names := by rwa [names_mapProductions]
    simp [productionsOf_eq_nil hnone, hn]

/-- Every non-terminal of a production is declared. -/
def MentionsDeclared (g : Grammar) : Prop :=
  ∀ n, ∀ p ∈ g.productionsOf n, ∀ m, Symbol.nonTerminal m ∈ p → m ∈ g.names

/-! ## Readings -/

/-- A reading grows with the strings of the non-terminals that it mentions. -/
theorem Reads.mono {meaning larger : Name → List Name → Prop} {p : Production}
    (hle : ∀ m, Symbol.nonTerminal m ∈ p → ∀ u, meaning m u → larger m u)
    (hreads : Reads meaning p w) : Reads larger p w := by
  induction p generalizing w with
  | nil => exact hreads
  | cons s rest ih =>
    have hrest : ∀ m, Symbol.nonTerminal m ∈ rest → ∀ u, meaning m u → larger m u :=
      fun m hm ↦ hle m (List.mem_cons_of_mem s hm)
    cases s with
    | terminal t =>
      obtain ⟨v, rfl, hv⟩ := hreads
      exact ⟨v, rfl, ih hrest hv⟩
    | epsilon => exact ih hrest hreads
    | nonTerminal m =>
      obtain ⟨u, v, rfl, hu, hv⟩ := hreads
      exact ⟨u, v, rfl, hle m List.mem_cons_self u hu, ih hrest hv⟩

/-- A reading carries over to other symbols that read whatever the symbols read. -/
theorem Reads.map {meaning larger : Name → List Name → Prop} {f : Symbol → Symbol}
    {p : Production} (hf : ∀ s ∈ p, ∀ u, Reads meaning [s] u → Reads larger [f s] u)
    (hreads : Reads meaning p w) : Reads larger (p.map f) w := by
  induction p generalizing w with
  | nil => exact hreads
  | cons s rest ih =>
    rw [← List.singleton_append] at hreads
    obtain ⟨u, v, rfl, hu, hv⟩ := reads_append_iff.1 hreads
    have hrest := ih (fun s' hs' ↦ hf s' (List.mem_cons_of_mem s hs')) hv
    rw [List.map_cons, ← List.singleton_append]
    exact reads_append_iff.2 ⟨u, v, rfl, hf s List.mem_cons_self u hu, hrest⟩

/-- A terminal of a string that is read stands in the production or in the string of one of its
non-terminals. -/
theorem Reads.mem_cases {meaning : Name → List Name → Prop} {p : Production} {t : Name}
    (hreads : Reads meaning p w) (ht : t ∈ w) :
    .terminal t ∈ p ∨ ∃ m u, .nonTerminal m ∈ p ∧ meaning m u ∧ t ∈ u := by
  induction p generalizing w with
  | nil =>
    rw [hreads] at ht
    exact absurd ht List.not_mem_nil
  | cons s rest ih =>
    have hlater : ∀ v, Reads meaning rest v → t ∈ v → .terminal t ∈ s :: rest ∨
        ∃ m u, .nonTerminal m ∈ s :: rest ∧ meaning m u ∧ t ∈ u := by
      intro v hv htv
      rcases ih hv htv with hmember | ⟨m, u, hm, hu, htu⟩
      · exact .inl (List.mem_cons_of_mem s hmember)
      · exact .inr ⟨m, u, List.mem_cons_of_mem s hm, hu, htu⟩
    cases s with
    | terminal t' =>
      obtain ⟨v, rfl, hv⟩ := hreads
      rcases List.mem_cons.1 ht with rfl | htv
      · exact .inl List.mem_cons_self
      · exact hlater v hv htv
    | epsilon => exact hlater w hreads ht
    | nonTerminal m =>
      obtain ⟨u, v, rfl, hu, hv⟩ := hreads
      rcases List.mem_append.1 ht with htu | htv
      · exact .inr ⟨m, u, List.mem_cons_self, hu, htu⟩
      · exact hlater v hv htv

@[simp]
theorem reads_singleton_nonTerminal {meaning : Name → List Name → Prop} {m : Name} :
    Reads meaning [.nonTerminal m] w ↔ meaning m w := by
  simp [Reads]

/-- What a production reads up to its last non-terminal, followed by a string of that one. -/
theorem generates_append_of_mem {last : Name} {p : Production} {u v : List Name}
    (hp : p ++ [.nonTerminal last] ∈ g.productionsOf n) (hu : Reads g.Generates p u)
    (hv : g.Generates last v) : g.Generates n (u ++ v) := by
  have hread : Reads g.Generates [.nonTerminal last] v := reads_singleton_nonTerminal.2 hv
  exact generates_iff_reads.2 ⟨_, hp, reads_append_iff.2 ⟨u, v, rfl, hu, hread⟩⟩

/-- Symbols that read alike may stand for each other. -/
theorem reads_map_iff {meaning : Name → List Name → Prop} {f : Symbol → Symbol} {p : Production}
    (hf : ∀ s ∈ p, ∀ u, Reads meaning [f s] u ↔ Reads meaning [s] u) :
    Reads meaning (p.map f) w ↔ Reads meaning p w := by
  induction p generalizing w with
  | nil => rfl
  | cons s rest ih =>
    have hrest : ∀ v, Reads meaning (rest.map f) v ↔ Reads meaning rest v :=
      fun v ↦ ih fun s' hs' ↦ hf s' (List.mem_cons_of_mem s hs')
    rw [List.map_cons, ← List.singleton_append, ← List.singleton_append (l := rest)]
    simp only [reads_append_iff, hf s List.mem_cons_self, hrest]

/-! ## Inclusions -/

/-- The generated strings are the least reading closed under the productions. -/
theorem Generates.least {motive : Name → List Name → Prop}
    (hclosed : ∀ m, ∀ p ∈ g.productionsOf m, ∀ u, Reads motive p u → motive m u)
    (hgenerates : g.Generates n w) : motive n w := by
  obtain ⟨p, hp, hderives⟩ := hgenerates
  exact hclosed n p hp w (hderives.sound hclosed)

/-- A grammar generates what another one does if it has, for each string read off a production of
the other, a production of its own that reads the string. -/
theorem Generates.transfer
    (hsource : ∀ m, ∀ p ∈ g.productionsOf m, ∀ u, Reads h.Generates p u →
      ∃ q ∈ h.productionsOf m, Reads h.Generates q u)
    (hgenerates : g.Generates n w) : h.Generates n w :=
  hgenerates.least fun m p hp u hu ↦ generates_iff_reads.2 (hsource m p hp u hu)

/-- Rules for further non-terminals change nothing for those that mention declared ones only. -/
theorem generates_iff_of_extends (hdeclared : g.MentionsDeclared)
    (hsame : ∀ m ∈ g.names, h.productionsOf m = g.productionsOf m) (hn : n ∈ g.names) :
    h.Generates n w ↔ g.Generates n w := by
  constructor
  · intro hgenerates
    -- Outside the declared names anything may be read, so the further rules close by themselves.
    refine Generates.least (motive := fun m u ↦ m ∈ g.names → g.Generates m u) ?_ hgenerates hn
    intro m p hp u hu hm
    rw [hsame m hm] at hp
    exact generates_iff_reads.2
      ⟨p, hp, hu.mono fun k hk v hv ↦ hv (hdeclared m p hp k hk)⟩
  · refine Generates.transfer fun m p hp u hu ↦ ⟨p, ?_, hu⟩
    rwa [hsame m (mem_names_of_mem_productionsOf hp)]

/-! ## Unfolding -/

/-- The productions of `h` are those of `g`, some with their leading non-terminal replaced by its
productions.  A replacement that would be the left-hand side itself may be missing. -/
structure Unfolds (g h : Grammar) : Prop where
  kept : ∀ n, ∀ p ∈ g.productionsOf n, p ∈ h.productionsOf n ∨
    ∃ lead rest, p = .nonTerminal lead :: rest ∧ ∀ q ∈ g.productionsOf lead,
      q ++ rest ∈ h.productionsOf n ∨ q ++ rest = [.nonTerminal n]
  justified : ∀ n, ∀ p ∈ h.productionsOf n, p ∈ g.productionsOf n ∨
    ∃ lead q rest, .nonTerminal lead :: rest ∈ g.productionsOf n ∧
      q ∈ g.productionsOf lead ∧ p = q ++ rest

/-- What an unfolded production reads, the production before unfolding reads too. -/
theorem reads_cons_of_reads_append {lead : Name} {q rest : Production}
    (hq : q ∈ g.productionsOf lead) (hreads : Reads g.Generates (q ++ rest) w) :
    Reads g.Generates (.nonTerminal lead :: rest) w := by
  obtain ⟨u, v, rfl, hu, hv⟩ := reads_append_iff.1 hreads
  exact ⟨u, v, rfl, generates_iff_reads.2 ⟨q, hq, hu⟩, hv⟩

/-- Unfolding leaves every language as it is. -/
theorem Unfolds.generates_iff (hunfolds : Unfolds g h) :
    h.Generates n w ↔ g.Generates n w := by
  constructor
  · apply Generates.transfer
    intro m p hp u hu
    rcases hunfolds.justified m p hp with hold | ⟨lead, q, rest, hlead, hq, rfl⟩
    · exact ⟨p, hold, hu⟩
    · exact ⟨_, hlead, reads_cons_of_reads_append hq hu⟩
  · intro hgenerates
    -- A string of the leading non-terminal has to be remembered together with the production that
    -- it was read off, for it is this production that replaces the non-terminal.
    refine (Generates.least (motive := fun m u ↦ h.Generates m u ∧
      ∃ q ∈ g.productionsOf m, Reads h.Generates q u) ?_ hgenerates).1
    intro m p hp u hu
    have hreads : Reads h.Generates p u := hu.mono fun _ _ _ hv ↦ hv.1
    refine ⟨?_, p, hp, hreads⟩
    rcases hunfolds.kept m p hp with hkept | ⟨lead, rest, rfl, hreplaced⟩
    · exact generates_iff_reads.2 ⟨p, hkept, hreads⟩
    · obtain ⟨x, y, rfl, ⟨-, q, hq, hx⟩, hy⟩ := hu
      have hword : Reads h.Generates (q ++ rest) (x ++ y) :=
        reads_append_iff.2 ⟨x, y, rfl, hx, hy.mono fun _ _ _ hv ↦ hv.1⟩
      rcases hreplaced q hq with hmember | hself
      · exact generates_iff_reads.2 ⟨_, hmember, hword⟩
      · rw [hself] at hword
        exact reads_singleton_nonTerminal.1 hword

end ContextFree.Grammar
