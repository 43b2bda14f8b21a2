import ContextFree.NullFree
import ContextFree.Proofs.Validity

/-!
# What removing empty productions does

A variant is a production with one non-terminal less.  If that non-terminal generates the empty
string, the production reads whatever its variant reads; so no string is added.  Strings may be
lost, since a production gets one variant for each name and not one for each set of occurrences.
-/

namespace ContextFree

namespace Production

variable {isStart : Bool} {nullable : List Name} {p q : Production} {name : Name}

theorem nullVariant?_eq_some_iff :
    p.nullVariant? isStart name = some q ↔ Symbol.nonTerminal name ∈ p ∧
      (q ≠ [] ∧ q = p.erase (.nonTerminal name) ∨
        p.erase (.nonTerminal name) = [] ∧ isStart = true ∧ q = epsilon) := by
  unfold nullVariant?
  split
  · next hname =>
    split
    · next hempty => cases isStart <;> simp [hempty, hname, eq_comm]
    · next hvariant =>
      have hne : p.erase (.nonTerminal name) ≠ [] := hvariant
      simp only [Option.some.injEq, hname, true_and, hne, false_and, or_false]
      constructor
      · intro hsame
        rw [← hsame]
        exact ⟨hne, rfl⟩
      · intro hsame
        exact hsame.2.symm
  · next hname => simp [hname]

theorem mem_nullVariants_iff :
    q ∈ p.nullVariants isStart nullable ↔ (p = epsilon → isStart = true) ∧
      (q = p ∨ ∃ name ∈ nullable, p.nullVariant? isStart name = some q) := by
  unfold nullVariants
  split
  · next hdropped => simp [hdropped]
  · next hkept =>
    have hstart : p = epsilon → isStart = true := fun hp ↦ by simpa [hp] using hkept
    rw [List.mem_append, List.mem_filterMap, List.mem_singleton, or_comm]
    exact (and_iff_right hstart).symm

/-- A variant keeps symbols of the production, unless it is `λ`. -/
theorem mem_of_mem_nullVariant? {s : Symbol} (hvariant : p.nullVariant? isStart name = some q)
    (hs : s ∈ q) : s ∈ p ∨ isStart = true ∧ q = epsilon := by
  rcases (nullVariant?_eq_some_iff.1 hvariant).2 with ⟨-, rfl⟩ | ⟨-, hstart, rfl⟩
  · exact .inl (List.mem_of_mem_erase hs)
  · exact .inr ⟨hstart, rfl⟩

end Production

namespace Grammar

variable {g h : Grammar} {nullable : List Name} {n : Name} {w : List Name}

theorem eliminateNull_eq_ok_iff :
    g.eliminateNull nullable = .ok h ↔ g.Valid ∧ h = g.mapProductions fun left productions ↦
      (productions.flatMap (Production.nullVariants (g.isStart left) nullable)).eraseDups := by
  unfold eliminateNull
  rw [validate_bind_eq_ok_iff, pure_eq_ok_iff]

/-- Removing empty productions never fails on a valid grammar. -/
theorem exists_eliminateNull_eq_ok (hvalid : g.Valid) (nullable : List Name) :
    ∃ h, g.eliminateNull nullable = .ok h :=
  ⟨_, eliminateNull_eq_ok_iff.2 ⟨hvalid, rfl⟩⟩

section Result

variable (hresult : g.eliminateNull nullable = .ok h)
include hresult

theorem names_eliminateNull : h.names = g.names := by
  rw [(eliminateNull_eq_ok_iff.1 hresult).2, names_mapProductions]

theorem start?_eliminateNull : h.start? = g.start? := by
  rw [start?, start?, names_eliminateNull hresult]

theorem mem_productionsOf_eliminateNull {q : Production} :
    q ∈ h.productionsOf n ↔
      ∃ p ∈ g.productionsOf n, q ∈ p.nullVariants (g.isStart n) nullable := by
  rw [(eliminateNull_eq_ok_iff.1 hresult).2, mem_productionsOf_mapProductions,
    List.mem_eraseDups, List.mem_flatMap]
  exact and_iff_right_of_imp fun ⟨p, hp, _⟩ ↦ mem_names_of_mem_productionsOf hp

/-- A production stays, unless it is `λ` and not the start symbol's. -/
theorem mem_productionsOf_eliminateNull_of_mem {p : Production}
    (hp : p ∈ g.productionsOf n) (hstart : p = Production.epsilon → g.isStart n = true) :
    p ∈ h.productionsOf n :=
  (mem_productionsOf_eliminateNull hresult).2
    ⟨p, hp, Production.mem_nullVariants_iff.2 ⟨hstart, .inl rfl⟩⟩

/-- Only the start symbol has the production `λ` afterwards. -/
theorem epsilonAtStart_eliminateNull : h.EpsilonAtStart := by
  intro n hepsilon
  have hvalid := (eliminateNull_eq_ok_iff.1 hresult).1
  obtain ⟨p, hp, hvariant⟩ := (mem_productionsOf_eliminateNull hresult).1 hepsilon
  obtain ⟨hkept, hcases⟩ := Production.mem_nullVariants_iff.1 hvariant
  have hstart : g.isStart n = true := by
    rcases hcases with rfl | ⟨name, -, hsome⟩
    · exact hkept rfl
    · rcases Production.mem_of_mem_nullVariant? hsome List.mem_cons_self with hs | ⟨hstart, -⟩
      · -- A production with `λ` in it is `λ` alone, and mentions no non-terminal to delete.
        exact hkept ((hvalid.wellFormed hp).eq_epsilon_of_mem hs)
      · exact hstart
  rw [start?_eliminateNull hresult]
  exact eq_of_beq hstart

/-- The result is valid, as the source is. -/
theorem valid_eliminateNull : h.Valid := by
  have hvalid := (eliminateNull_eq_ok_iff.1 hresult).1
  refine valid_iff.2 fun n q hq ↦ ?_
  obtain ⟨p, hp, hvariant⟩ := (mem_productionsOf_eliminateNull hresult).1 hq
  have hwell := hvalid.wellFormed hp
  rw [names_eliminateNull hresult]
  rcases (Production.mem_nullVariants_iff.1 hvariant).2 with rfl | ⟨name, -, hsome⟩
  · exact hwell
  · obtain ⟨hname, ⟨hne, rfl⟩ | ⟨-, -, rfl⟩⟩ := Production.nullVariant?_eq_some_iff.1 hsome
    · refine ⟨hne, fun hepsilon ↦ ?_, fun m hm ↦ hwell.declared_of_mem m (List.mem_of_mem_erase hm)⟩
      have hsame := hwell.eq_epsilon_of_mem (List.mem_of_mem_erase hepsilon)
      rw [hsame] at hname
      exact nomatch List.mem_singleton.1 hname
    · exact Production.wellFormed_epsilon g.names

end Result

/-! ## Languages -/

theorem mem_nullable_iff : n ∈ g.nullable ↔ Production.epsilon ∈ g.productionsOf n := by
  simp only [nullable, List.mem_map, List.mem_filter, List.contains_iff_mem, Prod.exists,
    mem_productionsOf_iff]
  constructor
  · intro hnullable
    obtain ⟨_, productions, ⟨hrule, hmember⟩, rfl⟩ := hnullable
    exact ⟨productions, hrule, hmember⟩
  · intro hepsilon
    obtain ⟨productions, hrule, hmember⟩ := hepsilon
    exact ⟨n, productions, ⟨hrule, hmember⟩, rfl⟩

theorem generates_nil_of_epsilon_mem (hepsilon : Production.epsilon ∈ g.productionsOf n) :
    g.Generates n [] :=
  generates_iff_reads.2 ⟨_, hepsilon, rfl⟩

/-- A production reads what it reads without a non-terminal that may stand for nothing. -/
theorem reads_of_reads_erase {meaning : Name → List Name → Prop} {p : Production} {name : Name}
    (hname : Symbol.nonTerminal name ∈ p) (hnil : meaning name [])
    (hreads : Reads meaning (p.erase (.nonTerminal name)) w) : Reads meaning p w := by
  obtain ⟨before, after, -, hsplit, herase⟩ := List.exists_erase_eq hname
  rw [herase, reads_append_iff] at hreads
  obtain ⟨u, v, rfl, hu, hv⟩ := hreads
  rw [hsplit, reads_append_iff]
  exact ⟨u, v, rfl, hu, [], v, rfl, hnil, hv⟩

/-- Whatever a production with nullable names deleted reads, the production reads. -/
theorem reads_of_mem_nullVariants {meaning : Name → List Name → Prop} {isStart : Bool}
    {p q : Production} (hnil : ∀ name ∈ nullable, .nonTerminal name ∈ p → meaning name [])
    (hvariant : q ∈ p.nullVariants isStart nullable) (hreads : Reads meaning q w) :
    Reads meaning p w := by
  rcases (Production.mem_nullVariants_iff.1 hvariant).2 with rfl | ⟨name, hname, hsome⟩
  · exact hreads
  · obtain ⟨hmember, hcases⟩ := Production.nullVariant?_eq_some_iff.1 hsome
    apply reads_of_reads_erase hmember (hnil name hname hmember)
    rcases hcases with ⟨-, rfl⟩ | ⟨hempty, -, rfl⟩
    · exact hreads
    · rw [hempty]
      exact hreads

/-- No string is added by making up for names that generate the empty string. -/
theorem generates_of_generates_eliminateNull (hresult : g.eliminateNull nullable = .ok h)
    (hnil : ∀ name ∈ nullable, g.Generates name []) (hgenerates : h.Generates n w) :
    g.Generates n w := by
  apply hgenerates.transfer
  intro m q hq u hu
  obtain ⟨p, hp, hvariant⟩ := (mem_productionsOf_eliminateNull hresult).1 hq
  exact ⟨p, hp, reads_of_mem_nullVariants (fun name hname _ ↦ hnil name hname) hvariant hu⟩

/-- No string is added by making up for the grammar's own nullable names. -/
theorem generates_of_generates_eliminateNull_nullable
    (hresult : g.eliminateNull g.nullable = .ok h) (hgenerates : h.Generates n w) :
    g.Generates n w :=
  generates_of_generates_eliminateNull hresult
    (fun _ hname ↦ generates_nil_of_epsilon_mem (mem_nullable_iff.1 hname)) hgenerates

/-- Without empty productions there is nothing to make up for, and nothing is lost. -/
theorem generates_eliminateNull_iff_of_epsilon_notMem
    (hresult : g.eliminateNull g.nullable = .ok h)
    (hnone : ∀ m, Production.epsilon ∉ g.productionsOf m) :
    h.Generates n w ↔ g.Generates n w := by
  refine ⟨generates_of_generates_eliminateNull_nullable hresult, ?_⟩
  refine Generates.transfer fun m p hp u hu ↦ ⟨p, ?_, hu⟩
  exact mem_productionsOf_eliminateNull_of_mem hresult hp fun hsame ↦ absurd (hsame ▸ hp) (hnone m)

end Grammar

end ContextFree
