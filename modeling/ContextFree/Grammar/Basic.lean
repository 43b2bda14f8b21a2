import ContextFree.Symbol

/-!
# Grammars

A grammar is a list of rules with pairwise distinct left-hand sides; the first one is the start
symbol.  The order of the rules and of the productions of a rule is part of the grammar, and a
production may be listed twice.  A rule without productions declares a non-terminal and nothing
else.

Nothing is demanded of the productions here: they may mention undeclared non-terminals or be empty.
`Grammar.Valid` says which grammars are well formed.
-/

namespace ContextFree

/-- All the productions of one left-hand side. -/
abbrev Rule := Name × List Production

/-- A list loses its repetitions when each element keeps its first place only. -/
theorem nodup_eraseDups {α : Type} [BEq α] [LawfulBEq α] (l : List α) : l.eraseDups.Nodup := by
  match l with
  | [] => simp
  | a :: rest =>
    rw [List.eraseDups_cons, List.nodup_cons]
    exact ⟨by simp [List.mem_eraseDups], nodup_eraseDups _⟩
termination_by l.length
decreasing_by exact Nat.lt_succ_of_le (List.length_filter_le _ _)

@[ext]
structure Grammar where
  rules : List Rule := []
  distinct : (rules.map Prod.fst).Nodup := by simp
deriving Repr

namespace Grammar

def empty : Grammar := {}

instance : Inhabited Grammar := ⟨empty⟩

instance : DecidableEq Grammar := fun g h ↦
  decidable_of_iff (g.rules = h.rules) Grammar.ext_iff.symm

/-! ## Reading a grammar -/

/-- The declared non-terminals, in order. -/
def names (g : Grammar) : List Name :=
  g.rules.map Prod.fst

def contains (g : Grammar) (name : Name) : Bool :=
  g.names.contains name

def start? (g : Grammar) : Option Name :=
  g.names.head?

def isStart (g : Grammar) (name : Name) : Bool :=
  g.start? == some name

def productions? (g : Grammar) (name : Name) : Option (List Production) :=
  g.rules.lookup name

/-- The productions of a non-terminal; an undeclared one has none. -/
def productionsOf (g : Grammar) (name : Name) : List Production :=
  (g.productions? name).getD []

def productionCount (g : Grammar) : Nat :=
  (g.rules.flatMap Prod.snd).length

/-- Two grammars have the same rules when each declares what the other declares, with the same
productions in the same order.  The order of the rules themselves is left aside. -/
def sameRules (g h : Grammar) : Bool :=
  g.rules.length == h.rules.length &&
    g.rules.all fun (name, productions) ↦ h.productions? name == some productions

@[simp] theorem names_nodup (g : Grammar) : g.names.Nodup := g.distinct

@[simp] theorem contains_iff {g : Grammar} {name : Name} :
    g.contains name = true ↔ name ∈ g.names := by
  simp [contains]

@[simp] theorem names_empty : empty.names = [] := rfl

/-! ## Building and changing a grammar -/

/-- The grammar that declares the given names once each, in order of first appearance. -/
def ofNames (declared : List Name) (productions : Name → List Production) : Grammar where
  rules := declared.eraseDups.map fun name ↦ (name, productions name)
  distinct := by simpa [List.map_map, Function.comp_def] using nodup_eraseDups declared

@[simp] theorem names_ofNames (declared : List Name) (productions : Name → List Production) :
    (ofNames declared productions).names = declared.eraseDups := by
  simp [names, ofNames, Function.comp_def]

/-- Changes every list of productions, given its left-hand side. -/
def mapProductions (g : Grammar) (f : Name → List Production → List Production) : Grammar where
  rules := g.rules.map fun (name, productions) ↦ (name, f name productions)
  distinct := by simpa [List.map_map, Function.comp_def] using g.distinct

@[simp] theorem names_mapProductions (g : Grammar)
    (f : Name → List Production → List Production) : (g.mapProductions f).names = g.names := by
  simp [names, mapProductions, Function.comp_def]

/-- Changes the productions of one non-terminal. -/
def modify (g : Grammar) (name : Name) (f : List Production → List Production) : Grammar :=
  g.mapProductions fun left productions ↦ if left = name then f productions else productions

@[simp] theorem names_modify (g : Grammar) (name : Name)
    (f : List Production → List Production) : (g.modify name f).names = g.names := by
  simp [modify]

/-- Appends a rule for a name that is not declared yet. -/
def append (g : Grammar) (name : Name) (productions : List Production) (h : name ∉ g.names) :
    Grammar where
  rules := g.rules ++ [(name, productions)]
  distinct := by
    have hapart : ∀ left ∈ g.names, left ≠ name := fun left hmember hsame ↦ h (hsame ▸ hmember)
    simpa [List.map_append, List.nodup_append, names] using And.intro g.distinct hapart

@[simp] theorem names_append (g : Grammar) (name : Name) (productions : List Production)
    (h : name ∉ g.names) : (g.append name productions h).names = g.names ++ [name] := by
  simp [names, append]

/-- Declares a non-terminal, without productions if it is new. -/
def addNonTerminal (g : Grammar) (name : Name) : Grammar :=
  if h : name ∈ g.names then g else g.append name [] h

/-- Adds a production at the end of its left-hand side's, declaring that if it is new. -/
def addProduction (g : Grammar) (left : Name) (right : Production) : Grammar :=
  (g.addNonTerminal left).modify left (· ++ [right])

/-! ## The productions of a name -/

theorem lookup_eq_some_iff {α : Type} {entries : List (Name × α)}
    (hdistinct : (entries.map Prod.fst).Nodup) {name : Name} {value : α} :
    entries.lookup name = some value ↔ (name, value) ∈ entries := by
  induction entries with
  | nil => simp
  | cons entry entries ih =>
    obtain ⟨key, other⟩ := entry
    rw [List.map_cons, List.nodup_cons] at hdistinct
    rw [List.lookup_cons, List.mem_cons, ← ih hdistinct.2]
    by_cases hsame : name = key
    · subst hsame
      have habsent : entries.lookup name ≠ some value := by
        intro hfound
        have hmember := (ih hdistinct.2).1 hfound
        exact hdistinct.1 (List.mem_map.2 ⟨(name, value), hmember, rfl⟩)
      simp [habsent, eq_comm]
    · simp [hsame, beq_eq_false_iff_ne.2 hsame]

theorem lookup_eq_none_of_notMem {α : Type} {entries : List (Name × α)} {name : Name}
    (h : name ∉ entries.map Prod.fst) : entries.lookup name = none := by
  rw [List.lookup_eq_none_iff]
  intro entry hmember
  have hdifferent : name ≠ entry.1 := fun hsame ↦ h (hsame ▸ List.mem_map_of_mem hmember)
  simpa using hdifferent

@[simp] theorem productions?_eq_some_iff {g : Grammar} {name : Name}
    {productions : List Production} :
    g.productions? name = some productions ↔ (name, productions) ∈ g.rules :=
  lookup_eq_some_iff g.distinct

theorem productionsOf_eq {g : Grammar} {name : Name} {productions : List Production}
    (h : (name, productions) ∈ g.rules) : g.productionsOf name = productions := by
  rw [productionsOf, productions?_eq_some_iff.2 h, Option.getD_some]

theorem productionsOf_eq_nil {g : Grammar} {name : Name} (h : name ∉ g.names) :
    g.productionsOf name = [] := by
  cases hfound : g.productions? name with
  | none => simp [productionsOf, hfound]
  | some productions =>
    exact absurd (List.mem_map_of_mem (f := Prod.fst) (productions?_eq_some_iff.1 hfound)) h

/-- A declared name has its rule. -/
theorem rule_mem {g : Grammar} {name : Name} (h : name ∈ g.names) :
    (name, g.productionsOf name) ∈ g.rules := by
  obtain ⟨⟨left, productions⟩, hmember, rfl⟩ := List.mem_map.1 h
  exact productionsOf_eq hmember ▸ hmember

theorem mem_productionsOf_iff {g : Grammar} {name : Name} {p : Production} :
    p ∈ g.productionsOf name ↔ ∃ productions, (name, productions) ∈ g.rules ∧ p ∈ productions := by
  constructor
  · intro h
    by_cases hdeclared : name ∈ g.names
    · exact ⟨_, rule_mem hdeclared, h⟩
    · simp [productionsOf_eq_nil hdeclared] at h
  · rintro ⟨productions, hmember, h⟩
    rwa [productionsOf_eq hmember]

theorem productionsOf_mapProductions {g : Grammar} {name : Name} (h : name ∈ g.names)
    (f : Name → List Production → List Production) :
    (g.mapProductions f).productionsOf name = f name (g.productionsOf name) :=
  productionsOf_eq (List.mem_map_of_mem (rule_mem h))

@[simp] theorem productionsOf_modify_self {g : Grammar} {name : Name} (h : name ∈ g.names)
    (f : List Production → List Production) :
    (g.modify name f).productionsOf name = f (g.productionsOf name) := by
  simp [modify, productionsOf_mapProductions h]

@[simp] theorem productionsOf_modify_of_ne {g : Grammar} {left name : Name} (h : left ≠ name)
    (f : List Production → List Production) :
    (g.modify name f).productionsOf left = g.productionsOf left := by
  by_cases hdeclared : left ∈ g.names
  · simp [modify, productionsOf_mapProductions hdeclared, h]
  · rw [productionsOf_eq_nil hdeclared, productionsOf_eq_nil (by simpa using hdeclared)]

@[simp] theorem productionsOf_append_self {g : Grammar} {name : Name} (h : name ∉ g.names)
    (productions : List Production) :
    (g.append name productions h).productionsOf name = productions :=
  productionsOf_eq (by simp [append])

@[simp] theorem productionsOf_append_of_ne {g : Grammar} {left name : Name} (h : name ∉ g.names)
    (hdifferent : left ≠ name) (productions : List Production) :
    (g.append name productions h).productionsOf left = g.productionsOf left := by
  by_cases hdeclared : left ∈ g.names
  · exact productionsOf_eq (by simp [append, rule_mem hdeclared])
  · rw [productionsOf_eq_nil hdeclared,
      productionsOf_eq_nil (by simpa [hdifferent] using hdeclared)]

end Grammar

end ContextFree
