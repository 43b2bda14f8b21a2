import ContextFree.Grammar.Json
import ContextFree.Proofs.Json.Written
import ContextFree.Proofs.Reading

/-!
# Grammars that JSON keeps

A document of a grammar is always read back as it was written; what may be lost are the kinds of the
symbols.  So a grammar comes back from JSON exactly when it is valid and its names tell the kinds,
and whatever a reader gives is such a grammar.
-/

namespace ContextFree

open Json

namespace Grammar

variable {g : Grammar} {n : Name} {text : String}

theorem map_fst_ofGrammar (g : Grammar) : (Document.ofGrammar g).map Prod.fst = g.names := by
  simp [Document.ofGrammar, names, Function.comp_def]

/-- A name that is written once has the value written for it. -/
theorem lastValue_ofGrammar (hn : n ∈ g.names) :
    (Document.ofGrammar g).lastValue n = (g.productionsOf n).map (·.map Symbol.name) := by
  have hdistinct : ((Document.ofGrammar g).reverse.map Prod.fst).Nodup := by
    rw [List.map_reverse, map_fst_ofGrammar]
    exact (List.reverse_perm g.names).nodup_iff.2 g.names_nodup
  have hmember :
      (n, (g.productionsOf n).map (·.map Symbol.name)) ∈ (Document.ofGrammar g).reverse :=
    List.mem_reverse.2 (List.mem_map_of_mem (rule_mem hn))
  rw [Document.lastValue, (lookup_eq_some_iff hdistinct).2 hmember, Option.getD_some]

/-- The grammar of a grammar's document is that grammar exactly when the name of each symbol stands
for the symbol. -/
theorem toGrammar_ofGrammar_eq_iff : (Document.ofGrammar g).toGrammar = g ↔
    ∀ s, g.HasSymbol s → Symbol.ofToken g.names s.name = s := by
  have hnames : g.names.eraseDups = g.names := eraseDups_eq_self g.names_nodup
  rw [Document.toGrammar, ofNames_eq_iff, map_fst_ofGrammar, and_iff_right hnames]
  constructor
  · intro hsame s hs
    obtain ⟨n, p, hp, hs⟩ := hs
    have hn := mem_names_of_mem_productionsOf hp
    have hproductions := hsame n hn
    rw [lastValue_ofGrammar hn, map_ofToken_map_name_eq_iff] at hproductions
    exact hproductions p hp s hs
  · intro hsymbols n hn
    rw [lastValue_ofGrammar hn, map_ofToken_map_name_eq_iff]
    exact fun p hp s hs ↦ hsymbols s ⟨n, p, hp, hs⟩

theorem ofJson_eq_ok_iff : ofJson text = .ok g ↔
    ∃ document, read text.toList = .ok document ∧ document.toGrammar = g ∧ g.Valid := by
  unfold ofJson
  cases read text.toList with
  | error fault => simp
  | ok document =>
    simp only [Except.ok.injEq, exists_eq_left']
    exact validate_bind_pure_eq_ok_iff

/-- A grammar comes back from JSON exactly when it is valid and its names tell the kinds. -/
theorem ofJson_toJson_eq_ok_iff : ofJson g.toJson = .ok g ↔ g.Valid ∧ g.NamesTellKinds := by
  have hdocument : ofJson g.toJson = .ok g ↔ (Document.ofGrammar g).toGrammar = g ∧ g.Valid := by
    rw [ofJson_eq_ok_iff, toJson, String.toList_ofList, read_write]
    simp only [Except.ok.injEq, exists_eq_left']
  rw [hdocument, and_comm]
  apply and_congr_right
  intro hvalid
  rw [toGrammar_ofGrammar_eq_iff, namesTellKinds_iff hvalid]

/-- What is read from JSON is valid and has names that tell the kinds of its symbols. -/
theorem namesTellKinds_ofJson (hread : ofJson text = .ok g) : g.Valid ∧ g.NamesTellKinds := by
  obtain ⟨document, -, rfl, hvalid⟩ := ofJson_eq_ok_iff.1 hread
  refine ⟨hvalid, namesTellKinds_ofNames hvalid fun n _ p hp s hs ↦ ?_⟩
  obtain ⟨alternative, -, rfl⟩ := List.mem_map.1 hp
  obtain ⟨token, -, rfl⟩ := List.mem_map.1 hs
  exact ⟨token, rfl⟩

/-- A grammar comes back from JSON exactly when it is valid and its names tell the kinds, and both
readers give such grammars. -/
theorem json_roundTrip_iff :
    (∀ g : Grammar, ofJson g.toJson = .ok g ↔ g.validate = .ok () ∧ g.NamesTellKinds) ∧
      (∀ (text : String) (g : Grammar), ofText text = .ok g ∨ ofJson text = .ok g →
        g.validate = .ok () ∧ g.NamesTellKinds) := by
  simp only [validate_eq_ok_iff]
  refine ⟨fun g ↦ ofJson_toJson_eq_ok_iff, fun text g hread ↦ ?_⟩
  rcases hread with htext | hjson
  · exact namesTellKinds_ofText htext
  · exact namesTellKinds_ofJson hjson

/-- A grammar with a key that is spelled `λ`, and a terminal that JSON has to escape. -/
def escaped : Grammar where
  rules := [("S", [[.terminal "a", .nonTerminal "S"], [.epsilon]]), ("λ", [[.terminal "\"\\"]])]

theorem json_roundTrip_iff_escaped :
    ofText "S -> a S | λ\nλ -> \"\\" = .ok escaped ∧
      (escaped.validate = .ok () ∧ escaped.NamesTellKinds) ∧
      ofJson escaped.toJson = .ok escaped := by
  have hread : ofText "S -> a S | λ\nλ -> \"\\" = .ok escaped := by rfl
  have hkept := json_roundTrip_iff.2 _ escaped (.inl hread)
  exact ⟨hread, hkept, (json_roundTrip_iff.1 escaped).2 hkept⟩

end Grammar

end ContextFree
