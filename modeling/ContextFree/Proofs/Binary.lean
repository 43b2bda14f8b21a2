import ContextFree.Binary
import ContextFree.Proofs.FreshNames

/-!
# What splitting long productions does

Each new non-terminal stands for the rest of a right-hand side, and its rule is the split form of
that rest.  The first two symbols of a split production read with these rules what the production
reads, and every rule that is added has one production of two symbols.
-/

namespace ContextFree

/-! ## Changing a list element by element -/

namespace Extended

variable {α β : Type} {f : FreshNames → α → Extended β} {fresh : FreshNames} {l : List α}

/-- Every element is changed with some state of the generator. -/
theorem exists_result_mem_traverse (fresh : FreshNames) {a : α} (ha : a ∈ l) :
    ∃ state, (f state a).result ∈ (traverse f fresh l).result ∧
      (f state a).added ⊆ (traverse f fresh l).added := by
  induction l generalizing fresh with
  | nil => exact absurd ha List.not_mem_nil
  | cons b l ih =>
    rcases List.mem_cons.1 ha with rfl | ha
    · exact ⟨fresh, List.mem_cons_self, List.subset_append_left _ _⟩
    · obtain ⟨state, hresult, hadded⟩ := ih (f fresh b).fresh ha
      exact ⟨state, List.mem_cons_of_mem _ hresult,
        List.subset_append_of_subset_right _ hadded⟩

/-- Every changed element comes from an element. -/
theorem exists_of_mem_traverse_result {b : β} (hb : b ∈ (traverse f fresh l).result) :
    ∃ a ∈ l, ∃ state, (f state a).result = b ∧
      (f state a).added ⊆ (traverse f fresh l).added := by
  induction l generalizing fresh with
  | nil => exact absurd hb List.not_mem_nil
  | cons a l ih =>
    rcases List.mem_cons.1 hb with rfl | hb
    · exact ⟨a, List.mem_cons_self, fresh, rfl, List.subset_append_left _ _⟩
    · obtain ⟨a', ha', state, hresult, hadded⟩ := ih hb
      exact ⟨a', List.mem_cons_of_mem a ha', state, hresult,
        List.subset_append_of_subset_right _ hadded⟩

/-- Every added rule is added for an element. -/
theorem exists_of_mem_traverse_added {rule : Rule} (hrule : rule ∈ (traverse f fresh l).added) :
    ∃ a ∈ l, ∃ state, rule ∈ (f state a).added ∧
      (f state a).added ⊆ (traverse f fresh l).added := by
  induction l generalizing fresh with
  | nil => exact absurd hrule List.not_mem_nil
  | cons a l ih =>
    rcases List.mem_append.1 hrule with hfirst | hlater
    · exact ⟨a, List.mem_cons_self, fresh, hfirst, List.subset_append_left _ _⟩
    · obtain ⟨a', ha', state, hmember, hadded⟩ := ih hlater
      exact ⟨a', List.mem_cons_of_mem a ha', state, hmember,
        List.subset_append_of_subset_right _ hadded⟩

end Extended

/-! ## One production -/

namespace Production

variable {base : Name} {declared : List Name} {fresh : FreshNames} {p q : Production}

theorem split_of_length_le (hp : p.length ≤ 2) :
    split base declared fresh p = ⟨p, [], fresh⟩ := by
  match p with
  | [] => rfl
  | [_] => rfl
  | [_, _] => rfl

theorem length_split_result (hp : 2 ≤ p.length) :
    (split base declared fresh p).result.length = 2 := by
  match p with
  | [_, _] => rfl
  | _ :: _ :: _ :: _ => rfl

/-- A short production is left as it is, and a long one becomes one of two symbols. -/
theorem split_result_cases :
    (split base declared fresh p).result = p ∧ p.length ≤ 2 ∨
      (split base declared fresh p).result.length = 2 := by
  by_cases hp : p.length ≤ 2
  · exact .inl ⟨by rw [split_of_length_le hp], hp⟩
  · exact .inr (length_split_result (by omega))

/-- An added rule has one production, of two symbols. -/
theorem exists_of_mem_split_added {rule : Rule}
    (hrule : rule ∈ (split base declared fresh p).added) :
    ∃ q : Production, rule.2 = [q] ∧ q.length = 2 := by
  fun_induction split base declared fresh p with
  | case1 fresh first second third rest name state hminted tail ih =>
    rcases List.mem_cons.1 hrule with rfl | hrule
    · exact ⟨_, rfl, length_split_result (by simp)⟩
    · exact ih hrule
  | case2 fresh short hshort => exact absurd hrule List.not_mem_nil

/-- The added rules have minted names. -/
theorem exists_numbered_of_mem_split_added {rule : Rule}
    (hrule : rule ∈ (split base declared fresh p).added) :
    ∃ number, rule.1 = FreshNames.numbered base number := by
  fun_induction split base declared fresh p with
  | case1 fresh first second third rest name state hminted tail ih =>
    rcases List.mem_cons.1 hrule with rfl | hrule
    · exact FreshNames.exists_numbered_of_mint hminted
    · exact ih hrule
  | case2 fresh short hshort => exact absurd hrule List.not_mem_nil

/-- Splitting a production brings in the non-terminals of the added rules only. -/
theorem mem_or_added_of_mem_split {s : Symbol}
    (hq : q = (split base declared fresh p).result ∨
      ∃ rule ∈ (split base declared fresh p).added, q ∈ rule.2) (hs : s ∈ q) :
    s ∈ p ∨ ∃ rule ∈ (split base declared fresh p).added, s = .nonTerminal rule.1 := by
  fun_induction split base declared fresh p with
  | case1 fresh first second third rest name state hminted tail ih =>
    have htail : q = tail.result ∨ (∃ rule ∈ tail.added, q ∈ rule.2) →
        s ∈ first :: second :: third :: rest ∨
          ∃ rule ∈ (name, [tail.result]) :: tail.added, s = .nonTerminal rule.1 := by
      intro hq
      rcases ih hq with hold | ⟨rule, hrule, hsame⟩
      · exact .inl (List.mem_cons_of_mem first hold)
      · exact .inr ⟨rule, List.mem_cons_of_mem _ hrule, hsame⟩
    rcases hq with rfl | ⟨rule, hrule, hq⟩
    · rcases List.mem_cons.1 hs with rfl | hs
      · exact .inl List.mem_cons_self
      · exact .inr ⟨_, List.mem_cons_self, List.mem_singleton.1 hs⟩
    · rcases List.mem_cons.1 hrule with rfl | hrule
      · exact htail (.inl (List.mem_singleton.1 hq))
      · exact htail (.inr ⟨rule, hrule, hq⟩)
  | case2 fresh short hshort =>
    rcases hq with rfl | ⟨rule, hrule, -⟩
    · exact .inl hs
    · exact absurd hrule List.not_mem_nil

end Production

namespace Grammar

variable {g h : Grammar} {fresh fresh' : FreshNames} {n : Name} {p q : Production}
  {w : List Name}

/-- A production reads what its first two symbols read together with the added rules. -/
theorem alike_split (base : Name) (declared : List Name) (fresh : FreshNames) (p : Production) :
    Alike (Production.split base declared fresh p).added p
      (Production.split base declared fresh p).result := by
  fun_induction Production.split base declared fresh p with
  | case1 fresh first second third rest name state hminted tail ih =>
    intro meaning hsolves w
    have hrest : Alike ((name, [tail.result]) :: tail.added) (second :: third :: rest)
        tail.result := ih.superset (List.subset_cons_self _ _)
    have hname : ∀ v, meaning name v ↔ Reads meaning tail.result v := by
      intro v
      simpa using hsolves (name, [tail.result]) List.mem_cons_self v
    rw [← List.singleton_append, ← List.singleton_append (l := [_]), reads_append_iff,
      reads_append_iff]
    simp only [reads_singleton_nonTerminal, hname, hrest meaning hsolves]
  | case2 fresh short hshort => exact fun _ _ _ ↦ Iff.rfl

/-! ## The whole grammar -/

theorem nodup_map_fst_splitRules (g : Grammar) (fresh : FreshNames) :
    ((splitRules g.names fresh g.rules).result.map Prod.fst).Nodup := by
  rw [map_fst_splitRules]
  exact g.distinct

/-- The grammar with its long productions cut short, before the new rules are appended. -/
def shortened (g : Grammar) (fresh : FreshNames) : Grammar where
  rules := (splitRules g.names fresh g.rules).result
  distinct := nodup_map_fst_splitRules g fresh

/-- The rules for the rests that were cut off. -/
def splitOff (g : Grammar) (fresh : FreshNames) : List Rule :=
  (splitRules g.names fresh g.rules).added

theorem binarize_eq_ok_iff :
    g.binarize fresh = .ok (h, fresh') ↔ g.Valid ∧
      h.rules = (g.shortened fresh).rules ++ g.splitOff fresh ∧
      fresh' = (splitRules g.names fresh g.rules).fresh := by
  unfold binarize
  rw [validate_bind_eq_ok_iff]
  apply and_congr_right
  intro _
  simp only [bind_eq_ok_iff, pure_eq_ok_iff, insertAllFresh_eq_ok_iff, Prod.mk.injEq]
  constructor
  · intro hresult
    obtain ⟨k, hk, rfl, rfl⟩ := hresult
    exact ⟨hk, rfl⟩
  · intro hresult
    exact ⟨h, hresult.1, rfl, hresult.2⟩

@[simp]
theorem names_shortened (g : Grammar) (fresh : FreshNames) :
    (g.shortened fresh).names = g.names :=
  map_fst_splitRules g.names fresh g.rules

theorem exists_split_mem_shortened (fresh : FreshNames) (hp : p ∈ g.productionsOf n) :
    ∃ state, (Production.split n g.names state p).result ∈ (g.shortened fresh).productionsOf n ∧
      (Production.split n g.names state p).added ⊆ g.splitOff fresh := by
  obtain ⟨productions, hrule, hmember⟩ := mem_productionsOf_iff.1 hp
  obtain ⟨outer, hresult, hadded⟩ := Extended.exists_result_mem_traverse
    (f := splitRule g.names) fresh hrule
  obtain ⟨state, hinner, hpart⟩ := Extended.exists_result_mem_traverse
    (f := Production.split n g.names) outer hmember
  exact ⟨state, mem_productionsOf_iff.2 ⟨_, hresult, hinner⟩, List.Subset.trans hpart hadded⟩

theorem exists_of_mem_shortened (hq : q ∈ (g.shortened fresh).productionsOf n) :
    ∃ p ∈ g.productionsOf n, ∃ state, (Production.split n g.names state p).result = q ∧
      (Production.split n g.names state p).added ⊆ g.splitOff fresh := by
  obtain ⟨productions, hrule, hmember⟩ := mem_productionsOf_iff.1 hq
  obtain ⟨⟨left, sources⟩, hsource, outer, hresult, hadded⟩ :=
    Extended.exists_of_mem_traverse_result hrule
  obtain ⟨rfl, rfl⟩ := Prod.mk.inj hresult
  obtain ⟨p, hp, state, hinner, hpart⟩ := Extended.exists_of_mem_traverse_result hmember
  have hmember : p ∈ g.productionsOf left := mem_productionsOf_iff.2 ⟨sources, hsource, hp⟩
  exact ⟨p, hmember, state, hinner, List.Subset.trans hpart hadded⟩

/-- A rule that is added is added for a production. -/
theorem exists_split_of_mem_splitOff {rule : Rule} (hrule : rule ∈ g.splitOff fresh) :
    ∃ m, ∃ p ∈ g.productionsOf m, ∃ state,
      rule ∈ (Production.split m g.names state p).added ∧
        (Production.split m g.names state p).added ⊆ g.splitOff fresh := by
  obtain ⟨source, hsource, outer, houter, hadded⟩ := Extended.exists_of_mem_traverse_added hrule
  obtain ⟨p, hp, state, hmember, hpart⟩ := Extended.exists_of_mem_traverse_added houter
  exact ⟨source.1, p, mem_productionsOf_iff.2 ⟨source.2, hsource, hp⟩, state, hmember,
    List.Subset.trans hpart hadded⟩

/-- A rule that is added has one production, of two symbols. -/
theorem exists_of_mem_splitOff {rule : Rule} (hrule : rule ∈ g.splitOff fresh) :
    ∃ q : Production, rule.2 = [q] ∧ q.length = 2 := by
  obtain ⟨_, _, _, _, hmember, -⟩ := exists_split_of_mem_splitOff hrule
  exact Production.exists_of_mem_split_added hmember

section Result

variable (hresult : g.binarize fresh = .ok (h, fresh'))
include hresult

theorem rules_binarize : h.rules = (g.shortened fresh).rules ++ g.splitOff fresh :=
  (binarize_eq_ok_iff.1 hresult).2.1

theorem names_binarize : h.names = g.names ++ (g.splitOff fresh).map Prod.fst := by
  rw [names_of_append (rules_binarize hresult), names_shortened]

/-- Splitting long productions leaves the language of every declared non-terminal as it is. -/
theorem generates_binarize_iff (hn : n ∈ g.names) : h.Generates n w ↔ g.Generates n w := by
  refine generates_iff_of_replaced (binarize_eq_ok_iff.1 hresult).1 (names_shortened g fresh)
    (rules_binarize hresult) ?_ ?_ hn
  · intro m p hp
    obtain ⟨state, hmember, hadded⟩ := exists_split_mem_shortened fresh hp
    exact ⟨_, hmember, (alike_split m g.names state p).superset hadded⟩
  · intro m q hq
    obtain ⟨p, hp, state, rfl, hadded⟩ := exists_of_mem_shortened hq
    exact ⟨p, hp, (alike_split m g.names state p).superset hadded⟩

/-- A production afterwards is a short one that was there before, or it has two symbols. -/
theorem mem_productionsOf_binarize (hq : q ∈ h.productionsOf n) :
    q ∈ g.productionsOf n ∧ q.length ≤ 2 ∨ q.length = 2 := by
  rcases (mem_productionsOf_of_append (rules_binarize hresult)).1 hq with hold | hnew
  · obtain ⟨p, hp, state, rfl, -⟩ := exists_of_mem_shortened hold
    rcases Production.split_result_cases (p := p) with ⟨hsame, hshort⟩ | hlength
    · exact .inl ⟨by rwa [hsame], by rwa [hsame]⟩
    · exact .inr hlength
  · obtain ⟨productions, hrule, hmember⟩ := hnew
    obtain ⟨q', hproductions, hlength⟩ := exists_of_mem_splitOff hrule
    have hsame : q = q' := List.mem_singleton.1 (hproductions ▸ hmember)
    exact .inr (hsame ▸ hlength)

/-- Every production afterwards comes from the splitting of one production. -/
theorem exists_split_of_mem_binarize (hq : q ∈ h.productionsOf n) :
    ∃ m, ∃ p ∈ g.productionsOf m, ∃ state,
      (q = (Production.split m g.names state p).result ∨
        ∃ rule ∈ (Production.split m g.names state p).added, q ∈ rule.2) ∧
      (Production.split m g.names state p).added ⊆ g.splitOff fresh := by
  rcases (mem_productionsOf_of_append (rules_binarize hresult)).1 hq with hold | hnew
  · obtain ⟨p, hp, state, rfl, hadded⟩ := exists_of_mem_shortened hold
    exact ⟨n, p, hp, state, .inl rfl, hadded⟩
  · obtain ⟨productions, hrule, hmember⟩ := hnew
    obtain ⟨m, p, hp, state, hpart, hadded⟩ := exists_split_of_mem_splitOff hrule
    exact ⟨m, p, hp, state, .inr ⟨_, hpart, hmember⟩, hadded⟩

/-- The result is valid, as the source is. -/
theorem valid_binarize : h.Valid := by
  have hvalid := (binarize_eq_ok_iff.1 hresult).1
  have hnames := names_binarize hresult
  refine valid_iff.2 fun n q hq ↦ ?_
  obtain ⟨m, p, hp, state, hsplit, hadded⟩ := exists_split_of_mem_binarize hresult hq
  have hwell := hvalid.wellFormed hp
  have hsymbols := fun s hs ↦ Production.mem_or_added_of_mem_split (s := s) hsplit hs
  refine ⟨?_, fun hepsilon ↦ ?_, fun name hname ↦ ?_⟩
  · rcases mem_productionsOf_binarize hresult hq with ⟨hold, -⟩ | hlength
    · exact (hvalid.wellFormed hold).ne_nil
    · exact List.ne_nil_of_length_pos (by omega)
  · rcases hsymbols _ hepsilon with hold | ⟨rule, -, hsame⟩
    · -- A production with `λ` in it is `λ` alone, and too short to be split.
      obtain rfl := hwell.eq_epsilon_of_mem hold
      rcases hsplit with rfl | ⟨rule, hrule, -⟩
      · rfl
      · exact absurd hrule List.not_mem_nil
    · exact Symbol.noConfusion hsame
  · rw [hnames, List.mem_append]
    rcases hsymbols _ hname with hold | ⟨rule, hrule, hsame⟩
    · exact .inl (hwell.declared_of_mem name hold)
    · rw [Symbol.nonTerminal.inj hsame]
      exact .inr (List.mem_map_of_mem (hadded hrule))

/-- Splitting keeps the productions of at most two symbols. -/
theorem mem_productionsOf_binarize_of_length_le (hp : p ∈ g.productionsOf n)
    (hshort : p.length ≤ 2) : p ∈ h.productionsOf n := by
  obtain ⟨state, hmember, -⟩ := exists_split_mem_shortened fresh hp
  rw [Production.split_of_length_le hshort] at hmember
  exact (mem_productionsOf_of_append (rules_binarize hresult)).2 (.inl hmember)

/-- Splitting leaves the productions of one symbol where they are. -/
theorem singleton_mem_binarize_iff {s : Symbol} :
    [s] ∈ h.productionsOf n ↔ [s] ∈ g.productionsOf n := by
  constructor
  · intro hs
    rcases mem_productionsOf_binarize hresult hs with ⟨hold, -⟩ | hlength
    · exact hold
    · exact absurd hlength (by simp)
  · intro hs
    exact mem_productionsOf_binarize_of_length_le hresult hs (by simp)

/-- Splitting keeps the non-terminals with the production `λ`. -/
theorem epsilon_mem_binarize_iff :
    Production.epsilon ∈ h.productionsOf n ↔ Production.epsilon ∈ g.productionsOf n :=
  singleton_mem_binarize_iff hresult

end Result

end Grammar

end ContextFree
