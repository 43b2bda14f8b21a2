import ContextFree.Text.Split

/-!
# Cutting text that was put together

Cutting at a character of a class undoes putting parts together by it, as long as the parts are free
of the class; and whatever cutting gives is a part of the text and free of the class.  The same
holds of words, and of the text before and behind the first arrow.
-/

namespace ContextFree.Text

variable {isCut : Char → Bool} {cut c : Char} {text first rest piece word : List Char}

theorem of_mem_intercalate {separator : List Char} {parts : List (List Char)}
    (hc : c ∈ List.intercalate separator parts) : c ∈ separator ∨ ∃ part ∈ parts, c ∈ part := by
  induction parts with
  | nil => exact absurd hc List.not_mem_nil
  | cons part parts ih =>
    cases parts with
    | nil =>
      rw [List.intercalate_singleton] at hc
      exact .inr ⟨part, List.mem_singleton_self part, hc⟩
    | cons second parts =>
      rw [List.intercalate_cons_cons, List.append_assoc, List.mem_append, List.mem_append] at hc
      rcases hc with hpart | hsep | hrest
      · exact .inr ⟨part, List.mem_cons_self, hpart⟩
      · exact .inl hsep
      · rcases ih hrest with hsep | ⟨later, hlater, hc⟩
        · exact .inl hsep
        · exact .inr ⟨later, List.mem_cons_of_mem part hlater, hc⟩

/-! ## Pieces -/

theorem pieces_eq_singleton (htext : ∀ c ∈ text, isCut c = false) : pieces isCut text = [text] := by
  induction text with
  | nil => rfl
  | cons c text ih =>
    simp only [List.mem_cons, forall_eq_or_imp] at htext
    simp [pieces, consFirst, htext.1, ih htext.2]

theorem consFirst_append (c : Char) {parts : List (List Char)} (hne : parts ≠ [])
    (further : List (List Char)) :
    consFirst c (parts ++ further) = consFirst c parts ++ further := by
  cases parts with
  | nil => exact absurd rfl hne
  | cons part parts => rfl

/-- A text falls apart where it is cut. -/
theorem pieces_append_cut (hcut : isCut cut = true) (first rest : List Char) :
    pieces isCut (first ++ cut :: rest) = pieces isCut first ++ pieces isCut rest := by
  induction first with
  | nil => simp [pieces, hcut]
  | cons c first ih =>
    cases hc : isCut c with
    | false => simp [pieces, hc, ih, consFirst_append]
    | true => simp [pieces, hc, ih]

/-- Parts that are put together by a cut come apart again. -/
theorem pieces_intercalate (hcut : isCut cut = true) {parts : List (List Char)} (hne : parts ≠ [])
    (hparts : ∀ part ∈ parts, ∀ c ∈ part, isCut c = false) :
    pieces isCut (List.intercalate [cut] parts) = parts := by
  induction parts with
  | nil => exact absurd rfl hne
  | cons part parts ih =>
    obtain ⟨hpart, hrest⟩ := List.forall_mem_cons.1 hparts
    have hfirst := pieces_eq_singleton hpart
    cases parts with
    | nil => rw [List.intercalate_singleton, hfirst]
    | cons second parts =>
      rw [List.intercalate_cons_cons, List.append_assoc, List.singleton_append,
        pieces_append_cut hcut, hfirst, ih (List.cons_ne_nil _ _) hrest, List.singleton_append]

theorem isCut_of_mem_pieces (hpiece : piece ∈ pieces isCut text) (hc : c ∈ piece) :
    isCut c = false := by
  induction text generalizing piece with
  | nil =>
    rw [List.mem_singleton.1 hpiece] at hc
    exact absurd hc List.not_mem_nil
  | cons d text ih =>
    unfold pieces at hpiece
    split at hpiece
    · rcases List.mem_cons.1 hpiece with rfl | hlater
      · exact absurd hc List.not_mem_nil
      · exact ih hlater hc
    · next hd =>
      cases hpieces : pieces isCut text with
      | nil => exact absurd hpieces (pieces_ne_nil isCut text)
      | cons first further =>
        rw [hpieces] at hpiece ih
        rcases List.mem_cons.1 hpiece with rfl | hlater
        · rcases List.mem_cons.1 hc with rfl | hc
          · simpa using hd
          · exact ih List.mem_cons_self hc
        · exact ih (List.mem_cons_of_mem first hlater) hc

/-- The first piece stands at the front of the text, and the others stand in it. -/
theorem pieces_parts (isCut : Char → Bool) (text : List Char) : ∃ first further,
    pieces isCut text = first :: further ∧ first <+: text ∧ ∀ piece ∈ further, piece <:+: text := by
  induction text with
  | nil => exact ⟨[], [], rfl, List.prefix_refl [], fun _ h ↦ absurd h List.not_mem_nil⟩
  | cons c text ih =>
    obtain ⟨first, further, hpieces, hfirst, hfurther⟩ := ih
    have hlater : ∀ piece ∈ further, piece <:+: c :: text :=
      fun piece hpiece ↦ List.infix_cons (hfurther piece hpiece)
    unfold pieces
    rw [hpieces]
    split
    · refine ⟨[], first :: further, rfl, List.nil_prefix, fun piece hpiece ↦ ?_⟩
      rcases List.mem_cons.1 hpiece with rfl | hpiece
      · exact List.infix_cons hfirst.isInfix
      · exact hlater piece hpiece
    · exact ⟨c :: first, further, rfl, List.cons_prefix_cons.2 ⟨rfl, hfirst⟩, hlater⟩

theorem infix_of_mem_pieces (hpiece : piece ∈ pieces isCut text) : piece <:+: text := by
  obtain ⟨first, further, hpieces, hfirst, hfurther⟩ := pieces_parts isCut text
  rw [hpieces] at hpiece
  rcases List.mem_cons.1 hpiece with rfl | hpiece
  · exact hfirst.isInfix
  · exact hfurther piece hpiece

/-! ## Words -/

theorem words_append_blank (hc : isBlank c = true) (first rest : List Char) :
    words (first ++ c :: rest) = words first ++ words rest := by
  rw [words, pieces_append_cut hc, List.filter_append, words, words]

theorem words_eq_singleton (hne : text ≠ []) (htext : ∀ c ∈ text, isBlank c = false) :
    words text = [text] := by
  simp [words, pieces_eq_singleton htext, hne]

theorem words_blank_cons (hc : isBlank c = true) (rest : List Char) :
    words (c :: rest) = words rest :=
  words_append_blank hc [] rest

/-- Blanks in front of a text add no word. -/
theorem words_append_of_blank (hfirst : ∀ c ∈ first, isBlank c = true) (rest : List Char) :
    words (first ++ rest) = words rest := by
  induction first with
  | nil => rfl
  | cons c first ih =>
    simp only [List.mem_cons, forall_eq_or_imp] at hfirst
    rw [List.cons_append, words_blank_cons hfirst.1, ih hfirst.2]

theorem words_intercalate {parts : List (List Char)}
    (hparts : ∀ part ∈ parts, part ≠ [] ∧ ∀ c ∈ part, isBlank c = false) :
    words (List.intercalate [' '] parts) = parts := by
  induction parts with
  | nil => rfl
  | cons part parts ih =>
    obtain ⟨hpart, hrest⟩ := List.forall_mem_cons.1 hparts
    have hfirst := words_eq_singleton hpart.1 hpart.2
    cases parts with
    | nil => rw [List.intercalate_singleton, hfirst]
    | cons second parts =>
      rw [List.intercalate_cons_cons, List.append_assoc, List.singleton_append,
        words_append_blank (by decide), hfirst, ih hrest, List.singleton_append]

/-- A word is a part of the text without blanks. -/
theorem of_mem_words (hword : word ∈ words text) :
    word ≠ [] ∧ (∀ c ∈ word, isBlank c = false) ∧ word <:+: text := by
  obtain ⟨hpiece, hne⟩ := List.mem_filter.1 hword
  exact ⟨by simpa using hne, fun c hc ↦ isCut_of_mem_pieces hpiece hc, infix_of_mem_pieces hpiece⟩

/-! ## Arrows -/

/-- The text has an arrow in it. -/
def HasArrow (text : List Char) : Prop := ['-', '>'] <:+: text

theorem not_hasArrow_nil : ¬ HasArrow [] := by
  rw [HasArrow, List.infix_nil]
  exact List.cons_ne_nil _ _

theorem hasArrow_cons_cons (rest : List Char) : HasArrow ('-' :: '>' :: rest) :=
  (List.prefix_append ['-', '>'] rest).isInfix

theorem HasArrow.mono {part : List Char} (harrow : HasArrow part) (hpart : part <:+: text) :
    HasArrow text :=
  List.IsInfix.trans harrow hpart

/-- An arrow that does not begin with the first character stands behind it. -/
theorem HasArrow.of_cons (harrow : HasArrow (c :: text))
    (hno : ∀ others, c = '-' → text = '>' :: others → False) : HasArrow text := by
  rcases List.infix_cons_iff.1 harrow with hprefix | hlater
  · obtain ⟨hc, others, htext⟩ := List.cons_prefix_cons.1 hprefix
    exact absurd htext.symm (hno others hc.symm)
  · exact hlater

/-- A character that is no part of an arrow parts the text for arrows. -/
theorem hasArrow_append_cons_iff (hc : c ∉ ['-', '>']) :
    HasArrow (first ++ c :: rest) ↔ HasArrow first ∨ HasArrow rest := by
  have hhead : ∀ d ∈ ['-', '>'], ∀ others, ¬ d :: others <+: c :: rest := by
    intro d hd others hprefix
    obtain rfl := (List.cons_prefix_cons.1 hprefix).1
    exact hc hd
  constructor
  · intro harrow
    rcases List.infix_append_iff.1 harrow with hfirst | hrest | ⟨front, back, hsplit, hfront, hback⟩
    · exact .inl hfirst
    · rcases List.infix_cons_iff.1 hrest with hprefix | hrest
      · exact absurd hprefix (hhead '-' (by decide) _)
      · exact .inr hrest
    · -- What an arrow has behind the first text begins with the character.
      cases back with
      | nil =>
        rw [List.append_nil] at hsplit
        rw [← hsplit] at hfront
        exact .inl hfront.isInfix
      | cons d others =>
        have hd : d ∈ ['-', '>'] := hsplit ▸ List.mem_append_right front List.mem_cons_self
        exact absurd hback (hhead d hd others)
  · intro harrow
    rcases harrow with hfirst | hrest
    · exact hfirst.mono (List.prefix_append first _).isInfix
    · exact hrest.mono (List.infix_cons (List.infix_refl rest) |>.trans
        (List.suffix_append first _).isInfix)

theorem hasArrow_cons_iff (hc : c ∉ ['-', '>']) : HasArrow (c :: rest) ↔ HasArrow rest := by
  have hsplit : HasArrow ([] ++ c :: rest) ↔ HasArrow [] ∨ HasArrow rest :=
    hasArrow_append_cons_iff hc
  exact hsplit.trans (or_iff_right not_hasArrow_nil)

/-- Parts without arrows, put together by spaces, make no arrow. -/
theorem not_hasArrow_intercalate {parts : List (List Char)}
    (hparts : ∀ part ∈ parts, ¬ HasArrow part) : ¬ HasArrow (List.intercalate [' '] parts) := by
  induction parts with
  | nil => exact not_hasArrow_nil
  | cons part parts ih =>
    obtain ⟨hpart, hrest⟩ := List.forall_mem_cons.1 hparts
    cases parts with
    | nil => rwa [List.intercalate_singleton]
    | cons second parts =>
      rw [List.intercalate_cons_cons, List.append_assoc, List.singleton_append,
        hasArrow_append_cons_iff (by decide), not_or]
      exact ⟨hpart, ih hrest⟩

/-- The text is cut at its first arrow. -/
theorem cutArrow?_append {before : List Char} (hbefore : ¬ HasArrow before) (after : List Char) :
    cutArrow? (before ++ '-' :: '>' :: after) = some (before, after) := by
  induction before with
  | nil => rfl
  | cons c before ih =>
    have hrest : ¬ HasArrow before := fun harrow ↦ hbefore (List.infix_cons harrow)
    -- An arrow at the front would lie within `before`, which begins with its second character.
    have hno : ∀ others, c = '-' → before ++ '-' :: '>' :: after = '>' :: others → False := by
      intro others hc hsame
      subst hc
      cases before with
      | nil => simp at hsame
      | cons d before =>
        obtain ⟨rfl, -⟩ := List.cons.inj hsame
        exact hbefore (hasArrow_cons_cons before)
    rw [List.cons_append, cutArrow?]
    · rw [ih hrest]
      rfl
    · exact hno

theorem of_cutArrow?_eq_some {before after : List Char}
    (hcut : cutArrow? text = some (before, after)) :
    text = before ++ '-' :: '>' :: after ∧ ¬ HasArrow before := by
  fun_induction cutArrow? text generalizing before with
  | case1 => exact absurd hcut (by simp)
  | case2 text =>
    obtain ⟨rfl, rfl⟩ : [] = before ∧ text = after := by simpa using hcut
    exact ⟨rfl, not_hasArrow_nil⟩
  | case3 c text hno ih =>
    obtain ⟨⟨front, back⟩, hfront, hsame⟩ := Option.map_eq_some_iff.1 hcut
    obtain ⟨rfl, rfl⟩ := Prod.mk.inj hsame
    obtain ⟨rfl, hfree⟩ := ih hfront
    refine ⟨rfl, fun harrow ↦ hfree (harrow.of_cons fun others hc hsplit ↦ ?_)⟩
    exact hno (others ++ '-' :: '>' :: back) hc (by rw [hsplit, List.cons_append])

theorem cutArrow?_eq_none_iff : cutArrow? text = none ↔ ¬ HasArrow text := by
  constructor
  · intro hnone
    fun_induction cutArrow? text with
    | case1 => exact not_hasArrow_nil
    | case2 text => exact absurd hnone (Option.some_ne_none _)
    | case3 c text hno ih =>
      exact fun harrow ↦ ih (Option.map_eq_none_iff.1 hnone) (harrow.of_cons hno)
  · intro hfree
    cases hcut : cutArrow? text with
    | none => rfl
    | some parts =>
      obtain ⟨rfl, -⟩ := of_cutArrow?_eq_some hcut
      exact absurd ((hasArrow_cons_cons parts.2).mono (List.suffix_append _ _).isInfix) hfree

end ContextFree.Text
