import ContextFree.Json.Reader
import ContextFree.Json.Writer

/-!
# Reading back a written document

Each part of the reader takes the value that the corresponding part of the writer has written off
the front of a text, whatever comes behind.  The lengths of the written parts bound the steps that
reading them takes, so the length of the whole text is enough for every part.

Between quotation marks the two are inverse character by character: what the writer escapes by a
letter the reader finds by that letter, and what it escapes by its code the reader finds by the
code.
-/

namespace ContextFree.Json

/-! ## Strings -/

theorem unescape?_of_escapeLetter? {c letter : Char} (hletter : escapeLetter? c = some letter) :
    unescape? letter = some c ∧ letter ≠ 'u' := by
  unfold escapeLetter? at hletter
  split at hletter
  all_goals first
    | (obtain rfl := Option.some.inj hletter; decide)
    | exact absurd hletter (by simp)

theorem hexDigit?_hexDigit : ∀ n < 16, hexDigit? (hexDigit n) = some n := by
  decide

/-- The code that an escaped control character is written with is its own. -/
theorem readCode_hexDigits {c : Char} (hc : c.toNat < 0x20) (text : List Char) :
    readCode ('0' :: '0' :: hexDigit (c.toNat / 16) :: hexDigit (c.toNat % 16) :: text) =
      .ok (c, text) := by
  have hzero : hexDigit? '0' = some 0 := by decide
  have hhigh := hexDigit?_hexDigit (c.toNat / 16) (by omega)
  have hlow := hexDigit?_hexDigit (c.toNat % 16) (by omega)
  have hunit : readUnit ('0' :: '0' :: hexDigit (c.toNat / 16) :: hexDigit (c.toNat % 16) :: text) =
      .ok (c.toNat, text) := by
    have hcode : c.toNat / 16 * 16 + c.toNat % 16 = c.toNat := by omega
    simp [readUnit, hzero, hhigh, hlow, hcode]
  have hlowSurrogate : isLowSurrogate c.toNat = false := by
    simp only [isLowSurrogate, Bool.and_eq_false_imp, decide_eq_true_eq]
    omega
  have hhighSurrogate : isHighSurrogate c.toNat = false := by
    simp only [isHighSurrogate, Bool.and_eq_false_imp, decide_eq_true_eq]
    omega
  simp [readCode, hunit, hlowSurrogate, hhighSurrogate, bind, Except.bind, Char.ofNat_toNat]

/-- One step reads one character, escaped or not. -/
theorem readString_escape {steps : Nat} {c : Char} {text cs rest : List Char}
    (hrest : readString steps text = .ok (cs, rest)) :
    readString (steps + 1) (escape c ++ text) = .ok (c :: cs, rest) := by
  unfold escape
  split
  · next letter hletter =>
    obtain ⟨hunescape, hu⟩ := unescape?_of_escapeLetter? hletter
    have hescape : readEscape (letter :: text) = .ok (c, text) := by
      simp [readEscape, hunescape]
    simp [readString, hescape, hrest, bind, Except.bind, pure, Except.pure]
  · next hnone =>
    split
    · next hcontrol =>
      have hescape : readEscape ('u' :: '0' :: '0' :: hexDigit (c.toNat / 16) ::
          hexDigit (c.toNat % 16) :: text) = .ok (c, text) := readCode_hexDigits hcontrol text
      simp [readString, hescape, hrest, bind, Except.bind, pure, Except.pure]
    · next hplain =>
      have hquote : c ≠ '"' := fun hsame ↦ absurd (hsame ▸ hnone) (by decide)
      have hbackslash : c ≠ '\\' := fun hsame ↦ absurd (hsame ▸ hnone) (by decide)
      simp [readString, hplain, hrest, bind, Except.bind, pure, Except.pure]

theorem readString_flatMap_escape {steps : Nat} {cs : List Char} (hsteps : cs.length < steps)
    (rest : List Char) : readString steps (cs.flatMap escape ++ '"' :: rest) = .ok (cs, rest) := by
  induction cs generalizing steps with
  | nil =>
    obtain ⟨steps, rfl⟩ := Nat.exists_eq_add_one_of_ne_zero (Nat.ne_zero_of_lt hsteps)
    rfl
  | cons c cs ih =>
    obtain ⟨steps, rfl⟩ := Nat.exists_eq_add_one_of_ne_zero (Nat.ne_zero_of_lt hsteps)
    rw [List.flatMap_cons, List.append_assoc]
    exact readString_escape (ih (Nat.lt_of_succ_lt_succ hsteps))

theorem length_le_length_flatMap_escape (cs : List Char) :
    cs.length ≤ (cs.flatMap escape).length := by
  induction cs with
  | nil => exact Nat.le_refl 0
  | cons c cs ih =>
    have hpositive : 0 < (escape c).length := by
      unfold escape
      split
      · exact Nat.zero_lt_succ _
      · split <;> exact Nat.zero_lt_succ _
    rw [List.flatMap_cons, List.length_append, List.length_cons]
    omega

/-! ## Values -/

/-- The characters that a written value or member starts with. -/
def openings : List Char := ['"', '[', '\x7b']

/-- The reader takes the value off the front of every text that goes on behind it, and the value
starts with a character that a reader of items does not skip. -/
structure ReadsBack {α : Type} (reader : Reader α) (written : List Char) (a : α) : Prop where
  opens : ∃ c ∈ openings, ∃ text, written = c :: text
  takes : ∀ rest, reader (written ++ rest) = .ok (a, rest)

/-- A character with a place between values is no blank. -/
theorem skipBlanks_cons {c : Char} (hc : c ∈ [',', ':', ']', '\x7d'] ++ openings)
    (text : List Char) : skipBlanks (c :: text) = c :: text := by
  have hplaces : ([',', ':', ']', '\x7d'] ++ openings).all
      (fun c ↦ !(c == ' ' || c == '\t' || c == '\n' || c == '\r')) = true := by decide
  have hblank := List.all_eq_true.1 hplaces c hc
  rw [skipBlanks, List.dropWhile_cons_of_neg (by simpa using hblank)]

variable {α : Type} {reader : Reader α} {written : List Char} {a : α} {steps : Nat}

/-! ## Lists and maps -/

variable {brackets : Brackets}

/-- The two kinds of brackets.  A closing bracket opens no value and separates none. -/
theorem closing_cases (hbrackets : brackets = listBrackets ∨ brackets = mapBrackets) :
    brackets.closing ∉ ',' :: openings ∧
      brackets.closing ∈ [',', ':', ']', '\x7d'] ++ openings := by
  rcases hbrackets with rfl | rfl <;> decide

/-- Written items start with the first one. -/
theorem exists_opening_intercalate {write : α → List Char}
    (hfirst : ReadsBack reader (write a) a) (values : List α) (rest : List Char) :
    ∃ c ∈ openings, ∃ text,
      List.intercalate [','] ((a :: values).map write) ++ rest = c :: text := by
  obtain ⟨c, hc, text, htext⟩ := hfirst.opens
  cases values <;> simp [htext, hc]

/-- Items are read up to the closing bracket if there are steps enough for all of them. -/
theorem readItems_intercalate (hbrackets : brackets = listBrackets ∨ brackets = mapBrackets)
    {write : α → List Char} {values : List α} (hne : values ≠ [])
    (hitems : ∀ a ∈ values, ReadsBack reader (write a) a) (hsteps : values.length ≤ steps)
    (rest : List Char) :
    readItems brackets reader steps
      (List.intercalate [','] (values.map write) ++ brackets.closing :: rest) =
        .ok (values, rest) := by
  obtain ⟨hopening, hplace⟩ := closing_cases hbrackets
  rw [List.mem_cons, not_or] at hopening
  induction values generalizing steps with
  | nil => exact absurd rfl hne
  | cons a values ih =>
    obtain ⟨steps, rfl⟩ := Nat.exists_eq_add_one_of_ne_zero (Nat.ne_zero_of_lt hsteps)
    have hfirst := (hitems a List.mem_cons_self).takes
    cases values with
    | nil =>
      rw [List.map_singleton, List.intercalate_singleton]
      simp [readItems, hfirst, skipBlanks_cons hplace, bind, Except.bind, pure, Except.pure]
    | cons b values =>
      -- Behind a comma the reader looks for a closing bracket first, and no value starts with one.
      have hlater := ih (List.cons_ne_nil b values)
        (fun x hx ↦ hitems x (List.mem_cons_of_mem a hx)) (Nat.le_of_succ_le_succ hsteps)
      obtain ⟨c, hc, text, hwritten⟩ := exists_opening_intercalate
        (hitems b (List.mem_cons_of_mem a List.mem_cons_self)) values (brackets.closing :: rest)
      rw [hwritten] at hlater
      have hcomma : skipBlanks (',' :: c :: text) = ',' :: c :: text :=
        skipBlanks_cons (by decide) _
      have hnext : skipBlanks (c :: text) = c :: text :=
        skipBlanks_cons (List.mem_append_right _ hc) text
      have hne : c ≠ brackets.closing := fun hsame ↦ hopening.2 (hsame ▸ hc)
      rw [List.map_cons, List.map_cons, List.intercalate_cons_cons, ← List.map_cons (f := write),
        List.append_assoc, List.append_assoc, hwritten]
      simp [readItems, hfirst, hcomma, Ne.symm hopening.1, hnext, hne, hlater, bind, Except.bind,
        pure, Except.pure]

theorem bracketed_intercalate (hbrackets : brackets = listBrackets ∨ brackets = mapBrackets)
    {write : α → List Char} {values : List α}
    (hitems : ∀ a ∈ values, ReadsBack reader (write a) a) (hsteps : values.length ≤ steps)
    (rest : List Char) :
    bracketed steps brackets reader
      (List.intercalate [','] (values.map write) ++ brackets.closing :: rest) =
        .ok (values, rest) := by
  obtain ⟨hopening, hplace⟩ := closing_cases hbrackets
  cases values with
  | nil =>
    have hempty : List.intercalate [','] (([] : List α).map write) = [] := rfl
    rw [hempty, List.nil_append, bracketed, skipBlanks_cons hplace]
    simp
  | cons a values =>
    have hall := readItems_intercalate hbrackets (List.cons_ne_nil a values) hitems hsteps rest
    obtain ⟨c, hc, text, hwritten⟩ := exists_opening_intercalate (hitems a List.mem_cons_self)
      values (brackets.closing :: rest)
    have hne : c ≠ brackets.closing := fun hsame ↦
      hopening (List.mem_cons_of_mem _ (hsame ▸ hc))
    rw [hwritten] at hall ⊢
    rw [bracketed, skipBlanks_cons (List.mem_append_right _ hc)]
    simp [hne, hall]

/-! ## Documents -/

theorem length_le_length_intercalate (items : List (List Char)) :
    items.length ≤ (List.intercalate [','] items).length + 1 := by
  induction items with
  | nil => exact Nat.zero_le _
  | cons item items ih =>
    cases items with
    | nil => exact Nat.succ_le_succ (Nat.zero_le _)
    | cons second items =>
      rw [List.intercalate_cons_cons, List.length_append, List.length_append, List.length_cons,
        List.length_singleton]
      omega

theorem length_le_length_intercalate_of_mem {items : List (List Char)} {item : List Char}
    (hitem : item ∈ items) : item.length ≤ (List.intercalate [','] items).length := by
  induction items with
  | nil => exact absurd hitem List.not_mem_nil
  | cons first items ih =>
    cases items with
    | nil =>
      have hsame : List.intercalate [','] [first] = item := by
        rw [List.mem_singleton.1 hitem, List.intercalate_singleton]
      exact Nat.le_of_eq (congrArg List.length hsame.symm)
    | cons second items =>
      rw [List.intercalate_cons_cons, List.length_append, List.length_append]
      rcases List.mem_cons.1 hitem with rfl | hlater
      · omega
      · have := ih hlater
        omega

theorem length_writeMember (name : Name) (value : List Char) :
    (writeMember name value).length = (writeString name).length + value.length + 1 := by
  simp [writeMember, Nat.add_assoc]

/-- The steps that suffice for a written string suffice for its characters. -/
theorem length_lt_of_length_writeString_le {name : Name}
    (hsteps : (writeString name).length ≤ steps) : name.toList.length < steps := by
  have hescaped := length_le_length_flatMap_escape name.toList
  simp only [writeString, List.cons_append, List.length_cons, List.length_append,
    List.length_nil] at hsteps
  omega

theorem readsBack_writeString {name : Name} (hsteps : (writeString name).length ≤ steps) :
    ReadsBack (stringValue steps) (writeString name) name := by
  refine ⟨⟨'"', by decide, _, rfl⟩, fun rest ↦ ?_⟩
  have hstring := readString_flatMap_escape (length_lt_of_length_writeString_le hsteps) rest
  have hopening : ∀ text, skipBlanks ('"' :: text) = '"' :: text := skipBlanks_cons (by decide)
  simp [stringValue, writeString, hopening, hstring, bind, Except.bind, pure, Except.pure]

/-- The steps for a list suffice for each item and for their number. -/
theorem steps_of_length_intercalate_le {write : α → List Char} {values : List α}
    (hsteps : (List.intercalate [','] (values.map write)).length + 2 ≤ steps) :
    values.length ≤ steps ∧ ∀ a ∈ values, (write a).length ≤ steps := by
  have hcount := length_le_length_intercalate (values.map write)
  rw [List.length_map] at hcount
  refine ⟨by omega, fun a ha ↦ ?_⟩
  have hitem := length_le_length_intercalate_of_mem (List.mem_map_of_mem (f := write) ha)
  omega

theorem readsBack_writeList {write : α → List Char} {values : List α}
    (hitems : ∀ a ∈ values, (write a).length ≤ steps → ReadsBack reader (write a) a)
    (hsteps : (writeList (values.map write)).length ≤ steps) :
    ReadsBack (listValue steps reader) (writeList (values.map write)) values := by
  have hlength : (List.intercalate [','] (values.map write)).length + 2 ≤ steps := by
    simp only [writeList, List.cons_append, List.length_cons, List.length_append,
      List.length_nil] at hsteps
    omega
  obtain ⟨hcount, hitem⟩ := steps_of_length_intercalate_le hlength
  refine ⟨⟨'[', by decide, _, rfl⟩, fun rest ↦ ?_⟩
  have hlist := bracketed_intercalate (.inl rfl) (fun a ha ↦ hitems a ha (hitem a ha)) hcount rest
  have hopening : ∀ text, skipBlanks ('[' :: text) = '[' :: text := skipBlanks_cons (by decide)
  simp only [listValue, writeList, List.cons_append, List.append_assoc, hopening]
  exact hlist

theorem readsBack_writeMember {name : Name} (hvalue : ReadsBack reader written a)
    (hsteps : (writeString name).length ≤ steps) :
    ReadsBack (member steps reader) (writeMember name written) (name, a) := by
  refine ⟨⟨'"', by decide, _, rfl⟩, fun rest ↦ ?_⟩
  have hstring := readString_flatMap_escape (length_lt_of_length_writeString_le hsteps)
    (':' :: (written ++ rest))
  have hcolon : ∀ text, skipBlanks (':' :: text) = ':' :: text := skipBlanks_cons (by decide)
  simp [member, writeMember, writeString, hstring, hcolon, hvalue.takes, bind, Except.bind, pure,
    Except.pure]

theorem mapValue_writeMap {write : Name × α → List Char} {values : List (Name × α)}
    (hitems : ∀ entry ∈ values, (write entry).length ≤ steps →
      ReadsBack (member steps reader) (write entry) entry)
    (hsteps : (writeMap (values.map write)).length ≤ steps) (rest : List Char) :
    mapValue steps reader (writeMap (values.map write) ++ rest) = .ok (values, rest) := by
  have hlength : (List.intercalate [','] (values.map write)).length + 2 ≤ steps := by
    simp only [writeMap, List.cons_append, List.length_cons, List.length_append,
      List.length_nil] at hsteps
    omega
  obtain ⟨hcount, hitem⟩ := steps_of_length_intercalate_le hlength
  have hmap := bracketed_intercalate (.inr rfl) (fun entry hentry ↦
    hitems entry hentry (hitem entry hentry)) hcount rest
  have hopening : ∀ text, skipBlanks ('\x7b' :: text) = '\x7b' :: text :=
    skipBlanks_cons (by decide)
  simp only [mapValue, writeMap, List.cons_append, List.append_assoc, hopening]
  exact hmap

theorem readsBack_lists {lists : List (List Name)}
    (hsteps : (writeList (lists.map fun list ↦ writeList (list.map writeString))).length ≤ steps) :
    ReadsBack (listValue steps (listValue steps (stringValue steps)))
      (writeList (lists.map fun list ↦ writeList (list.map writeString))) lists := by
  apply readsBack_writeList _ hsteps
  intro list _ hlist
  apply readsBack_writeList _ hlist
  intro name _ hname
  exact readsBack_writeString hname

/-- Every document is read back as it was written, whatever its names are. -/
theorem read_write (document : Document) : read (write document) = .ok document := by
  obtain ⟨steps, hsteps⟩ : ∃ steps, steps = (write document).length + 1 := ⟨_, rfl⟩
  have hmap : mapValue steps (listValue steps (listValue steps (stringValue steps)))
      (write document ++ []) = .ok (document, []) := by
    apply mapValue_writeMap _ (hsteps ▸ Nat.le_succ _)
    intro entry _ hentry
    rw [length_writeMember] at hentry
    exact readsBack_writeMember (readsBack_lists (by omega)) (by omega)
  rw [List.append_nil] at hmap
  simp [read, ← hsteps, hmap, skipBlanks, bind, Except.bind, pure, Except.pure]

end ContextFree.Json
