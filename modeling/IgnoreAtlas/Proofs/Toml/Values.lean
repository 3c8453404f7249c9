import IgnoreAtlas.Proofs.Toml.Strings
import IgnoreAtlas.Toml.Reader

/-!
# Values that are written are read

What is written for a value *spells* it: in front of a line end it is read as that value, and
nothing of the line end with it (`Spells`). Texts, truth values, numbers without a sign and lists of
texts are spelled by what is written for them; a list takes a line for each text as soon as there are
two.
-/

namespace IgnoreAtlas.Toml

variable {rest behind word : List Char} {fuel depth n : Nat} {c : Char}

/-- The value is read from what is written, in front of a line end. -/
structure Spells (written : List Char) (value : Toml) : Prop where
  front : ∀ rest, skipBlanks (written ++ rest) = written ++ rest
  read : ∀ rest, value? (written ++ '\n' :: rest) = some (value, '\n' :: rest)

/-! ## Texts -/

/-- A text that is written begins with a quote. -/
theorem exists_quoteChars_eq (text : List Char) :
    ∃ more, quoteChars text = '"' :: more ∨ quoteChars text = '\'' :: more := by
  unfold quoteChars
  cases quotingOf text with
  | basic => exact ⟨_, .inl rfl⟩
  | literal => exact ⟨_, .inr rfl⟩
  | longBasic => exact ⟨_, .inl rfl⟩
  | longLiteral => exact ⟨_, .inr rfl⟩

/-- A text is read as a value at any depth. -/
theorem readValue_quoteChars (fuel depth : Nat) (text : List Char) (hbasic : c ≠ '"')
    (hliteral : c ≠ '\'') (rest : List Char) :
    readValue (fuel + 1) depth (quoteChars text ++ c :: rest) =
      some (.text (String.ofList text), c :: rest) := by
  have hread : readString (quoteChars text ++ c :: rest) = some (text, c :: rest) :=
    readString_quoteChars text (by simpa using hbasic) (by simpa using hliteral)
  obtain ⟨more, heq | heq⟩ := exists_quoteChars_eq text
  · rw [heq, List.cons_append] at hread ⊢
    rw [readValue, hread]
    rfl
  · rw [heq, List.cons_append] at hread ⊢
    rw [readValue, hread]
    rfl

theorem skipBlanks_quoteChars (text rest : List Char) :
    skipBlanks (quoteChars text ++ rest) = quoteChars text ++ rest := by
  obtain ⟨more, heq | heq⟩ := exists_quoteChars_eq text <;> rw [heq] <;> rfl

/-- Where a value or a mark begins there is nothing to pass over. -/
theorem skipLines_cons (hline : c ≠ '\n') (hreturn : c ≠ '\r') (hblank : isBlank c = false)
    (hcomment : c ≠ '#') (rest : List Char) : skipLines false (c :: rest) = some (c :: rest) := by
  rw [skipLines.eq_def]
  simp [hline, hreturn, hblank, hcomment]

/-- Between the items of a list and behind them nothing is passed over. -/
theorem skipLines_mark (h : c = ',' ∨ c = ']') (rest : List Char) :
    skipLines false (c :: rest) = some (c :: rest) := by
  rcases h with rfl | rfl <;>
    exact skipLines_cons (by decide) (by decide) (by decide) (by decide) rest

/-- Line ends and blanks are passed over. -/
theorem skipLines_pass (h : c = '\n' ∨ c = ' ') (rest : List Char) :
    skipLines false (c :: rest) = skipLines false rest := by
  rw [skipLines.eq_def]
  rcases h with rfl | rfl <;> simp [isBlank]

theorem skipLines_quoteChars (text rest : List Char) :
    skipLines false (quoteChars text ++ rest) = some (quoteChars text ++ rest) := by
  obtain ⟨more, heq | heq⟩ := exists_quoteChars_eq text <;> rw [heq] <;>
    exact skipLines_cons (by decide) (by decide) (by decide) (by decide) _

theorem spells_quote (text : String) : Spells (quote text).toList (.text text) where
  front := by simp [quote, skipBlanks_quoteChars]
  read rest := by
    rw [quote, String.toList_ofList, value?, readValue_quoteChars _ _ _ (by decide) (by decide),
      String.ofList_toList]

/-! ## Lists of texts -/

/-- The lines of a list, each with one text. -/
def rows (texts : List String) : List Char :=
  texts.flatMap fun text => [' ', ' ', ' ', ' '] ++ quoteChars text.toList ++ [',', '\n']

/-- There are no more pieces than characters, if no piece is empty. -/
theorem length_le_length_flatMap {α : Type} {chars : α → List Char} (h : ∀ piece, chars piece ≠ [])
    (pieces : List α) : pieces.length ≤ (pieces.flatMap chars).length := by
  induction pieces with
  | nil => exact Nat.le_refl _
  | cons piece pieces ih =>
    have hpiece := List.length_pos_iff.mpr (h piece)
    rw [List.flatMap_cons, List.length_append, List.length_cons]
    omega

theorem length_le_length_rows (texts : List String) : texts.length ≤ (rows texts).length :=
  length_le_length_flatMap (fun _ => by simp) texts

theorem toList_join_rows (texts : List String) :
    (String.join ((texts.map quote).map fun item => "    " ++ item ++ ",\n")).toList =
      rows texts := by
  simp [rows, quote, List.flatMap_map, Function.comp_def]

/-- An item that is followed by the end is the last one. -/
theorem readItems_last (text : List Char) (rest : List Char) :
    readItems (fuel + 2) depth (quoteChars text ++ ']' :: rest) =
      some ([.text (String.ofList text)], rest) := by
  have hvalue : readValue (fuel + 1) depth (quoteChars text ++ ']' :: rest) = _ :=
    readValue_quoteChars fuel depth text (by decide) (by decide) rest
  obtain ⟨more, heq | heq⟩ := exists_quoteChars_eq text <;>
    rw [heq, List.cons_append] at hvalue ⊢ <;> rw [readItems] <;> simp [hvalue, skipLines_mark]

/-- An item that is followed by a comma is followed by others, or by the end. -/
theorem readItems_next (text : List Char) {items : List Toml}
    (h : (skipLines false behind).bind (readItems (fuel + 1) depth) = some (items, rest)) :
    readItems (fuel + 2) depth (quoteChars text ++ ',' :: behind) =
      some (.text (String.ofList text) :: items, rest) := by
  obtain ⟨next, hnext, hitems⟩ := Option.bind_eq_some_iff.mp h
  have hvalue : readValue (fuel + 1) depth (quoteChars text ++ ',' :: behind) = _ :=
    readValue_quoteChars fuel depth text (by decide) (by decide) behind
  obtain ⟨more, heq | heq⟩ := exists_quoteChars_eq text <;>
    rw [heq, List.cons_append] at hvalue ⊢ <;> rw [readItems] <;>
    simp [hvalue, skipLines_mark, hnext, hitems]

/-- The lines of a list are read text by text, behind a line end that is passed over. -/
theorem readItems_rows (texts : List String) (hfuel : texts.length < fuel) (rest : List Char) :
    (skipLines false ('\n' :: rows texts ++ ']' :: rest)).bind (readItems fuel depth) =
      some (texts.map .text, rest) := by
  induction texts generalizing fuel with
  | nil =>
    obtain ⟨fuel, rfl⟩ := Nat.exists_eq_add_of_lt hfuel
    simp [rows, skipLines_pass, skipLines_mark, readItems]
  | cons text texts ih =>
    obtain ⟨fuel, rfl⟩ : ∃ more, fuel = more + 2 := ⟨fuel - 2, by simp at hfuel; omega⟩
    have hrow : skipLines false ('\n' :: rows (text :: texts) ++ ']' :: rest) =
        some (quoteChars text.toList ++ ',' :: ('\n' :: rows texts ++ ']' :: rest)) := by
      have hskip := skipLines_quoteChars text.toList (',' :: '\n' :: rows texts ++ ']' :: rest)
      simp only [rows, List.flatMap_cons, List.cons_append, List.nil_append,
        List.append_assoc] at hskip ⊢
      simp only [skipLines_pass (.inl rfl), skipLines_pass (.inr rfl), hskip]
    rw [hrow, Option.bind_some, readItems_next text.toList (ih (by simp at hfuel; omega)),
      String.ofList_toList, List.map_cons]

/-- A list is read as a value, if there is fuel for each of its texts. -/
theorem readValue_arrayText (texts : List String) (hfuel : texts.length + 1 < fuel)
    (hdepth : depth + 1 < depthLimit) (rest : List Char) :
    readValue (fuel + 1) depth ((arrayText (texts.map quote)).toList ++ rest) =
      some (.array (texts.map .text), rest) := by
  have hopen (inner : List Char) {items : List Toml}
      (h : (skipLines false inner).bind (readItems fuel (depth + 1)) = some (items, rest)) :
      readValue (fuel + 1) depth ('[' :: inner) = some (.array items, rest) := by
    obtain ⟨next, hnext, hitems⟩ := Option.bind_eq_some_iff.mp h
    rw [readValue, if_neg (Nat.not_le.mpr hdepth)]
    simp [hnext, hitems]
  match texts with
  | [] =>
    obtain ⟨fuel, rfl⟩ := Nat.exists_eq_add_of_lt hfuel
    exact hopen (']' :: rest) (by simp [skipLines_mark, readItems])
  | [one] =>
    obtain ⟨fuel, rfl⟩ : ∃ more, fuel = more + 2 := ⟨fuel - 2, by simp at hfuel; omega⟩
    have hitems := hopen (quoteChars one.toList ++ ']' :: rest) <| by
      rw [skipLines_quoteChars, Option.bind_some, readItems_last, String.ofList_toList]
    simpa [arrayText, quote] using hitems
  | first :: second :: more =>
    have hitems := hopen _ (readItems_rows (first :: second :: more) (by omega) rest)
    have hwritten : (arrayText ((first :: second :: more).map quote)).toList =
        '[' :: '\n' :: rows (first :: second :: more) ++ [']'] := by
      rw [← toList_join_rows]
      simp [arrayText]
    rw [hwritten]
    simpa using hitems

theorem length_lt_length_arrayText (texts : List String) :
    texts.length < (arrayText (texts.map quote)).toList.length := by
  match texts with
  | [] => decide
  | [one] => simp [arrayText]
  | first :: second :: more =>
    have hrows := length_le_length_rows (first :: second :: more)
    rw [← toList_join_rows] at hrows
    simp [arrayText] at hrows ⊢
    omega

theorem spells_arrayText (texts : List String) :
    Spells (arrayText (texts.map quote)).toList (.array (texts.map .text)) where
  front rest := by
    match texts with
    | [] => rfl
    | [one] => simp [arrayText, skipBlanks, isBlank]
    | first :: second :: more => simp [arrayText, skipBlanks, isBlank]
  read rest := by
    have hlength := length_lt_length_arrayText texts
    exact readValue_arrayText texts (by simp; omega) (by decide) ('\n' :: rest)

/-! ## Words -/

/-- Characters of one kind are taken up to the first that is of another. -/
theorem takeWhile_append_stop {kind : Char → Bool} {stop : Char} (hword : word.all kind)
    (hstop : kind stop = false) (rest : List Char) :
    (word ++ stop :: rest).takeWhile kind = word := by
  rw [List.takeWhile_append_of_pos (List.all_eq_true.mp hword), List.takeWhile_cons, hstop]
  simp

theorem dropWhile_append_stop {kind : Char → Bool} {stop : Char} (hword : word.all kind)
    (hstop : kind stop = false) (rest : List Char) :
    (word ++ stop :: rest).dropWhile kind = stop :: rest := by
  rw [List.dropWhile_append_of_pos (List.all_eq_true.mp hword), List.dropWhile_cons, hstop]
  simp

/-- A word is read up to a line end. -/
theorem readWord_append (hword : word.all isWordChar) (hdate : afterDate? word ≠ some [])
    (rest : List Char) : readWord (word ++ '\n' :: rest) = (word? word).map (·, '\n' :: rest) := by
  have hstop : isWordChar '\n' = false := by decide
  simp only [readWord, takeWhile_append_stop hword hstop, dropWhile_append_stop hword hstop]
  rw [if_neg fun h => hdate h.1]

/-- What begins with a character of a word is read as one. -/
theorem readValue_cons (hc : isWordChar c) (rest : List Char) :
    readValue (fuel + 1) depth (c :: rest) = readWord (c :: rest) := by
  rw [readValue.eq_def]
  simp only
  split <;> first | rfl | (next heq => obtain ⟨rfl, -⟩ := List.cons.inj heq; cases hc)

/-- A word spells what it means, if it is no date. -/
theorem spells_word {value : Toml} (hword : word.all isWordChar) (hne : word ≠ [])
    (hdate : afterDate? word ≠ some []) (hvalue : word? word = some value) :
    Spells word value := by
  obtain ⟨c, more, rfl⟩ := List.exists_cons_of_ne_nil hne
  have hc := List.all_eq_true.mp hword c List.mem_cons_self
  constructor
  · intro rest
    have hblank : isBlank c = false := by
      rw [isBlank, Bool.or_eq_false_iff, decide_eq_false_iff_not, decide_eq_false_iff_not]
      constructor <;> rintro rfl <;> cases hc
    simp [skipBlanks, hblank]
  · intro rest
    have hread := readWord_append hword hdate rest
    rw [hvalue] at hread
    rw [value?, List.cons_append, readValue_cons hc]
    exact hread

theorem spells_truthText (value : Bool) : Spells (truthText value).toList (.truth value) := by
  cases value
  · exact spells_word (by decide) (by decide) (by decide) rfl
  · exact spells_word (by decide) (by decide) (by decide) rfl

/-! ## Numbers -/

theorem isDigit_of_mem_toDigits {c : Char} (h : c ∈ Nat.toDigits 10 n) : c.isDigit :=
  Nat.isDigit_of_mem_toDigits (by decide) (by decide) h

/-- Digits have the value of the number that they are written for. -/
theorem rowValue_toDigits (n : Nat) : rowValue 10 (Nat.toDigits 10 n) = n := by
  induction n using Nat.strongRecOn with
  | _ n ih =>
    have hdigit : ∀ d < 10, (digit16? d.digitChar).getD 0 = d := by decide
    rw [Nat.toDigits_eq_if (by decide)]
    split
    · next hsmall => simp [rowValue, hdigit n hsmall]
    · next hlarge =>
      have hfront := ih (n / 10) (by omega)
      rw [rowValue] at hfront ⊢
      rw [List.foldl_append, hfront, List.foldl_cons, List.foldl_nil, hdigit _ (by omega)]
      omega

/-- Nothing but the number zero is written with a zero in front. -/
theorem head?_toDigits (h : n ≠ 0) : (Nat.toDigits 10 n).head? ≠ some '0' := by
  induction n using Nat.strongRecOn with
  | _ n ih =>
    rw [Nat.toDigits_eq_if (by decide)]
    split
    · next hsmall =>
      have hdigit : ∀ d < 10, d ≠ 0 → d.digitChar ≠ '0' := by decide
      simpa using hdigit n hsmall h
    · next hlarge =>
      have hfront := ih (n / 10) (by omega) (by omega)
      obtain ⟨c, more, heq⟩ :=
        List.exists_cons_of_ne_nil (Nat.toDigits_ne_nil (n := n / 10) (b := 10))
      rw [heq] at hfront ⊢
      exact hfront

theorem isRow_of_isDigit {row : List Char} (hne : row ≠ []) (h : ∀ c ∈ row, c.isDigit) :
    isRow Char.isDigit row := by
  induction row with
  | nil => exact absurd rfl hne
  | cons c row ih =>
    have hc := h c List.mem_cons_self
    have hrow : ∀ d ∈ row, d.isDigit := fun d hd => h d (List.mem_cons_of_mem _ hd)
    cases row with
    | nil => simpa [isRow] using hc
    | cons d row =>
      have hd : d ≠ '_' := by
        rintro rfl
        cases hrow _ List.mem_cons_self
      rw [isRow.eq_def]
      simp [hc, hd, ih (List.cons_ne_nil d row) hrow]

/-- A number of 63 bits is read from its digits. -/
theorem integer?_toDigits (h : n < integerBound) :
    integer? (Nat.toDigits 10 n) = some (n : Int) := by
  have hdigits : ∀ c ∈ Nat.toDigits 10 n, c.isDigit := fun _ => isDigit_of_mem_toDigits
  have hbare : bare (Nat.toDigits 10 n) = Nat.toDigits 10 n := by
    rw [bare, List.filter_eq_self]
    intro c hc
    rw [decide_eq_true_eq]
    rintro rfl
    cases hdigits _ hc
  have hsign : splitSign (Nat.toDigits 10 n) = (false, Nat.toDigits 10 n) := by
    unfold splitSign
    split
    · next heq => cases hdigits '-' (heq ▸ List.mem_cons_self)
    · next heq => cases hdigits '+' (heq ▸ List.mem_cons_self)
    · rfl
  have hdecimal : isDecimal (Nat.toDigits 10 n) := by
    rw [isDecimal, isRow_of_isDigit Nat.toDigits_ne_nil hdigits, Bool.true_and]
    by_cases hzero : n = 0
    · subst hzero
      decide
    · simp [head?_toDigits hzero]
  unfold integer?
  split
  · next heq => cases hdigits 'x' (heq ▸ by simp)
  · next heq => cases hdigits 'o' (heq ▸ by simp)
  · next heq => cases hdigits 'b' (heq ▸ by simp)
  · simp [hsign, hdecimal, hbare, rowValue_toDigits, h]

theorem spells_toString (h : n < integerBound) : Spells (toString n).toList (.integer n) := by
  have hdigits : ∀ c ∈ Nat.toDigits 10 n, c.isDigit := fun _ => isDigit_of_mem_toDigits
  rw [Nat.toString_eq_repr, Nat.toList_repr]
  refine spells_word ?_ Nat.toDigits_ne_nil ?_ ?_
  · refine List.all_eq_true.mpr fun c hc => ?_
    simp [isWordChar, Char.isAlphanum, hdigits c hc]
  · unfold afterDate?
    split
    · next heq => cases hdigits '-' (heq ▸ by simp)
    · exact nofun
  · have htrue : Nat.toDigits 10 n ≠ ['t', 'r', 'u', 'e'] := fun heq => by
      cases hdigits 't' (heq ▸ by simp)
    have hfalse : Nat.toDigits 10 n ≠ ['f', 'a', 'l', 's', 'e'] := fun heq => by
      cases hdigits 'f' (heq ▸ by simp)
    rw [word?, if_neg htrue, if_neg hfalse, integer?_toDigits h]

end IgnoreAtlas.Toml
