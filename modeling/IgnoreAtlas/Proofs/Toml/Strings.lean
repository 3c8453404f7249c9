import IgnoreAtlas.Toml.Writer
import Mathlib.Tactic.SplitIfs

/-!
# Strings that are written are read

However a text is written, reading gives it back, as long as no quote follows
(`readString_quoteChars`).

Escapes are the same in both kinds of double quotes: a character stands for itself, behind a
backslash there is a letter for it, or its number (`escapeChar_cases`). Between three quotes, those
that the text begins with could be taken for the closing ones. There are never more than two of them
in a row without an escape, and two in front of the three that close are part of the text
(`closing?_replicate`).
-/

namespace IgnoreAtlas.Toml

variable {text rest : List Char} {mark c : Char} {row k : Nat}

/-! ## Escapes -/

theorem digit16?_digit16 : ∀ n < 16, digit16? (digit16 n) = some n := by decide

/-- A character up to 255 is read from its number. -/
theorem scalar?_value16? (h : c.toNat < 256) :
    (value16? ['0', '0', digit16 (c.toNat / 16), digit16 (c.toNat % 16)]).bind scalar? =
      some c := by
  have hzero : digit16? '0' = some 0 := by decide
  have hhigh := digit16?_digit16 (c.toNat / 16) (by omega)
  have hlow := digit16?_digit16 (c.toNat % 16) (by omega)
  have hvalid : c.toNat.isValidChar := c.valid
  have hvalue : value16? ['0', '0', digit16 (c.toNat / 16), digit16 (c.toNat % 16)] =
      some c.toNat := by
    simp only [value16?, List.foldlM_cons, List.foldlM_nil, hzero, hhigh, hlow, Option.map_some,
      Option.bind_eq_bind, Option.bind_some, Option.pure_def]
    congr 1
    omega
  rw [hvalue, Option.bind_some, scalar?, if_pos hvalid, Char.ofNat_toNat]

/-- Letters that may stand behind a backslash. -/
def letters : List Char := ['b', 't', 'n', 'f', 'r', '"', '\\']

theorem mem_letters_of_unescape? {letter : Char} (h : unescape? letter = some c) :
    letter ∈ letters := by
  unfold unescape? at h
  split_ifs at h <;> subst_vars <;> decide

theorem unescape?_of_escape? {letter : Char} (h : escape? c = some letter) :
    unescape? letter = some c := by
  unfold escape? at h
  split_ifs at h <;> cases h <;> subst_vars <;> rfl

/-- How a character is written between double quotes: as itself, as a letter behind a backslash, or
as its number. -/
theorem escapeChar_cases (c : Char) :
    (isPlain c ∧ c ≠ '\\' ∧ escapeChar c = [c]) ∨
    (∃ letter, unescape? letter = some c ∧ escapeChar c = ['\\', letter]) ∨
    ∃ high low, (value16? ['0', '0', high, low]).bind scalar? = some c ∧
      escapeChar c = ['\\', 'u', '0', '0', high, low] := by
  unfold escapeChar
  cases hescape : escape? c with
  | some letter => exact .inr (.inl ⟨letter, unescape?_of_escape? hescape, rfl⟩)
  | none =>
    by_cases hplain : isPlain c
    · refine .inl ⟨hplain, ?_, by simp [hplain]⟩
      rintro rfl
      cases hescape
    · refine .inr (.inr ⟨_, _, scalar?_value16? ?_, by simp [hplain]⟩)
      simp only [isPlain, Bool.or_eq_true, decide_eq_true_eq, Bool.and_eq_true] at hplain
      omega

theorem ne_of_isPlain (h : isPlain c) : c ≠ '\n' ∧ c ≠ '\r' := by
  constructor <;> rintro rfl <;> cases h

/-- What is written for a character begins with a plain one, and with no quote. -/
theorem exists_escapeChar_eq (hc : c ≠ '"') :
    ∃ d more, escapeChar c = d :: more ∧ d ≠ '"' ∧ isPlain d := by
  obtain ⟨hplain, -, heq⟩ | ⟨letter, -, heq⟩ | ⟨high, low, -, heq⟩ := escapeChar_cases c
  · exact ⟨c, _, heq, hc, hplain⟩
  · exact ⟨'\\', _, heq, by decide, rfl⟩
  · exact ⟨'\\', _, heq, by decide, rfl⟩

/-! ## Two quotes -/

/-- A character that is written between double quotes is read. -/
theorem readBasic_escapeChar (hc : c ≠ '"') (rest : List Char) :
    readBasic (escapeChar c ++ rest) = prepend c (readBasic rest) := by
  obtain ⟨hplain, hescape, heq⟩ | ⟨letter, hletter, heq⟩ | ⟨high, low, hvalue, heq⟩ :=
    escapeChar_cases c
  · rw [heq, List.singleton_append, readBasic.eq_def]
    simp [hc, hescape, hplain]
  · have hmem := mem_letters_of_unescape? hletter
    rw [heq, List.cons_append, List.singleton_append, readBasic.eq_def]
    simp only [letters, List.mem_cons, List.not_mem_nil, or_false] at hmem
    rcases hmem with rfl | rfl | rfl | rfl | rfl | rfl | rfl <;> simp [hletter]
  · rw [heq]
    simp only [List.cons_append, List.nil_append]
    rw [readBasic.eq_def]
    simp [hvalue]

/-- A text between double quotes is read. -/
theorem readBasic_escapeBasic (text rest : List Char) :
    readBasic (escapeBasic text ++ '"' :: rest) = some (text, rest) := by
  induction text with
  | nil => simp [escapeBasic, readBasic.eq_def]
  | cons c text ih =>
    rw [escapeBasic, List.append_assoc]
    by_cases hc : c = '"'
    · subst hc
      rw [if_pos rfl, List.cons_append, List.singleton_append, readBasic.eq_def]
      simp [show unescape? '"' = some '"' from rfl, ih, prepend]
    · rw [if_neg hc, readBasic_escapeChar hc, ih]
      rfl

/-- A text between single quotes is read if it has no other quotes of this kind. -/
theorem readLiteral_append (h : ∀ c ∈ text, isPlain c ∧ c ≠ '\'') (rest : List Char) :
    readLiteral (text ++ '\'' :: rest) = some (text, rest) := by
  induction text with
  | nil => simp [readLiteral]
  | cons c text ih =>
    obtain ⟨hplain, hc⟩ := h c List.mem_cons_self
    rw [List.cons_append, readLiteral, if_neg hc, if_pos hplain,
      ih fun d hd => h d (List.mem_cons_of_mem _ hd)]
    rfl

/-! ## Six quotes -/

/-- Quotes close a text when there are three of them at least; what is in front of the last three is
part of it. -/
theorem closing?_replicate (hk : k ≤ 5) (hrest : rest.head? ≠ some mark) :
    closing? mark (List.replicate k mark ++ rest) =
      if 3 ≤ k then some (List.replicate (k - 3) mark, rest) else none := by
  have htake : (List.replicate k mark ++ rest).takeWhile (· = mark) = List.replicate k mark := by
    rw [List.takeWhile_append_of_pos (by simp [List.mem_replicate])]
    cases rest with
    | nil => simp
    | cons c rest =>
      have hc : c ≠ mark := by simpa using hrest
      simp [hc]
  unfold closing?
  rw [htake, List.length_replicate, Nat.min_eq_right hk]
  by_cases hclose : 3 ≤ k
  · simp [hclose]
  · simp [hclose]

/-- Three quotes close what is empty. -/
theorem closing?_end (hrest : rest.head? ≠ some mark) :
    closing? mark (mark :: mark :: mark :: rest) = some ([], rest) :=
  closing?_replicate (k := 3) (by omega) hrest

/-- The quotes that a text begins with, and whether it has anything else. -/
inductive Leading (mark : Char) (k : Nat) : List Char → Prop
  | all : Leading mark k (List.replicate k mark)
  | front (c : Char) (more : List Char) :
    c ≠ mark → Leading mark k (List.replicate k mark ++ c :: more)

/-- Up to two quotes do not close what they stand in, if something else is behind them. Otherwise
they belong to it, with the three quotes that close it. -/
theorem Leading.closing? (h : Leading mark k text) (hk : k ≤ 2) (hrest : rest.head? ≠ some mark) :
    Toml.closing? mark (text ++ mark :: mark :: mark :: rest) = none ∨
      text = List.replicate k mark ∧
        Toml.closing? mark (text ++ mark :: mark :: mark :: rest) = some (text, rest) := by
  cases h with
  | all =>
    have hsum : List.replicate k mark ++ mark :: mark :: mark :: rest =
        List.replicate (k + 3) mark ++ rest := by
      rw [← List.replicate_append_replicate, List.append_assoc]
      rfl
    refine .inr ⟨rfl, ?_⟩
    rw [hsum, closing?_replicate (by omega) hrest, if_pos (by omega), Nat.add_sub_cancel]
  | front c more hc =>
    refine .inl ?_
    rw [List.append_assoc, closing?_replicate (by omega) (by simpa using hc), if_neg (by omega)]

theorem Leading.cons (h : Leading mark k text) : Leading mark (k + 1) (mark :: text) := by
  cases h with
  | all => exact .all
  | front c more hc => exact .front c more hc

/-- With `row` quotes in front there are never more than two of them without an escape. -/
theorem exists_leading_escapeLong (hrow : row ≤ 2) (text : List Char) :
    ∃ k, row + k ≤ 2 ∧ Leading '"' k (escapeLong row text) ∧
      (escapeLong row text = List.replicate k '"' → text = List.replicate k '"') := by
  induction text generalizing row with
  | nil => exact ⟨0, hrow, .all, id⟩
  | cons c text ih =>
    rw [escapeLong]
    by_cases hc : c = '"'
    · subst hc
      rw [if_pos rfl]
      by_cases hfull : row = 2
      · rw [if_pos hfull]
        exact ⟨0, hrow, .front '\\' _ (by decide), nofun⟩
      · rw [if_neg hfull]
        obtain ⟨k, hk, hlead, hall⟩ := ih (show row + 1 ≤ 2 by omega)
        refine ⟨k + 1, by omega, hlead.cons, fun h => ?_⟩
        rw [hall (List.cons.inj h).2, List.replicate_succ]
    · rw [if_neg hc]
      by_cases hline : c = '\n'
      · rw [if_pos hline]
        exact ⟨0, hrow, .front '\n' _ (by decide), nofun⟩
      · rw [if_neg hline]
        obtain ⟨d, more, heq, hd, -⟩ := exists_escapeChar_eq hc
        exact ⟨0, hrow, heq ▸ .front d _ hd, by rw [heq]; exact nofun⟩

/-- A character that is written between three double quotes is read. -/
theorem readLongBasic_escapeChar (hc : c ≠ '"') (rest : List Char) :
    readLongBasic false (escapeChar c ++ rest) = prepend c (readLongBasic false rest) := by
  obtain ⟨hplain, hescape, heq⟩ | ⟨letter, hletter, heq⟩ | ⟨high, low, hvalue, heq⟩ :=
    escapeChar_cases c
  · obtain ⟨hline, hreturn⟩ := ne_of_isPlain hplain
    rw [heq, List.singleton_append, readLongBasic.eq_def]
    simp [hc, hline, hreturn, hescape, hplain]
  · have hmem := mem_letters_of_unescape? hletter
    rw [heq, List.cons_append, List.singleton_append, readLongBasic.eq_def]
    simp only [letters, List.mem_cons, List.not_mem_nil, or_false] at hmem
    rcases hmem with rfl | rfl | rfl | rfl | rfl | rfl | rfl <;> simp [hletter, endsLine]
  · rw [heq]
    simp only [List.cons_append, List.nil_append]
    rw [readLongBasic.eq_def]
    simp [hvalue, endsLine]

/-- A text between three double quotes is read. -/
theorem readLongBasic_escapeLong (hrow : row ≤ 2) (text : List Char)
    (hrest : rest.head? ≠ some '"') :
    readLongBasic false (escapeLong row text ++ '"' :: '"' :: '"' :: rest) = some (text, rest) := by
  induction text generalizing row with
  | nil =>
    rw [escapeLong, List.nil_append, readLongBasic.eq_def]
    simp [closing?_end hrest]
  | cons c text ih =>
    rw [escapeLong]
    by_cases hc : c = '"'
    · subst hc
      rw [if_pos rfl]
      by_cases hfull : row = 2
      · rw [if_pos hfull, List.cons_append, List.cons_append, readLongBasic.eq_def]
        simp [endsLine, show unescape? '"' = some '"' from rfl, ih (Nat.zero_le 2), prepend]
      · rw [if_neg hfull, List.cons_append, readLongBasic.eq_def]
        obtain ⟨k, hk, hlead, hall⟩ := exists_leading_escapeLong (show row + 1 ≤ 2 by omega) text
        obtain hopen | ⟨heq, hclose⟩ := hlead.cons.closing? (by omega) hrest
        · rw [List.cons_append] at hopen
          simp [hopen, ih (show row + 1 ≤ 2 by omega), prepend]
        · rw [List.cons_append] at hclose
          have hquotes := (List.cons.inj heq).2
          have hsame : escapeLong (row + 1) text = text := hquotes.trans (hall hquotes).symm
          rw [hsame] at hclose ⊢
          simp [hclose]
    · rw [if_neg hc]
      by_cases hline : c = '\n'
      · subst hline
        rw [if_pos rfl, List.cons_append, readLongBasic.eq_def]
        simp [ih (Nat.zero_le 2), prepend]
      · rw [if_neg hline, List.append_assoc, readLongBasic_escapeChar hc, ih (Nat.zero_le 2)]
        rfl

/-- A text has no more quotes in front than its longest row of them. -/
theorem exists_leading (h : longestRow mark row text ≤ 2) :
    ∃ k, row + k ≤ 2 ∧ Leading mark k text := by
  induction text generalizing row with
  | nil => exact ⟨0, h, .all⟩
  | cons c text ih =>
    rw [longestRow] at h
    by_cases hc : c = mark
    · subst hc
      rw [if_pos rfl] at h
      obtain ⟨k, hk, hlead⟩ := ih h
      exact ⟨k + 1, by omega, hlead.cons⟩
    · rw [if_neg hc] at h
      exact ⟨0, by omega, .front c text hc⟩

/-- A text between three single quotes is read if it has at most two of them in a row. -/
theorem readLongLiteral_append (hrow : longestRow '\'' row text ≤ 2)
    (hplain : ∀ c ∈ text, isPlain c ∨ c = '\n') (hrest : rest.head? ≠ some '\'') :
    readLongLiteral (text ++ '\'' :: '\'' :: '\'' :: rest) = some (text, rest) := by
  induction text generalizing row with
  | nil =>
    rw [List.nil_append, readLongLiteral.eq_def]
    simp [closing?_end hrest]
  | cons c text ih =>
    have hbehind : ∀ d ∈ text, isPlain d ∨ d = '\n' := fun d hd =>
      hplain d (List.mem_cons_of_mem _ hd)
    obtain ⟨k, hk, hlead⟩ := exists_leading hrow
    rw [longestRow] at hrow
    rw [List.cons_append, readLongLiteral.eq_def]
    by_cases hc : c = '\''
    · subst hc
      rw [if_pos rfl] at hrow
      obtain hopen | ⟨-, hclose⟩ := hlead.closing? (by omega) hrest
      · rw [List.cons_append] at hopen
        simp [hopen, ih hrow hbehind, prepend]
      · rw [List.cons_append] at hclose
        simp [hclose]
    · rw [if_neg hc] at hrow
      have hfresh : longestRow '\'' 0 text ≤ 2 := by omega
      have hread := ih hfresh hbehind
      obtain hchar | rfl := hplain c List.mem_cons_self
      · obtain ⟨hline, hreturn⟩ := ne_of_isPlain hchar
        simp [hc, hline, hreturn, hchar, hread, prepend]
      · simp [hread, prepend]

/-! ## Every way to write a text -/

theorem isPlain_of_not_hasControl (h : hasControl text = false) :
    ∀ c ∈ text, isPlain c ∨ c = '\n' := by
  intro c hc
  have := List.any_eq_false.mp h c hc
  simp only [Bool.and_eq_true, Bool.not_eq_true', decide_eq_true_eq, ne_eq, not_and,
    Decidable.not_not] at this
  cases hplain : isPlain c with
  | true => exact .inl rfl
  | false => exact .inr (this hplain)

theorem not_mem_of_longestRow (h : longestRow mark row text = 0) : mark ∉ text := by
  induction text generalizing row with
  | nil => exact List.not_mem_nil
  | cons c text ih =>
    rw [longestRow] at h
    by_cases hc : c = mark
    · subst hc
      rw [if_pos rfl] at h
      have hmore (row : Nat) (text : List Char) : row ≤ longestRow c row text := by
        induction text generalizing row with
        | nil => exact Nat.le_refl _
        | cons d text ih =>
          rw [longestRow]
          split
          · exact Nat.le_of_succ_le (ih (row + 1))
          · exact Nat.le_max_left ..
      have := hmore (row + 1) text
      omega
    · rw [if_neg hc] at h
      rw [List.mem_cons, not_or]
      have hfresh : longestRow mark 0 text = 0 := by omega
      exact ⟨Ne.symm hc, ih hfresh⟩

/-- Between single quotes stand plain characters, and no other quotes of this kind. -/
theorem of_quotingOf_literal (h : quotingOf text = .literal) :
    ∀ c ∈ text, isPlain c ∧ c ≠ '\'' := by
  unfold quotingOf at h
  simp only at h
  split_ifs at h with _ hliteral
  simp only [Bool.and_eq_true, Bool.not_eq_true', decide_eq_true_eq] at hliteral
  obtain ⟨⟨hcontrol, hline⟩, hrow⟩ := hliteral
  intro c hc
  refine ⟨(isPlain_of_not_hasControl hcontrol c hc).resolve_right ?_, ?_⟩
  · rintro rfl
    rw [List.contains_iff_mem.mpr hc] at hline
    cases hline
  · rintro rfl
    exact not_mem_of_longestRow hrow hc

/-- Between six of them at most two stand in a row. -/
theorem of_quotingOf_longLiteral (h : quotingOf text = .longLiteral) :
    longestRow '\'' 0 text ≤ 2 ∧ ∀ c ∈ text, isPlain c ∨ c = '\n' := by
  unfold quotingOf at h
  simp only at h
  split_ifs at h with _ _ _ hlong
  simp only [Bool.and_eq_true, Bool.not_eq_true', decide_eq_true_eq] at hlong
  exact ⟨hlong.2, isPlain_of_not_hasControl hlong.1⟩

/-- The line end behind three opening quotes is dropped, and no other one. -/
theorem dropLineEnd_opening {written : List Char}
    (h : '\n' ∉ text → ∃ c more, written = c :: more ∧ isPlain c) :
    dropLineEnd (opening text ++ written) = written := by
  unfold opening
  by_cases hmem : '\n' ∈ text
  · simp [hmem, dropLineEnd]
  · obtain ⟨c, more, rfl, hplain⟩ := h hmem
    obtain ⟨hline, hreturn⟩ := ne_of_isPlain hplain
    simp only [List.contains_iff_mem, hmem, if_false, List.nil_append]
    unfold dropLineEnd
    split <;> simp_all

theorem readString_basic {written : List Char} (h : ∀ more, written ≠ '"' :: '"' :: more) :
    readString ('"' :: written) = readBasic written := by
  unfold readString
  split <;> simp_all [readShort]

theorem readString_literal {written : List Char} (h : ∀ more, written ≠ '\'' :: '\'' :: more) :
    readString ('\'' :: written) = readLiteral written := by
  unfold readString
  split <;> simp_all [readShort]

/-- What is written between double quotes is not taken for an opening with three of them. -/
theorem escapeBasic_append_ne (h : rest.head? ≠ some '"') (text more : List Char) :
    escapeBasic text ++ '"' :: rest ≠ '"' :: '"' :: more := by
  intro heq
  cases text with
  | nil => exact h (by rw [(List.cons.inj heq).2]; rfl)
  | cons c text =>
    rw [escapeBasic] at heq
    by_cases hc : c = '"'
    · rw [if_pos hc] at heq
      cases heq
    · obtain ⟨d, written, hd, hne, -⟩ := exists_escapeChar_eq hc
      rw [if_neg hc, hd] at heq
      exact hne (List.cons.inj heq).1

/-- What is written between six of them does not begin with a line end of its own, unless there is
one in the text. -/
theorem exists_escapeLong_eq (h : '\n' ∉ text) (rest : List Char) :
    ∃ c more, escapeLong 0 text ++ '"' :: rest = c :: more ∧ isPlain c := by
  cases text with
  | nil => exact ⟨'"', rest, rfl, rfl⟩
  | cons c text =>
    rw [escapeLong]
    by_cases hc : c = '"'
    · rw [if_pos hc, if_neg (by decide)]
      exact ⟨'"', _, rfl, rfl⟩
    · obtain ⟨d, written, hd, -, hplain⟩ := exists_escapeChar_eq hc
      have hline : c ≠ '\n' := fun hline => h (hline ▸ List.mem_cons_self)
      rw [if_neg hc, if_neg hline, hd]
      exact ⟨d, _, rfl, hplain⟩

/-- A text that is written is read, if no quote follows it. -/
theorem readString_quoteChars (text : List Char) (hbasic : rest.head? ≠ some '"')
    (hliteral : rest.head? ≠ some '\'') :
    readString (quoteChars text ++ rest) = some (text, rest) := by
  unfold quoteChars
  cases hquoting : quotingOf text with
  | basic =>
    simp only [List.cons_append, List.append_assoc, List.nil_append]
    rw [readString_basic (escapeBasic_append_ne hbasic text), readBasic_escapeBasic]
  | literal =>
    have hplain := of_quotingOf_literal hquoting
    have hopen (more : List Char) : text ++ '\'' :: rest ≠ '\'' :: '\'' :: more := by
      intro heq
      cases text with
      | nil => exact hliteral (by rw [(List.cons.inj heq).2]; rfl)
      | cons c text => exact (hplain c List.mem_cons_self).2 (List.cons.inj heq).1
    simp only [List.cons_append, List.append_assoc, List.nil_append]
    rw [readString_literal hopen, readLiteral_append hplain]
  | longBasic =>
    simp only [List.cons_append, List.append_assoc, List.nil_append]
    rw [readString, dropLineEnd_opening fun hline => exists_escapeLong_eq hline _,
      readLongBasic_escapeLong (Nat.zero_le 2) text hbasic]
  | longLiteral =>
    obtain ⟨hrow, hplain⟩ := of_quotingOf_longLiteral hquoting
    have hfirst (hline : '\n' ∉ text) :
        ∃ c more, text ++ '\'' :: '\'' :: '\'' :: rest = c :: more ∧ isPlain c := by
      cases text with
      | nil => exact ⟨'\'', _, rfl, rfl⟩
      | cons c text =>
        have hne : c ≠ '\n' := fun h => hline (h ▸ List.mem_cons_self)
        exact ⟨c, _, rfl, (hplain c List.mem_cons_self).resolve_right hne⟩
    simp only [List.cons_append, List.append_assoc, List.nil_append]
    rw [readString, dropLineEnd_opening hfirst, readLongLiteral_append hrow hplain hliteral]

end IgnoreAtlas.Toml
