import IgnoreAtlas.Proofs.Path.Components
import IgnoreAtlas.Rule.Chain

/-!
# One more rule

A rule file grows by a line at its end. Read as rules it has the same rules as before, and perhaps one
more behind them that ignores (`RuleFile.Grows`). The last rule that speaks of an entry decides, so
such a file says of an entry what it said, or that it is ignored (`Firmer`). The chain asks one file
after the other and takes the first answer, and that keeps it so (`Chain.Grows.firmer`): what was
ignored still is.
-/

namespace IgnoreAtlas

/-! ## What rules say -/

/-- The second answer is the first, or it is that the entry is ignored. -/
def Firmer (before after : Option Verdict) : Prop := after = before ∨ after = some .ignored

namespace Firmer

variable {a b c d : Option Verdict}

theorem refl (a : Option Verdict) : Firmer a a := .inl rfl

/-- The first answer of two becomes firmer with each of them. -/
theorem or (hfirst : Firmer a b) (hsecond : Firmer c d) : Firmer (a.or c) (b.or d) := by
  rcases hfirst with rfl | rfl
  · cases b with
    | none => exact hsecond
    | some verdict => exact .refl _
  · exact .inr rfl

theorem ignored (h : Firmer a b) (ha : a = some .ignored) : b = some .ignored := by
  rcases h with rfl | rfl
  · exact ha
  · rfl

end Firmer

namespace RuleFile

variable {rules more : RuleFile}

/-- The same rules, and perhaps one more at the end that ignores. -/
def Grows (rules more : RuleFile) : Prop :=
  more = rules ∨ ∃ rule : Rule, rule.verdict = .ignored ∧ more = rules ++ [rule]

theorem Grows.refl (rules : RuleFile) : rules.Grows rules := .inl rfl

/-- The last rule that speaks of an entry decides. -/
theorem Grows.firmer (h : rules.Grows more) (path : Bytes) (isDir : Bool) :
    Firmer (rules.verdict? path isDir) (more.verdict? path isDir) := by
  rcases h with rfl | ⟨rule, hverdict, rfl⟩
  · exact .refl _
  · rw [RuleFile.verdict?, RuleFile.verdict?, List.reverse_append, List.reverse_singleton,
      List.singleton_append]
    rw [List.find?_cons]
    cases rule.appliesTo path isDir with
    | true => exact .inr (congrArg some hverdict)
    | false => exact .refl _

end RuleFile

/-! ## Chains -/

/-- The same directory, whose rule files grow. -/
structure Frame.Grows (frame more : Frame) : Prop where
  base : more.base = frame.base
  boundary : more.boundary = frame.boundary
  rules : frame.rules.Grows more.rules
  excludes : frame.excludes.Grows more.excludes

namespace Chain

/-- The same directories, whose rule files grow. -/
structure Grows (chain more : Chain) : Prop where
  frames : List.Forall₂ Frame.Grows chain.frames more.frames
  enclosed : more.enclosed = chain.enclosed
  shared : chain.shared.Grows more.shared
  sharedBase : more.sharedBase = chain.sharedBase

variable {chain more : Chain} {frames others : List Frame}

/-- The frames that are asked stay the same. -/
theorem reach_grows (h : List.Forall₂ Frame.Grows frames others) :
    List.Forall₂ Frame.Grows (reach frames) (reach others) := by
  induction h with
  | nil => exact .nil
  | cons hframe hrest ih =>
    rw [reach, reach, hframe.boundary]
    split
    · exact .cons hframe .nil
    · exact .cons hframe ih

theorem any_boundary_eq (h : List.Forall₂ Frame.Grows frames others) :
    others.any Frame.boundary = frames.any Frame.boundary := by
  induction h with
  | nil => rfl
  | cons hframe hrest ih => rw [List.any_cons, List.any_cons, hframe.boundary, ih]

/-- The first answer of several files becomes firmer with each of them. -/
theorem findSome?_firmer {ask : Frame → Option Verdict}
    (hask : ∀ frame more : Frame, frame.Grows more → Firmer (ask frame) (ask more))
    (h : List.Forall₂ Frame.Grows frames others) :
    Firmer (frames.findSome? ask) (others.findSome? ask) := by
  have hcons (frame : Frame) (rest : List Frame) :
      (frame :: rest).findSome? ask = (ask frame).or (rest.findSome? ask) := by
    rw [List.findSome?_cons]
    cases ask frame <;> rfl
  induction h with
  | nil => exact .refl _
  | cons hframe hrest ih =>
    rw [hcons, hcons]
    exact (hask _ _ hframe).or ih

/-- The rules count in the same places. -/
theorem Grows.inRepository_eq (h : chain.Grows more) : more.inRepository = chain.inRepository := by
  rw [inRepository, inRepository, any_boundary_eq h.frames, h.enclosed]

/-- What the rules say of an entry becomes firmer. -/
theorem Grows.firmer (h : chain.Grows more) (path : Bytes) (isDir : Bool) :
    Firmer (chain.verdict? path isDir) (more.verdict? path isDir) := by
  unfold verdict?
  rw [h.inRepository_eq, h.sharedBase]
  split
  · have hnear := reach_grows h.frames
    refine (findSome?_firmer ?_ hnear).or ((findSome?_firmer ?_ hnear).or (h.shared.firmer _ _))
    · intro frame more hgrows
      rw [hgrows.base]
      exact hgrows.rules.firmer _ _
    · intro frame more hgrows
      rw [hgrows.base]
      exact hgrows.excludes.firmer _ _
  · exact .refl _

/-- What is ignored stays ignored. -/
theorem Grows.ignores (h : chain.Grows more) {path : Bytes} {isDir : Bool}
    (hignores : chain.ignores path isDir) : more.ignores path isDir :=
  beq_iff_eq.mpr ((h.firmer path isDir).ignored (beq_iff_eq.mp hignores))

end Chain

/-! ## Lines of a rule file -/

namespace Utf8

theorem encode_append (a b : String) : encode (a ++ b) = encode a ++ encode b := by
  simp [encode, String.toUTF8_eq_toByteArray, String.toByteArray_append, ByteArray.data_append]

/-- A text begins with the bytes of its first character. -/
theorem prefix_of_decode? {bytes : Bytes} {text : String} {c : Char}
    (h : decode? bytes = some text) (hc : text.toList.head? = some c) :
    encode (String.singleton c) <+: bytes := by
  obtain ⟨rest, hrest⟩ := List.head?_eq_some_iff.mp hc
  have htext : text = String.singleton c ++ String.ofList rest := by
    rw [← String.ofList_cons, ← hrest, String.ofList_toList]
  rw [← encode_of_decode? h, htext, encode_append]
  exact List.prefix_append _ _

end Utf8

namespace Rule

theorem trimLine_prefix (line : List Char) : trimLine line <+: line := by
  unfold trimLine
  split
  · exact List.prefix_rfl
  · rw [Text.trimEnd, ← List.reverse_suffix, List.reverse_reverse]
    exact List.dropWhile_suffix _

/-- Only the mark `!` keeps something. -/
theorem verdict_frontMarks {line : List Char} (h : line.head? ≠ some '!') :
    (frontMarks line).1 = .ignored := by
  unfold frontMarks
  split
  · rfl
  · rfl
  · split
    split
    · next hmarks =>
      split at hmarks
      · exact absurd rfl h
      · cases hmarks
        rfl
    · next hmarks _ _ =>
      split at hmarks
      · exact absurd rfl h
      · cases hmarks
        rfl

/-- A line that does not begin with `!` is the rule of something that is ignored, or no rule. -/
theorem verdict_of_ofLine? {line : List Char} {rule : Rule} (h : ofLine? line = some rule)
    (hhead : line.head? ≠ some '!') : rule.verdict = .ignored := by
  have htrim : (trimLine line).head? ≠ some '!' := by
    intro hmark
    obtain ⟨rest, hrest⟩ := trimLine_prefix line
    rw [← hrest, List.head?_append, hmark] at hhead
    exact hhead rfl
  unfold ofLine? at h
  split at h
  · cases h
  · simp only at h
    split at h
    · cases h
    · split at h
      · cases h
        exact verdict_frontMarks htrim
      · cases h

end Rule

/-- A file without rules, or one whose last line is ended, gets one more line. It does not begin with
the mark of what is kept, nor with the one that may stand in front of a text file. -/
def AddsLine (before after : Bytes) : Prop :=
  (before = [] ∨ before.getLast? = some newlineByte) ∧
    ∃ line, newlineByte ∉ line ∧ ¬Utf8.encode "!" <+: line ∧
      ¬Utf8.encode (String.singleton byteOrderMark) <+: line ∧
      (after = before ++ line ∨ after = before ++ line ++ [newlineByte])

/-- Behind a file whose last line is ended stand the lines of what follows. -/
theorem exists_splitOn_append {before : Bytes}
    (h : before = [] ∨ before.getLast? = some newlineByte) :
    ∃ pieces, splitOn newlineByte before = pieces ++ [[]] ∧
      ∀ more, splitOn newlineByte (before ++ more) = pieces ++ splitOn newlineByte more := by
  rcases h with rfl | hlast
  · exact ⟨[], rfl, fun more => rfl⟩
  · obtain ⟨front, rfl⟩ := List.getLast?_eq_some_iff.mp hlast
    refine ⟨splitOn newlineByte front, splitOn_append_cons newlineByte front [], fun more => ?_⟩
    rw [List.append_assoc, List.singleton_append]
    exact splitOn_append_cons newlineByte front more

/-- The lines of a file that gets one more: that line, or a beginning of it, stands behind them. -/
theorem linesOf_append {before line : Bytes}
    (h : before = [] ∨ before.getLast? = some newlineByte) (hline : newlineByte ∉ line) :
    (linesOf (before ++ line) = linesOf before ∨
      linesOf (before ++ line) = linesOf before ++ [line]) ∧
    ∃ last, last <+: line ∧ linesOf (before ++ line ++ [newlineByte]) = linesOf before ++ [last] := by
  obtain ⟨pieces, hbefore, hmore⟩ := exists_splitOn_append h
  have hone : splitOn newlineByte line = [line] := splitOn_of_not_mem hline
  have hended : splitOn newlineByte (line ++ [newlineByte]) = [line, []] := by
    rw [splitOn_append_cons newlineByte line [], hone]
    rfl
  have hlines : linesOf before = pieces.map fun line =>
      if line.getLast? = some returnByte then line.dropLast else line := by
    simp [linesOf, hbefore]
  rw [hlines]
  constructor
  · cases line with
    | nil =>
      left
      rw [List.append_nil, hlines]
    | cons b line =>
      right
      simp [linesOf, hmore, hone]
  · refine ⟨if line.getLast? = some returnByte then line.dropLast else line, ?_, ?_⟩
    · split
      · exact List.dropLast_prefix line
      · exact List.prefix_rfl
    · rw [List.append_assoc, linesOf, hmore, hended]
      simp

namespace RuleFile

/-- The texts of the lines end at the first line that is no text. -/
theorem textLines_append (lines : List Bytes) (last : Bytes) :
    textLines (lines ++ [last]) = textLines lines ∨
      ∃ text, Utf8.decode? last = some text ∧
        textLines (lines ++ [last]) = textLines lines ++ [text.toList] := by
  induction lines with
  | nil =>
    rw [List.nil_append, textLines, textLines]
    cases Utf8.decode? last with
    | none => exact .inl rfl
    | some text => exact .inr ⟨text, rfl, rfl⟩
  | cons line lines ih =>
    rw [List.cons_append, textLines, textLines]
    cases Utf8.decode? line with
    | none => exact .inl rfl
    | some text =>
      rcases ih with hsame | ⟨more, hmore, hlast⟩
      · exact .inl (congrArg _ hsame)
      · exact .inr ⟨more, hmore, congrArg _ hlast⟩

/-- A line at the end is read as it stands, unless it is the first and marked as such. -/
theorem ofLines_append (lines : List (List Char)) {last : List Char}
    (h : last.head? ≠ some byteOrderMark) :
    ofLines (lines ++ [last]) = ofLines lines ++ (Rule.ofLine? last).toList := by
  have hlast : [last].filterMap Rule.ofLine? = (Rule.ofLine? last).toList := by
    cases hrule : Rule.ofLine? last <;> simp [hrule]
  cases lines with
  | nil =>
    have hmark : last.dropWhile (· = byteOrderMark) = last := by
      cases last with
      | nil => rfl
      | cons c rest =>
        have hc : c ≠ byteOrderMark := fun heq => h (congrArg some heq)
        simp [hc]
    calc ofLines ([] ++ [last]) = [last.dropWhile (· = byteOrderMark)].filterMap Rule.ofLine? := rfl
      _ = ofLines [] ++ (Rule.ofLine? last).toList := by rw [hmark, hlast]; rfl
  | cons first lines =>
    rw [List.cons_append, ofLines, ofLines, ← List.cons_append, List.filterMap_append, hlast]

/-- A file that gets one more line has the same rules, and perhaps one more that ignores. -/
theorem grows_of_addsLine {before after : Bytes} (h : AddsLine before after) :
    (ofBytes before).Grows (ofBytes after) := by
  obtain ⟨hended, line, hline, hkept, hmark, hafter⟩ := h
  obtain ⟨hopen, last, hlast, hclosed⟩ := linesOf_append hended hline
  -- Whatever of the line stands behind the others does not begin with a mark.
  have hgrows {last : Bytes} (hlast : last <+: line) :
      (ofBytes before).Grows (ofLines (textLines (linesOf before ++ [last]))) := by
    rcases textLines_append (linesOf before) last with hsame | ⟨text, htext, hmore⟩
    · rw [hsame]
      exact .refl _
    · have hhead (c : Char) (hc : ¬Utf8.encode (String.singleton c) <+: line) :
          text.toList.head? ≠ some c :=
        fun hfirst => hc ((Utf8.prefix_of_decode? htext hfirst).trans hlast)
      rw [hmore, ofLines_append _ (hhead _ hmark)]
      cases hrule : Rule.ofLine? text.toList with
      | none => exact .inl (List.append_nil _)
      | some rule => exact .inr ⟨rule, Rule.verdict_of_ofLine? hrule (hhead '!' hkept), rfl⟩
  rcases hafter with rfl | rfl
  · rcases hopen with hsame | hmore
    · rw [ofBytes, ofBytes, hsame]
      exact .refl _
    · have hgrown := hgrows List.prefix_rfl
      rwa [← hmore] at hgrown
  · have hgrown := hgrows hlast
    rwa [← hclosed] at hgrown

end RuleFile

end IgnoreAtlas
