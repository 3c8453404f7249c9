import IgnoreAtlas.Proofs.Toml.Values

/-!
# Tables that are written are read

A text of lines means the statements of its lines (`readStatements_lines`). Assignments, and behind
them tables with a header each, mean a table of these assignments with the tables in it, if no name
occurs twice (`assemble_tables`).
-/

namespace IgnoreAtlas.Toml

variable {fuel : Nat} {rest behind : List Char} {name : String}

/-! ## Lines -/

/-- The name needs no quotes. -/
def IsBare (name : String) : Prop := name.toList ≠ [] ∧ name.toList.all isKeyChar

instance (name : String) : Decidable (IsBare name) := inferInstanceAs (Decidable (_ ∧ _))

/-- A line as it is written: nothing, a header, or a name with what is written for its value. -/
inductive Line
  | blank
  | header (name : String)
  | assign (name written : String) (value : Toml)

namespace Line

/-- The characters of a line. -/
def chars : Line → List Char
  | blank => ['\n']
  | header name => '[' :: name.toList ++ [']', '\n']
  | assign name written _ => (assignment name written).toList

/-- What a line states. -/
def statement? : Line → Option Statement
  | blank => none
  | header name => some (.header [name])
  | assign name _ value => some (.assign [name] value)

/-- Names need no quotes, and values are spelled by what is written for them. -/
def Sound : Line → Prop
  | blank => True
  | header name => IsBare name
  | assign name written value => IsBare name ∧ Spells written.toList value

end Line

/-- A name that needs no quotes begins with a character that nothing else begins with. -/
theorem IsBare.exists_eq (h : IsBare name) :
    ∃ c more, name.toList = c :: more ∧
      c ∉ [' ', '\t', '"', '\'', '[', '#', '\n', '\r', byteOrderMark] := by
  obtain ⟨c, more, heq⟩ := List.exists_cons_of_ne_nil h.1
  refine ⟨c, more, heq, fun hmem => ?_⟩
  have hc := List.all_eq_true.mp h.2 c (heq ▸ List.mem_cons_self)
  simp only [List.mem_cons, List.not_mem_nil, or_false] at hmem
  rcases hmem with rfl | rfl | rfl | rfl | rfl | rfl | rfl | rfl | rfl <;> cases hc

/-- A name is read up to the mark behind it; blanks in front of the mark are passed over. -/
theorem key?_append {stop mark : Char} (h : IsBare name) (hstop : isKeyChar stop = false)
    (hskip : skipBlanks (stop :: rest) = mark :: behind) (hmark : mark ≠ '.') :
    key? (name.toList ++ stop :: rest) = some ([name], mark :: behind) := by
  obtain ⟨c, more, heq, hfirst⟩ := h.exists_eq
  simp only [List.mem_cons, List.not_mem_nil, or_false, not_or] at hfirst
  have hfront : skipBlanks (name.toList ++ stop :: rest) = name.toList ++ stop :: rest := by
    rw [heq]
    simp [skipBlanks, isBlank, hfirst]
  have hsimple : readSimpleKey (name.toList ++ stop :: rest) = some (name, stop :: rest) := by
    unfold readSimpleKey
    split
    · next hquote => simp_all
    · next hquote => simp_all
    · simp only [takeWhile_append_stop h.2 hstop, dropWhile_append_stop h.2 hstop]
      simp [h.1]
  rw [key?, show depthLimit - 1 = 78 + 1 from rfl, readKey, hfront, hsimple]
  simp [hskip, hmark]

/-- Where a line ends, reading goes on with the next one. -/
theorem endLine?_line (rest : List Char) : endLine? false ('\n' :: rest) = some rest := by
  rw [endLine?.eq_def]
  rfl

/-- A header is a statement. -/
theorem readStatement_header (h : IsBare name) (rest : List Char) :
    readStatement ('[' :: (name.toList ++ ']' :: '\n' :: rest)) = some (.header [name], rest) := by
  have hkey : key? (name.toList ++ ']' :: '\n' :: rest) = some ([name], ']' :: '\n' :: rest) :=
    key?_append h (by decide) rfl (by decide)
  obtain ⟨c, more, heq, hfirst⟩ := h.exists_eq
  unfold readStatement
  split
  · next hopen => simp_all
  · next hopen =>
    cases hopen
    rw [hkey]
    simp [endLine?_line]
  · next hno => exact absurd rfl (hno _)

/-- A name with a value is a statement. -/
theorem readStatement_assign {written : List Char} {value : Toml} (h : IsBare name)
    (hvalue : Spells written value) (rest : List Char) :
    readStatement (name.toList ++ ' ' :: '=' :: ' ' :: (written ++ '\n' :: rest)) =
      some (.assign [name] value, rest) := by
  have hkey : key? (name.toList ++ ' ' :: '=' :: ' ' :: (written ++ '\n' :: rest)) =
      some ([name], '=' :: ' ' :: (written ++ '\n' :: rest)) :=
    key?_append h (by decide) rfl (by decide)
  have hskip : skipBlanks (' ' :: (written ++ '\n' :: rest)) = written ++ '\n' :: rest :=
    hvalue.front ('\n' :: rest)
  obtain ⟨c, more, heq, hfirst⟩ := h.exists_eq
  unfold readStatement
  split
  · next hopen => simp_all
  · next hopen => simp_all
  · rw [hkey]
    simp [hskip, hvalue.read, endLine?_line]

/-- A statement in front of other lines is read first. -/
theorem readStatements_of_readStatement {c : Char} {input : List Char} {statement : Statement}
    (hc : c ∉ [' ', '\t', '#', '\n', '\r'])
    (h : readStatement (c :: input) = some (statement, rest)) :
    readStatements (fuel + 1) (c :: input) = (readStatements fuel rest).map (statement :: ·) := by
  simp only [List.mem_cons, List.not_mem_nil, or_false, not_or] at hc
  have hskip : skipBlanks (c :: input) = c :: input := by simp [skipBlanks, isBlank, hc]
  have hidle : isIdle (c :: input) = false := by simp [isIdle, hc]
  rw [readStatements]
  cases hrest : readStatements fuel rest <;> simp [hskip, hidle, h, hrest]

/-- A line is read, and what it states comes in front of the statements of the lines behind it. -/
theorem readStatements_append {line : Line} (h : line.Sound) (fuel : Nat) (rest : List Char) :
    readStatements (fuel + 1) (line.chars ++ rest) =
      (readStatements fuel rest).map (line.statement?.toList ++ ·) := by
  cases line with
  | blank =>
    have hskip : skipBlanks ('\n' :: rest) = '\n' :: rest := rfl
    simp only [Line.chars, Line.statement?, List.cons_append, List.nil_append]
    rw [readStatements]
    simp [hskip, isIdle, endLine?_line]
  | header name =>
    have hread := readStatement_header h rest
    simp only [Line.chars, List.cons_append, List.append_assoc, List.nil_append]
    exact readStatements_of_readStatement (by decide) hread
  | assign name written value =>
    have hread := readStatement_assign h.1 h.2 rest
    obtain ⟨c, more, heq, hfirst⟩ := h.1.exists_eq
    have hchars : (Line.assign name written value).chars ++ rest =
        name.toList ++ ' ' :: '=' :: ' ' :: (written.toList ++ '\n' :: rest) := by
      simp [Line.chars, assignment]
    rw [hchars]
    rw [heq, List.cons_append] at hread ⊢
    exact readStatements_of_readStatement (by simp_all) hread

/-- Lines are read one after the other. -/
theorem readStatements_lines {lines : List Line} (h : ∀ line ∈ lines, line.Sound)
    (hfuel : lines.length ≤ fuel) :
    readStatements fuel (lines.flatMap Line.chars) = some (lines.filterMap Line.statement?) := by
  induction lines generalizing fuel with
  | nil => cases fuel <;> rfl
  | cons line lines ih =>
    obtain ⟨fuel, rfl⟩ := Nat.exists_eq_succ_of_ne_zero (by simp at hfuel; omega : fuel ≠ 0)
    rw [List.flatMap_cons, readStatements_append (h line List.mem_cons_self),
      ih (fun l hl => h l (List.mem_cons_of_mem _ hl)) (by simpa using hfuel), List.filterMap_cons]
    cases line.statement? <;> rfl

/-! ## Tables -/

/-- The statements of a table with a header. -/
def statementsOf (table : String × Fields) : List Statement :=
  .header [table.1] :: table.2.map fun field => .assign [field.1] field.2

theorem lookup_eq_none {fields : Fields} (h : name ∉ fields.map Prod.fst) :
    fields.lookup name = none := by
  rw [List.lookup_eq_none_iff]
  intro field hfield
  rw [bne_iff_ne]
  rintro rfl
  exact h (List.mem_map_of_mem hfield)

/-- A name that comes later in a list without repeats is not there before. -/
theorem lookup_eq_none_of_nodup {fields : Fields} {names : List String}
    (h : (fields.map Prod.fst ++ name :: names).Nodup) : fields.lookup name = none := by
  refine lookup_eq_none fun hmem => ?_
  exact (List.nodup_append.mp h).2.2 name hmem name List.mem_cons_self rfl

/-- Assignments are carried out in the open table, if their names are new in it. -/
theorem foldlM_assign (a : Assembly) (fields : Fields)
    (hnew : ((a.fields ++ fields).map Prod.fst).Nodup) :
    (fields.map fun field => Statement.assign [field.1] field.2).foldlM Assembly.step a =
      some { a with fields := a.fields ++ fields } := by
  induction fields generalizing a with
  | nil => simp
  | cons field fields ih =>
    have hlookup : a.fields.lookup field.1 = none :=
      lookup_eq_none_of_nodup (by simpa using hnew)
    have hstep : a.step (.assign [field.1] field.2) =
        some { a with fields := a.fields ++ [field] } := by
      simp [Assembly.step, assign, changeAt, assignIn, Origin.isDotted, hlookup]
    rw [List.map_cons, List.foldlM_cons, hstep]
    have hrest := ih { a with fields := a.fields ++ [field] } (by simpa using hnew)
    simpa using hrest

theorem close_open {whole fields : Fields} (hnew : whole.lookup name = none) :
    Assembly.close ⟨whole, [name], false, fields⟩ =
      some (whole ++ [(name, .table .stated fields)]) := by
  simp [Assembly.close, changeAt, Assembly.putTable, hnew]

/-- A table with a header is open when its statements have been carried out, and what was open
before has been put into the whole. -/
theorem foldlM_statementsOf {a : Assembly} {whole : Fields} (hclose : a.close = some whole)
    (table : String × Fields) (hnew : whole.lookup table.1 = none)
    (hfields : (table.2.map Prod.fst).Nodup) :
    (statementsOf table).foldlM Assembly.step a = some ⟨whole, [table.1], false, table.2⟩ := by
  have hheader : a.step (.header [table.1]) = some ⟨whole, [table.1], false, []⟩ := by
    simp [Assembly.step, hclose, changeAt, Assembly.takeOut, Assembly.fieldsAt, hnew]
  rw [statementsOf, List.foldlM_cons, hheader]
  have hassign := foldlM_assign ⟨whole, [table.1], false, []⟩ table.2 (by simpa using hfields)
  simpa using hassign

/-- Tables behind what is there already are put into it one after the other. -/
theorem foldlM_tables {a : Assembly} {whole : Fields} (hclose : a.close = some whole)
    (tables : List (String × Fields))
    (hnames : (whole.map Prod.fst ++ tables.map Prod.fst).Nodup)
    (hfields : ∀ table ∈ tables, (table.2.map Prod.fst).Nodup) :
    ((tables.flatMap statementsOf).foldlM Assembly.step a).bind Assembly.close =
      some (whole ++ tables.map fun table => (table.1, .table .stated table.2)) := by
  induction tables generalizing a whole with
  | nil => simpa using hclose
  | cons table tables ih =>
    have hnew : whole.lookup table.1 = none := lookup_eq_none_of_nodup hnames
    have hclosed : Assembly.close ⟨whole, [table.1], false, table.2⟩ = _ := close_open hnew
    rw [List.flatMap_cons, List.foldlM_append,
      foldlM_statementsOf hclose table hnew (hfields table List.mem_cons_self)]
    have hrest := ih hclosed (by simpa using hnames)
      fun t ht => hfields t (List.mem_cons_of_mem _ ht)
    simpa using hrest

/-- Assignments and tables behind them mean the table that has both in it. -/
theorem assemble_tables (top : Fields) (tables : List (String × Fields))
    (hnames : (top.map Prod.fst ++ tables.map Prod.fst).Nodup)
    (hfields : ∀ table ∈ tables, (table.2.map Prod.fst).Nodup) :
    assemble ((top.map fun field => .assign [field.1] field.2) ++ tables.flatMap statementsOf) =
      some (top ++ tables.map fun table => (table.1, .table .stated table.2)) := by
  have htop := foldlM_assign {} top (List.nodup_append.mp hnames).1
  rw [assemble, List.foldlM_append, htop]
  have htables := foldlM_tables (a := { fields := top }) rfl tables hnames hfields
  simpa using htables

/-! ## Whole texts -/

/-- A field as it is written, with the value that it has. -/
structure Field where
  name : String
  written : String
  value : Toml

/-- The line of a field. -/
def Field.line (field : Field) : Line := .assign field.name field.written field.value

/-- The name of a field needs no quotes, and its value is spelled by what is written for it. -/
def Field.Sound (field : Field) : Prop := field.line.Sound

/-- The name of a field and its value. -/
def Field.pair (field : Field) : String × Toml := (field.name, field.value)

/-- The lines of a table with a header. -/
def linesOf (table : String × List Field) : List Line :=
  .blank :: .header table.1 :: table.2.map Field.line

/-- The lines of fields with tables behind them. -/
def linesOfAll (top : List Field) (tables : List (String × List Field)) : List Line :=
  top.map Field.line ++ tables.flatMap linesOf

theorem sound_linesOfAll {top : List Field} {tables : List (String × List Field)}
    (htop : ∀ field ∈ top, field.Sound)
    (htables : ∀ table ∈ tables, IsBare table.1 ∧ ∀ field ∈ table.2, field.Sound) :
    ∀ line ∈ linesOfAll top tables, line.Sound := by
  intro line hline
  rcases List.mem_append.mp hline with hline | hline
  · obtain ⟨field, hfield, rfl⟩ := List.mem_map.mp hline
    exact htop field hfield
  · obtain ⟨table, htable, hline⟩ := List.mem_flatMap.mp hline
    obtain ⟨hname, hfields⟩ := htables table htable
    rcases List.mem_cons.mp hline with rfl | hline
    · trivial
    · rcases List.mem_cons.mp hline with rfl | hline
      · exact hname
      · obtain ⟨field, hfield, rfl⟩ := List.mem_map.mp hline
        exact hfields field hfield

theorem length_le_length_chars (lines : List Line) :
    lines.length ≤ (lines.flatMap Line.chars).length := by
  refine length_le_length_flatMap (fun line => ?_) lines
  cases line with
  | blank | header name => simp [Line.chars]
  | assign name written value => simp [Line.chars, assignment]

/-- No mark stands in front of lines. -/
theorem dropMark_lines {lines : List Line} (h : ∀ line ∈ lines, line.Sound) :
    dropMark (lines.flatMap Line.chars) = lines.flatMap Line.chars := by
  cases lines with
  | nil => rfl
  | cons line lines =>
    have hline := h line List.mem_cons_self
    rw [List.flatMap_cons]
    cases line with
    | blank | header name => rfl
    | assign name written value =>
      obtain ⟨c, more, heq, hfirst⟩ := hline.1.exists_eq
      have hmark : c ≠ byteOrderMark := fun hc => hfirst (by simp [hc])
      simp [Line.chars, assignment, heq, dropMark, hmark]

/-- What the lines of fields with tables behind them state. -/
theorem filterMap_linesOfAll (top : List Field) (tables : List (String × List Field)) :
    (linesOfAll top tables).filterMap Line.statement? =
      ((top.map Field.pair).map fun field => .assign [field.1] field.2) ++
        (tables.map fun table => (table.1, table.2.map Field.pair)).flatMap statementsOf := by
  have hfields (fields : List Field) : (fields.map Field.line).filterMap Line.statement? =
      (fields.map Field.pair).map fun field => .assign [field.1] field.2 := by
    rw [List.filterMap_map, List.map_map]
    exact congrFun List.filterMap_eq_map fields
  rw [linesOfAll, List.filterMap_append, hfields, List.filterMap_flatMap, List.flatMap_map]
  congr 2
  funext table
  simp only [linesOf, statementsOf, List.filterMap_cons, Line.statement?, hfields]

/-- A text that is written as fields with tables behind them means the table of all of them. -/
theorem parse?_linesOfAll {text : String} {top : List Field} {tables : List (String × List Field)}
    (htext : text.toList = (linesOfAll top tables).flatMap Line.chars)
    (hsound : ∀ line ∈ linesOfAll top tables, line.Sound)
    (hnames : (top.map Field.name ++ tables.map Prod.fst).Nodup)
    (hfields : ∀ table ∈ tables, (table.2.map Field.name).Nodup) :
    parse? text =
      some (top.map Field.pair ++
        tables.map fun table => (table.1, .table .stated (table.2.map Field.pair))) := by
  have hlength := length_le_length_chars (linesOfAll top tables)
  have hassemble := assemble_tables (top.map Field.pair)
    (tables.map fun table => (table.1, table.2.map Field.pair))
    (by simpa [Function.comp_def, Field.pair] using hnames) fun pairs hpairs => by
      obtain ⟨table, htable, rfl⟩ := List.mem_map.mp hpairs
      simpa [Function.comp_def, Field.pair] using hfields table htable
  rw [parse?, htext, dropMark_lines hsound, readStatements_lines hsound (by omega),
    Option.bind_some, filterMap_linesOfAll, hassemble, List.map_map]
  rfl

end IgnoreAtlas.Toml
