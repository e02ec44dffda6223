import ParamSchema.Proofs.Text.Pieces
import ParamSchema.Report.Table

/-!
The table of parameters is rectangular. A line of it is four columns between five bars, and no bar
inside a column stands open: each one stands right behind a backslash (`Report.Guarded`). All lines
have the same length, since the widths leave room for every cell, and no cell breaks its line. So
the lines of the text are those of the table, and each of them is cut at its open bars into the
cells that it was made of (`Report.table_is_rectangular`).
-/

namespace ParamSchema.Report

/-! ### Open bars -/

/-- The number of bars that do not stand right behind a backslash. -/
def openBars (before : Option CodePoint) : Text → Nat
  | [] => 0
  | c :: t =>
    (if c = chr '|' ∧ before ≠ some (chr '\\') then 1 else 0) + openBars (some c) t

/-- The parts of a line between its open bars. -/
def columns (before : Option CodePoint) : Text → List Text
  | [] => [[]]
  | c :: t =>
    if c = chr '|' ∧ before ≠ some (chr '\\') then [] :: columns (some c) t
    else (columns (some c) t).modifyHead (c :: ·)

theorem length_columns (before : Option CodePoint) (t : Text) :
    (columns before t).length = openBars before t + 1 := by
  induction t generalizing before with
  | nil => rfl
  | cons c t ih =>
    rw [columns, openBars]
    split_ifs
    · rw [List.length_cons, ih]
      omega
    · rw [List.length_modifyHead, ih]
      omega

/-- Every bar stands right behind a backslash. -/
def Guarded (t : Text) : Prop := ∀ a b, t = a ++ chr '|' :: b → a.getLast? = some (chr '\\')

theorem guarded_of_not_mem {t : Text} (h : chr '|' ∉ t) : Guarded t := by
  rintro a b rfl
  exact absurd (List.mem_append_right a List.mem_cons_self) h

theorem Guarded.append {s t : Text} (hs : Guarded s) (ht : Guarded t) : Guarded (s ++ t) := by
  intro a b split
  rcases List.append_eq_append_iff.mp split with ⟨more, rfl, behind⟩ | ⟨more, before, behind⟩
  · rw [List.getLast?_append, ht more b behind]
    rfl
  · cases more with
    | nil =>
      -- a bar in front of the second text would stand behind nothing
      have := ht [] b behind.symm
      cases this
    | cons c more =>
      obtain ⟨rfl, -⟩ := List.cons.inj behind
      exact hs a more before

/-- The last code point behind another one, and in front of all others. -/
theorem last_cons (c : CodePoint) (t : Text) (before : Option CodePoint) :
    (c :: t).getLast?.or before = t.getLast?.or (some c) := by
  rw [List.getLast?_cons]
  cases t.getLast? <;> rfl

/-- Without an open bar a text is no more than the beginning of a column. -/
theorem columns_append {s : Text} (before : Option CodePoint) (t : Text)
    (h : ∀ a b, s = a ++ chr '|' :: b → a.getLast?.or before = some (chr '\\')) :
    columns before (s ++ t) = (columns (s.getLast?.or before) t).modifyHead (s ++ ·) := by
  induction s generalizing before with
  | nil => cases eq : columns before t <;> simp [eq]
  | cons c s ih =>
    have closed : ¬ (c = chr '|' ∧ before ≠ some (chr '\\')) := by
      rintro ⟨rfl, stands⟩
      exact stands (h [] s rfl)
    have rest := ih (some c) fun a b split => by
      rw [← last_cons c a before]
      exact h (c :: a) b (congrArg (c :: ·) split)
    rw [List.cons_append, columns, if_neg closed, rest, last_cons, List.modifyHead_modifyHead]
    rfl

/-! ### Columns between bars -/

/-- Columns with a bar before each of them and one behind the last. -/
def bordered (parts : List Text) : Text := chr '|' :: parts.flatMap (· ++ [chr '|'])

/-- A text that no bar cuts, and that leaves the bar behind it open. -/
structure IsColumn (t : Text) : Prop where
  guarded : Guarded t
  last : t.getLast? ≠ some (chr '\\')

theorem columns_flatMap {parts : List Text} (h : ∀ part ∈ parts, IsColumn part) :
    columns (some (chr '|')) (parts.flatMap (· ++ [chr '|'])) = parts ++ [[]] := by
  induction parts with
  | nil => rfl
  | cons part parts ih =>
    obtain ⟨guarded, last⟩ := h part List.mem_cons_self
    have closed (a b : Text) (split : part = a ++ chr '|' :: b) :
        a.getLast?.or (some (chr '|')) = some (chr '\\') := by
      rw [guarded a b split]
      rfl
    have stands : part.getLast?.or (some (chr '|')) ≠ some (chr '\\') := by
      cases eq : part.getLast? with
      | none => decide
      | some c => rwa [eq] at last
    rw [List.flatMap_cons, List.append_assoc, columns_append _ _ closed, List.singleton_append,
      columns, if_pos ⟨rfl, stands⟩, ih fun p mem => h p (List.mem_cons_of_mem _ mem)]
    simp

/-- A line is cut at its open bars into its columns. -/
theorem columns_bordered {parts : List Text} (h : ∀ part ∈ parts, IsColumn part) :
    columns none (bordered parts) = [] :: (parts ++ [[]]) := by
  have first : (none : Option CodePoint) ≠ some (chr '\\') := by decide
  rw [bordered, columns, if_pos ⟨rfl, first⟩, columns_flatMap h]

theorem openBars_bordered {parts : List Text} (h : ∀ part ∈ parts, IsColumn part) :
    openBars none (bordered parts) = parts.length + 1 := by
  have cut := length_columns none (bordered parts)
  rw [columns_bordered h, List.length_cons, List.length_append, List.length_singleton] at cut
  omega

/-! ### Cells -/

/-- What stands in a cell for a code point. -/
def shown (c : CodePoint) : Text :=
  if c = chr '|' then txt "\\|" else if c = chr '\n' then txt " " else [c]

theorem cell_eq (t : Text) : cell t = Text.trim (t.flatMap shown) := by
  rw [cell, Text.replace, Text.replace, List.flatMap_assoc]
  congr 2
  funext c
  by_cases bar : c = chr '|'
  · subst bar
    decide
  · by_cases feed : c = chr '\n'
    · subst feed
      decide
    · simp [shown, bar, feed]

theorem guarded_shown (c : CodePoint) : Guarded (shown c) := by
  rw [shown]
  split_ifs with bar feed
  · intro a b split
    cases a with
    | nil => exact absurd (List.cons.inj split).1 (by decide)
    | cons d a =>
      obtain ⟨rfl, rest⟩ := List.cons.inj split
      cases a with
      | nil => rfl
      | cons e a => simpa using congrArg List.length rest
  · exact guarded_of_not_mem (by decide)
  · exact guarded_of_not_mem (by simpa using Ne.symm bar)

theorem feed_not_mem_shown (c : CodePoint) : chr '\n' ∉ shown c := by
  rw [shown]
  split_ifs with bar feed
  · decide
  · decide
  · simpa using Ne.symm feed

theorem Guarded.trim {t : Text} (h : Guarded t) : Guarded (Text.trim t) := by
  obtain ⟨a, b, split, blank, -⟩ := Text.exists_blanks t
  intro x y inside
  have last := h (a ++ x) (y ++ b) (by rw [split, inside]; simp)
  rw [List.getLast?_append] at last
  cases eq : x.getLast? with
  | some c => rwa [eq] at last
  | none =>
    -- then the backslash would be white space
    rw [eq, Option.none_or] at last
    have := blank _ (List.mem_of_getLast? last)
    exact absurd this (by decide)

theorem guarded_cell (t : Text) : Guarded (cell t) := by
  rw [cell_eq]
  apply Guarded.trim
  induction t with
  | nil => exact guarded_of_not_mem (List.not_mem_nil)
  | cons c t ih => exact (guarded_shown c).append ih

theorem feed_not_mem_cell (t : Text) : chr '\n' ∉ cell t := by
  rw [cell_eq]
  intro mem
  obtain ⟨a, b, split, -, -⟩ := Text.exists_blanks (t.flatMap shown)
  have whole : chr '\n' ∈ t.flatMap shown := by
    rw [split]
    simp [mem]
  obtain ⟨c, -, feed⟩ := List.mem_flatMap.mp whole
  exact feed_not_mem_shown c feed

/-! ### Lines -/

/-- The cells of a line, from left to right. -/
def Cells.toList (c : Cells) : List Text := [c.name, c.type, c.required, c.default]

/-- A text that can stand in a line of the table: it has no open bar, no line feed and no white
space around it. -/
structure IsCell (t : Text) : Prop where
  guarded : Guarded t
  line : chr '\n' ∉ t
  first : ∀ c ∈ t.head?, c.isBlank = false
  last : ∀ c ∈ t.getLast?, c.isBlank = false

theorem isCell_cell (t : Text) : IsCell (cell t) := by
  obtain ⟨first, last⟩ := Text.isBlank_ends_trim (t.flatMap shown)
  rw [← cell_eq] at first last
  exact ⟨guarded_cell t, feed_not_mem_cell t, first, last⟩

theorem isCell_headings : ∀ t ∈ headings.toList, IsCell t := by
  have plain : ∀ t ∈ headings.toList, chr '|' ∉ t ∧ chr '\n' ∉ t ∧
      (∀ c ∈ t.head?, c.isBlank = false) ∧ ∀ c ∈ t.getLast?, c.isBlank = false := by decide
  intro t mem
  obtain ⟨bar, feed, first, last⟩ := plain t mem
  exact ⟨guarded_of_not_mem bar, feed, first, last⟩

theorem isCell_cellsOf (defaults : Table Text Text) (row : Row) :
    ∀ t ∈ (cellsOf defaults row).toList, IsCell t := by
  have marks : ∀ b : Bool, let t := if b then [] else txt "x"
      chr '|' ∉ t ∧ chr '\n' ∉ t ∧ (∀ c ∈ t.head?, c.isBlank = false) ∧
        ∀ c ∈ t.getLast?, c.isBlank = false := by decide
  intro t mem
  simp only [Cells.toList, cellsOf, List.mem_cons, List.not_mem_nil, or_false] at mem
  rcases mem with rfl | rfl | rfl | rfl
  · exact isCell_cell _
  · exact isCell_cell _
  · obtain ⟨bar, feed, first, last⟩ := marks row.optional
    exact ⟨guarded_of_not_mem bar, feed, first, last⟩
  · exact isCell_cell _

/-- The columns of a line. -/
def lineColumns (w : Widths) (c : Cells) : List Text :=
  [padded w.name c.name, centred w.type c.type, centred w.required c.required,
    centred w.default c.default].map fun t => txt " " ++ t ++ txt " "

theorem line_eq (w : Widths) (c : Cells) : line w c = bordered (lineColumns w c) := by
  simp [line, bordered, lineColumns, txt, Text.ofString, Text.ofChars]

/-- The columns of the line below the headings. -/
def separatorColumns (w : Widths) : List Text :=
  [txt ":" ++ dashes w.name ++ txt "-", txt ":" ++ dashes w.type ++ txt ":",
    txt ":" ++ dashes w.required ++ txt ":", txt ":" ++ dashes w.default ++ txt ":"]

theorem separator_eq (w : Widths) : separator w = bordered (separatorColumns w) := by
  simp [separator, bordered, separatorColumns, txt, Text.ofString, Text.ofChars]

/-- A text between spaces, of which one at least is behind it. -/
def IsSpaced (t inside : Text) : Prop := ∃ m n, t = spaces m ++ (inside ++ spaces (n + 1))

theorem spaces_add (m n : Nat) : spaces (m + n) = spaces m ++ spaces n :=
  (List.replicate_append_replicate ..).symm

theorem isSpaced_lineColumns (w : Widths) (c : Cells) :
    List.Forall₂ IsSpaced (lineColumns w c) c.toList := by
  have between (m n : Nat) (t : Text) :
      IsSpaced (txt " " ++ (spaces m ++ t ++ spaces n) ++ txt " ") t := by
    refine ⟨1 + m, n, ?_⟩
    rw [spaces_add 1, spaces_add n]
    simp only [List.append_assoc]
    rfl
  exact .cons (between 0 _ _) (.cons (between ..) (.cons (between ..) (.cons (between ..) .nil)))

theorem isBlank_of_mem_spaces {n : Nat} : ∀ c ∈ spaces n, c.isBlank = true := by
  intro c mem
  rw [List.eq_of_mem_replicate mem]
  decide

namespace IsSpaced

variable {t inside : Text} (h : IsSpaced t inside)

include h

theorem trim (isCell : IsCell inside) : Text.trim t = inside := by
  obtain ⟨m, n, rfl⟩ := h
  exact Text.trim_blanks isBlank_of_mem_spaces isBlank_of_mem_spaces isCell.first isCell.last

theorem isColumn (isCell : IsCell inside) : IsColumn t := by
  obtain ⟨m, n, rfl⟩ := h
  have plain (k : Nat) : Guarded (spaces k) := guarded_of_not_mem fun mem =>
    absurd (List.eq_of_mem_replicate mem) (by decide)
  refine ⟨(plain m).append (isCell.guarded.append (plain _)), ?_⟩
  rw [spaces_add n 1, ← List.append_assoc, ← List.append_assoc, List.getLast?_append]
  exact fun last => absurd (Option.some.inj last) (by decide)

theorem feed_not_mem (isCell : IsCell inside) : chr '\n' ∉ t := by
  obtain ⟨m, n, rfl⟩ := h
  have plain (k : Nat) : chr '\n' ∉ spaces k := fun mem =>
    absurd (List.eq_of_mem_replicate mem) (by decide)
  simp only [List.mem_append, not_or]
  exact ⟨plain m, isCell.line, plain _⟩

end IsSpaced

theorem not_mem_separatorColumns (w : Widths) {c : CodePoint} (h : c ≠ chr ':' ∧ c ≠ chr '-') :
    ∀ t ∈ separatorColumns w, c ∉ t := by
  have dash (n : Nat) : c ∉ dashes n := fun mem => h.2 (List.eq_of_mem_replicate mem)
  have colon : c ∉ txt ":" := by simpa [txt, Text.ofString, Text.ofChars] using h.1
  have last : c ∉ txt "-" := by simpa [txt, Text.ofString, Text.ofChars] using h.2
  simp [separatorColumns, dash, colon, last]

theorem isColumn_separatorColumns (w : Widths) : ∀ t ∈ separatorColumns w, IsColumn t := by
  intro t mem
  refine ⟨guarded_of_not_mem (not_mem_separatorColumns w (by decide) t mem), fun last => ?_⟩
  exact not_mem_separatorColumns w (by decide) t mem (List.mem_of_getLast? last)

/-! ### Widths -/

/-- There is room for every cell of a line. -/
structure Widths.Holds (w : Widths) (c : Cells) : Prop where
  name : c.name.length ≤ w.name
  type : c.type.length ≤ w.type
  required : c.required.length ≤ w.required
  default : c.default.length ≤ w.default

theorem Widths.holds_fit (w : Widths) (c : Cells) : (w.fit c).Holds c :=
  ⟨Nat.le_max_right .., Nat.le_max_right .., Nat.le_max_right .., Nat.le_max_right ..⟩

theorem Widths.Holds.fit {w : Widths} {c : Cells} (h : w.Holds c) (c' : Cells) :
    (w.fit c').Holds c :=
  ⟨h.name.trans (Nat.le_max_left ..), h.type.trans (Nat.le_max_left ..),
    h.required.trans (Nat.le_max_left ..), h.default.trans (Nat.le_max_left ..)⟩

theorem Widths.holds_foldl {lines : List Cells} {w : Widths} {c : Cells}
    (h : w.Holds c ∨ c ∈ lines) : (lines.foldl Widths.fit w).Holds c := by
  induction lines generalizing w with
  | nil => exact h.resolve_right List.not_mem_nil
  | cons c' lines ih =>
    refine ih ?_
    rcases h with holds | mem
    · exact .inl (holds.fit c')
    · rcases List.mem_cons.mp mem with rfl | mem
      · exact .inl (w.holds_fit c)
      · exact .inr mem

theorem holds_widths {lines : List Cells} {c : Cells} (h : c = headings ∨ c ∈ lines) :
    (widths lines).Holds c := by
  refine Widths.holds_foldl (h.imp_left ?_)
  rintro rfl
  exact Widths.holds_fit _ _

theorem length_padded {width : Nat} {t : Text} (h : t.length ≤ width) :
    (padded width t).length = width := by
  rw [padded, List.length_append, spaces, List.length_replicate]
  omega

theorem length_centred {width : Nat} {t : Text} (h : t.length ≤ width) :
    (centred width t).length = width := by
  simp only [centred, spaces, List.length_append, List.length_replicate]
  omega

/-- The length of every line in a table of the given widths. -/
def Widths.total (w : Widths) : Nat := w.name + w.type + w.required + w.default + 13

theorem length_line {w : Widths} {c : Cells} (h : w.Holds c) : (line w c).length = w.total := by
  simp only [line, List.length_append, length_padded h.name, length_centred h.type,
    length_centred h.required, length_centred h.default, txt, Text.ofString, Text.ofChars,
    List.length_map, Widths.total]
  show 2 + w.name + 3 + w.type + 3 + w.required + 3 + w.default + 2 = _
  omega

theorem length_separator (w : Widths) : (separator w).length = w.total := by
  simp only [separator, dashes, List.length_append, List.length_replicate, txt, Text.ofString,
    Text.ofChars, List.length_map, Widths.total]
  show 2 + w.name + 3 + w.type + 3 + w.required + 3 + w.default + 2 = _
  omega

/-! ### The table -/

theorem feed_not_mem_bordered {parts : List Text} (h : ∀ part ∈ parts, chr '\n' ∉ part) :
    chr '\n' ∉ bordered parts := by
  have bar : chr '\n' ≠ chr '|' := by decide
  simp only [bordered, List.mem_cons, List.mem_flatMap, List.mem_append, List.not_mem_nil, or_false,
    not_or, not_exists, not_and]
  exact ⟨bar, fun part mem => ⟨h part mem, bar⟩⟩

theorem columns_of_spaced {ts cells : List Text} (spaced : List.Forall₂ IsSpaced ts cells)
    (h : ∀ t ∈ cells, IsCell t) :
    ts.map Text.trim = cells ∧ ∀ t ∈ ts, IsColumn t ∧ chr '\n' ∉ t := by
  induction spaced with
  | nil => exact ⟨rfl, fun t mem => absurd mem List.not_mem_nil⟩
  | @cons t inside ts cells first _ ih =>
    have isCell := h inside List.mem_cons_self
    obtain ⟨trims, columns⟩ := ih fun t mem => h t (List.mem_cons_of_mem _ mem)
    refine ⟨?_, List.forall_mem_cons.mpr
      ⟨⟨first.isColumn isCell, first.feed_not_mem isCell⟩, columns⟩⟩
    rw [List.map_cons, first.trim isCell, trims]

/-- A line of cells is a single one, and its columns are the cells. -/
theorem line_of_cells {c : Cells} (w : Widths) (h : ∀ t ∈ c.toList, IsCell t) :
    openBars none (line w c) = 5 ∧ chr '\n' ∉ line w c ∧
      (columns none (line w c)).map Text.trim = [] :: (c.toList ++ [[]]) := by
  obtain ⟨trims, parts⟩ := columns_of_spaced (isSpaced_lineColumns w c) h
  have columns := columns_bordered fun t mem => (parts t mem).1
  rw [line_eq]
  refine ⟨openBars_bordered fun t mem => (parts t mem).1,
    feed_not_mem_bordered fun t mem => (parts t mem).2, ?_⟩
  rw [columns, List.map_cons, List.map_append, trims]
  rfl

theorem separator_of_widths (w : Widths) :
    openBars none (separator w) = 5 ∧ chr '\n' ∉ separator w := by
  rw [separator_eq]
  exact ⟨openBars_bordered (isColumn_separatorColumns w),
    feed_not_mem_bordered (not_mem_separatorColumns w (by decide))⟩

theorem feed_not_mem_tableLines (rows : List Row) (defaults : Table Text Text) :
    ∀ line ∈ tableLines rows defaults, chr '\n' ∉ line := by
  intro t mem
  rcases List.mem_cons.mp mem with rfl | mem
  · exact (line_of_cells _ isCell_headings).2.1
  · rcases List.mem_cons.mp mem with rfl | mem
    · exact (separator_of_widths _).2
    · obtain ⟨c, known, rfl⟩ := List.mem_map.mp mem
      obtain ⟨row, -, rfl⟩ := List.mem_map.mp known
      exact (line_of_cells _ (isCell_cellsOf defaults row)).2.1

/-- A paragraph of one line in front of others. -/
theorem splitOn_paragraph {front : Text} (h : chr '\n' ∉ front) (t : Text) :
    Text.splitOn (chr '\n') (front ++ txt "\n\n" ++ t) =
      front :: [] :: Text.splitOn (chr '\n') t := by
  have feeds : front ++ txt "\n\n" ++ t = front ++ chr '\n' :: ([] ++ chr '\n' :: t) := by
    simp [txt, Text.ofString, Text.ofChars]
  rw [feeds, Text.splitOn_append, Text.splitOn_append, Text.splitOn_of_not_mem h]
  rfl

/-- The lines of the text are a title, the lines of the table and those of the descriptions. -/
theorem splitOn_table {rows : List Row} (defaults : Table Text Text) (filled : rows ≠ []) :
    ∃ rest, Text.splitOn (chr '\n') (table rows defaults) =
        txt "## Params" :: [] :: (tableLines rows defaults ++ rest) ∧
      (rest = [] ∨
        ∃ descriptions, rest = [] :: txt "### Params description" :: [] :: descriptions) := by
  have lines : Text.splitOn (chr '\n') (Text.joinWith (txt "\n") (tableLines rows defaults)) =
      tableLines rows defaults :=
    Text.splitOn_joinWith (List.cons_ne_nil _ _) (feed_not_mem_tableLines rows defaults)
  have title : txt "## Params\n\n" = txt "## Params" ++ txt "\n\n" := by decide
  have body : (if rows.isEmpty then tableLines rows defaults ++ [[]]
      else tableLines rows defaults) = tableLines rows defaults := if_neg (by simpa using filled)
  simp only [table, body, title]
  rw [List.append_assoc, splitOn_paragraph (by decide)]
  split_ifs
  · refine ⟨[], ?_, .inl rfl⟩
    rw [List.append_nil, List.append_nil, lines]
  · have subtitle (t : Text) : txt "\n\n### Params description\n\n" ++ t =
        chr '\n' :: ([] ++ chr '\n' :: (txt "### Params description" ++ txt "\n\n" ++ t)) := by
      simp [txt, Text.ofString, Text.ofChars]
    refine ⟨[] :: txt "### Params description" :: [] :: Text.splitOn (chr '\n')
      (Text.joinWith (txt "\n") (rows.filterMap (description? defaults))), ?_, .inr ⟨_, rfl⟩⟩
    rw [subtitle, Text.splitOn_append, Text.splitOn_append, splitOn_paragraph (by decide), lines]
    rfl

/-- The text of a table with rows has a heading, a line below it and one line for each row. All of
them are equally long and have five open bars, and between these stand the cells. -/
theorem table_is_rectangular (rows : List Row) (defaults : Table Text Text) (filled : rows ≠ []) :
    ∃ header below rest, ∃ body : List Text,
      Text.splitOn (chr '\n') (table rows defaults) =
        txt "## Params" :: [] :: header :: below :: (body ++ rest) ∧
      (rest = [] ∨
        ∃ descriptions, rest = [] :: txt "### Params description" :: [] :: descriptions) ∧
      body.length = rows.length ∧
      (∀ line ∈ header :: below :: body, line.length = header.length ∧ openBars none line = 5) ∧
      (columns none header).map Text.trim =
        [[], txt "Name", txt "Type", txt "Required", txt "Default", []] ∧
      body.map (fun line => (columns none line).map Text.trim) = rows.map fun row =>
        [[], cell row.name, cell row.type, if row.optional then [] else txt "x",
          cell ((defaults.get? row.name).getD []), []] := by
  obtain ⟨rest, split, tail⟩ := splitOn_table defaults filled
  have heading := line_of_cells (widths (rows.map (cellsOf defaults))) isCell_headings
  have rowLine (row : Row) :=
    line_of_cells (widths (rows.map (cellsOf defaults))) (isCell_cellsOf defaults row)
  have holds : (widths (rows.map (cellsOf defaults))).Holds headings := holds_widths (.inl rfl)
  have total := length_line holds
  refine ⟨_, _, rest, _, split, tail, ?_, ?_, heading.2.2, ?_⟩
  · rw [List.length_map, List.length_map]
  · intro t mem
    rw [total]
    rcases List.mem_cons.mp mem with rfl | mem
    · exact ⟨total, heading.1⟩
    · rcases List.mem_cons.mp mem with rfl | mem
      · exact ⟨length_separator _, (separator_of_widths _).1⟩
      · obtain ⟨c, known, rfl⟩ := List.mem_map.mp mem
        obtain ⟨row, -, rfl⟩ := List.mem_map.mp known
        exact ⟨length_line (holds_widths (.inr known)), (rowLine row).1⟩
  · rw [List.map_map, List.map_map]
    exact List.map_congr_left fun row _ => (rowLine row).2.2

/-- Cells with bars, a line feed and backslashes in front of bars stay in their columns, beside
shorter and longer cells. -/
theorem table_is_rectangular_escaped :
    let rows : List Row := [⟨txt "a|\nb", txt "s\\", false, [], none, none⟩,
      ⟨txt "n", txt "boolean | number", true, [], none, none⟩,
      ⟨txt "directory", [], false, [], none, none⟩]
    let defaults : Table Text Text := [(txt "a|\nb", txt "\\|"), (txt "directory", txt "\"/w\"")]
    rows ≠ [] ∧ ∃ header below rest, ∃ body : List Text,
      Text.splitOn (chr '\n') (table rows defaults) =
        txt "## Params" :: [] :: header :: below :: (body ++ rest) ∧
      body.length = 3 ∧
      (∀ line ∈ header :: below :: body, line.length = header.length ∧ openBars none line = 5) ∧
      body.map (fun line => (columns none line).map Text.trim) =
        [[[], txt "a\\| b", txt "s\\", txt "x", txt "\\\\|", []],
          [[], txt "n", txt "boolean \\| number", [], [], []],
          [[], txt "directory", [], txt "x", txt "\"/w\"", []]] := by
  intro rows defaults
  refine ⟨List.cons_ne_nil _ _, ?_⟩
  obtain ⟨header, below, rest, body, split, -, three, lines, -, cells⟩ :=
    table_is_rectangular rows defaults (List.cons_ne_nil _ _)
  refine ⟨header, below, rest, body, split, three, lines, ?_⟩
  rw [cells]
  decide +kernel

end ParamSchema.Report
