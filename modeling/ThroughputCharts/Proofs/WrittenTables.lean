import ThroughputCharts.Proofs.CsvReading

/-!
# Tables written in any form

A table can be written in many ways: each field in quotes or bare, lines ended by either character or
by both, blank lines anywhere, the last line end missing, a byte order mark in front.  The reader gives
the same rows for all of them.
-/

namespace ThroughputCharts
namespace Csv

/-- The ways to end a line. -/
inductive LineEnd
  | lineFeed
  | carriageReturn
  | both
  deriving DecidableEq

def LineEnd.text : LineEnd → List Char
  | .lineFeed => ['\n']
  | .carriageReturn => ['\r']
  | .both => ['\r', '\n']

/-- Lines with nothing in them. -/
def blankLines (ends : List LineEnd) : List Char :=
  ends.flatMap LineEnd.text

/-- The character that may open a table as its byte order mark. -/
def markChar : Char := '\uFEFF'

/-- A row is written field by field with commas in between.  Only a single empty field that is bare
would leave nothing to tell the row from a blank line. -/
def WritesRow (fields : List (List Char)) (text : List Char) : Prop :=
  ∃ texts, List.Forall₂ WritesField fields texts ∧ texts ≠ [[]] ∧ text = [','].intercalate texts

/-- Rows are written one after the other, each with a line end and blank lines behind it.  The last one
may have nothing behind it. -/
inductive WritesRows : List (List (List Char)) → List Char → Prop
  | none : WritesRows [] []
  | unended {fields : List (List Char)} {text : List Char} (row : WritesRow fields text) :
      WritesRows [fields] text
  | ended {fields : List (List Char)} {text rest : List Char} {rows : List (List (List Char))}
      (row : WritesRow fields text) (lineEnd : LineEnd) (blank : List LineEnd)
      (others : WritesRows rows rest) :
      WritesRows (fields :: rows) (text ++ (lineEnd.text ++ blankLines blank) ++ rest)

/-- A table is written as its rows behind an optional mark and blank lines.  What would itself be read
as a mark cannot open the rows. -/
inductive WritesTable (table : List (List (List Char))) : List Char → Prop
  | intro {body : List Char} (marked : Bool) (blank : List LineEnd) (rows : WritesRows table body)
      (plain : body.head? ≠ some markChar) :
      WritesTable table ((if marked then [markChar] else []) ++ blankLines blank ++ body)

section Bytes

theorem eq_of_utf8EncodeChar_append_eq {first second : Char} {firstRest secondRest : List UInt8}
    (same : String.utf8EncodeChar first ++ firstRest =
      String.utf8EncodeChar second ++ secondRest) : first = second := by
  rcases Nat.lt_trichotomy first.toNat second.toNat with less | equal | greater
  · have bytesLess := Text.utf8EncodeChar_append_lt less firstRest secondRest
    rw [same] at bytesLess
    exact absurd bytesLess (List.lt_irrefl _)
  · exact Char.toNat_inj.mp equal
  · have bytesGreater := Text.utf8EncodeChar_append_lt greater secondRest firstRest
    rw [same] at bytesGreater
    exact absurd bytesGreater (List.lt_irrefl _)

theorem encoded_markChar : String.utf8EncodeChar markChar = byteOrderMark := by
  decide

/-- A text opens with the bytes of a mark only if it opens with the mark. -/
theorem isPrefixOf_encoded {text : List Char} (plain : text.head? ≠ some markChar) :
    byteOrderMark.isPrefixOf (encoded text) = false := by
  rw [Bool.eq_false_iff]
  intro marked
  obtain ⟨rest, split⟩ := List.isPrefixOf_iff_prefix.mp marked
  cases text with
  | nil => simp [byteOrderMark] at split
  | cons char text =>
      rw [encoded_cons, ← encoded_markChar] at split
      apply plain
      rw [List.head?_cons, eq_of_utf8EncodeChar_append_eq split]

theorem isRowEnd_of_mem_blankLines {blank : List LineEnd} {byte : UInt8}
    (member : byte ∈ encoded (blankLines blank)) : isRowEnd byte = true := by
  have endsLine (lineEnd : LineEnd) : (encoded lineEnd.text).all isRowEnd = true := by
    cases lineEnd <;> decide
  obtain ⟨char, inLines, inChar⟩ := List.mem_flatMap.mp member
  obtain ⟨lineEnd, -, inLine⟩ := List.mem_flatMap.mp inLines
  exact List.all_eq_true.mp (endsLine lineEnd) byte (List.mem_flatMap.mpr ⟨char, inLine, inChar⟩)

/-- A line end and blank lines are one byte that ends the row, and more of its kind. -/
theorem exists_encoded_lineEnd (lineEnd : LineEnd) (blank : List LineEnd) :
    ∃ byte bytes, encoded (lineEnd.text ++ blankLines blank) = byte :: bytes ∧
      isRowEnd byte = true ∧ ∀ more ∈ bytes, isRowEnd more = true := by
  have behind : lineEnd.text ++ blankLines blank = blankLines (lineEnd :: blank) := rfl
  obtain ⟨byte, bytes, split⟩ :
      ∃ byte bytes, encoded (lineEnd.text ++ blankLines blank) = byte :: bytes := by
    cases lineEnd <;> exact ⟨_, _, rfl⟩
  have allEnd : ∀ more ∈ byte :: bytes, isRowEnd more = true := by
    intro more member
    rw [← split, behind] at member
    exact isRowEnd_of_mem_blankLines member
  rw [List.forall_mem_cons] at allEnd
  exact ⟨byte, bytes, split, allEnd.1, allEnd.2⟩

end Bytes

namespace ReadState

variable {state : ReadState}

/-- Between rows line ends change nothing. -/
theorem foldl_step_blank (atRow : state.AtRow) {bytes : List UInt8}
    (blank : ∀ byte ∈ bytes, isRowEnd byte = true) :
    bytes.foldl step state = { state with consumed := state.consumed + bytes.length } := by
  induction bytes generalizing state with
  | nil => rfl
  | cons byte bytes induction =>
      rw [List.forall_mem_cons] at blank
      have skipped : state.step byte = { state with consumed := state.consumed + 1 } := by
        simp [step, atRow.1, blank.1]
      have atNext : (state.step byte).AtRow := by
        rw [skipped]
        exact atRow
      rw [List.foldl_cons, induction atNext blank.2, skipped, List.length_cons, Nat.add_assoc,
        Nat.add_comm 1]

/-- A line end that brings the reader between rows can be missing at the end of the table. -/
theorem finish_step_lineFeed (ends : (state.step lineFeed).mode = .between) :
    state.finish = (state.step lineFeed).finish := by
  have isEnd : isRowEnd lineFeed = true := by decide
  cases mode : state.mode with
  | between => simp [finish, step, mode, isEnd]
  | quoted => simp [step, mode, push, lineFeed, quote] at ends
  | fieldStart =>
      rw [step_rowEnd isEnd (by simp [mode]) (by simp [mode])]
      simp [finish, mode, endRow]
  | bare =>
      rw [step_rowEnd isEnd (by simp [mode]) (by simp [mode])]
      simp [finish, mode, endRow]
  | quoteSeen =>
      rw [step_rowEnd isEnd (by simp [mode]) (by simp [mode])]
      simp [finish, mode, endRow]

/-- A written row and what ends it are read into the row. -/
theorem foldl_step_writesRow (atRow : state.AtRow) {fields : List (List Char)} {text : List Char}
    {byte : UInt8} (nonempty : fields ≠ []) (row : WritesRow fields text)
    (ends : isRowEnd byte = true) :
    let final := (encoded text ++ [byte]).foldl step state
    final.AtRow ∧ final.rows = ⟨state.offset, fields.map encoded⟩ :: state.rows := by
  obtain ⟨texts, written, notBlank, rfl⟩ := row
  have atField : state.AtField := ⟨.inl atRow.1, atRow.2.1⟩
  have hasText : texts ≠ [] := by
    rintro rfl
    exact nonempty (List.forall₂_nil_right_iff.mp written)
  rw [foldl_step_row ends atField written hasText fun _ => notBlank]
  exact ⟨⟨rfl, rfl, rfl⟩, by simp [atRow.2.2]⟩

/-- Written rows are read back behind those that were read before. -/
theorem fields_finish_writesRows (atRow : state.AtRow) {table : List (List (List Char))}
    {body : List Char} (nonempty : ∀ fields ∈ table, fields ≠ []) (rows : WritesRows table body) :
    ((encoded body).foldl step state).finish.map Row.fields =
      state.rows.reverse.map Row.fields ++ table.map (List.map encoded) := by
  induction rows generalizing state with
  | none => simp [finish_of_atRow atRow]
  | @unended fields text row =>
      have ends : isRowEnd lineFeed = true := by decide
      obtain ⟨atEnd, read⟩ := foldl_step_writesRow atRow (nonempty fields (by simp)) row ends
      rw [List.foldl_append, List.foldl_cons, List.foldl_nil] at atEnd read
      rw [finish_step_lineFeed atEnd.1, finish_of_atRow atEnd, read]
      simp
  | @ended fields text rest table row lineEnd blank others induction =>
      rw [List.forall_mem_cons] at nonempty
      obtain ⟨byte, bytes, split, ends, blankBytes⟩ := exists_encoded_lineEnd lineEnd blank
      obtain ⟨atNext, read⟩ := foldl_step_writesRow atRow nonempty.1 row ends
      have cut : encoded (text ++ (lineEnd.text ++ blankLines blank) ++ rest) =
          (encoded text ++ [byte]) ++ bytes ++ encoded rest := by
        rw [encoded_append, encoded_append, split]
        simp
      have skipped := foldl_step_blank atNext blankBytes
      have atOthers : (bytes.foldl step ((encoded text ++ [byte]).foldl step state)).AtRow := by
        rw [skipped]
        exact atNext
      rw [cut, List.foldl_append, List.foldl_append, induction atOthers nonempty.2, skipped]
      dsimp only
      rw [read]
      simp

end ReadState

/-- A written table gives its rows back. -/
theorem fields_rows_of_writesTable {table : List (List (List Char))} {text : List Char}
    (nonempty : ∀ fields ∈ table, fields ≠ []) (written : WritesTable table text) :
    (rows (encoded text)).map Row.fields = table.map (List.map encoded) := by
  obtain @⟨body, marked, blank, written, plain⟩ := written
  -- Once the mark is gone, blank lines leave no row.
  have read (consumed : Nat) :
      ((encoded (blankLines blank ++ body)).foldl ReadState.step (.start consumed)).finish.map
        Row.fields = table.map (List.map encoded) := by
    have atRow : (ReadState.start consumed).AtRow := ⟨rfl, rfl, rfl⟩
    have areEnds : ∀ byte ∈ encoded (blankLines blank), isRowEnd byte = true :=
      fun _ => isRowEnd_of_mem_blankLines
    have skipped := ReadState.foldl_step_blank atRow areEnds
    have atBody : ((encoded (blankLines blank)).foldl ReadState.step (.start consumed)).AtRow := by
      rw [skipped]
      exact atRow
    rw [encoded_append, List.foldl_append,
      ReadState.fields_finish_writesRows atBody nonempty written, skipped]
    rfl
  cases marked with
  | true =>
      have opens : encoded ([markChar] ++ blankLines blank ++ body) =
          byteOrderMark ++ encoded (blankLines blank ++ body) := by
        rw [← encoded_markChar, List.append_assoc, List.singleton_append, encoded_cons]
      have isMarked : byteOrderMark.isPrefixOf
          (byteOrderMark ++ encoded (blankLines blank ++ body)) = true :=
        List.isPrefixOf_iff_prefix.mpr (List.prefix_append _ _)
      have unmarked : (byteOrderMark ++ encoded (blankLines blank ++ body)).drop 3 =
          encoded (blankLines blank ++ body) := rfl
      rw [if_pos rfl, opens, rows, if_pos isMarked, unmarked, read]
  | false =>
      have noMark : (blankLines blank ++ body).head? ≠ some markChar := by
        cases blank with
        | nil => exact plain
        | cons lineEnd blank => cases lineEnd <;> simp [blankLines, LineEnd.text, markChar]
      rw [if_neg Bool.false_ne_true, List.nil_append, rows, isPrefixOf_encoded noMark,
        if_neg Bool.false_ne_true, read]

theorem exists_writesRow_rowText {fields : List (List Char)} (nonempty : fields ≠ []) :
    ∃ text, rowText fields = text ++ ['\n'] ∧ WritesRow fields text := by
  unfold rowText
  split
  next single =>
    subst single
    exact ⟨quoteField [], rfl, [quoteField []], .cons .quoted .nil, by decide, rfl⟩
  next notBlank =>
    have written : List.Forall₂ WritesField fields (fields.map fieldText) := by
      rw [List.forall₂_map_right_iff, List.forall₂_same]
      exact fun field _ => writesField_fieldText field
    refine ⟨_, rfl, fields.map fieldText, written, ?_, rfl⟩
    intro blank
    obtain ⟨field, rfl, empty⟩ := List.map_eq_singleton_iff.mp blank
    apply notBlank
    rw [fieldText] at empty
    split at empty
    · simp [quoteField] at empty
    · rw [empty]

theorem writesRows_flatMap_rowText {table : List (List (List Char))}
    (nonempty : ∀ fields ∈ table, fields ≠ []) : WritesRows table (table.flatMap rowText) := by
  induction table with
  | nil => exact .none
  | cons fields table induction =>
      rw [List.forall_mem_cons] at nonempty
      obtain ⟨text, split, row⟩ := exists_writesRow_rowText nonempty.1
      rw [List.flatMap_cons, split]
      exact .ended row .lineFeed [] (induction nonempty.2)

/-- What the writer makes of a table is one way to write it. -/
theorem writesTable_flatMap_rowText {table : List (List (List Char))}
    (nonempty : ∀ fields ∈ table, fields ≠ [])
    (plain : (table.flatMap rowText).head? ≠ some markChar) :
    WritesTable table (table.flatMap rowText) :=
  .intro false [] (writesRows_flatMap_rowText nonempty) plain

end Csv
end ThroughputCharts
