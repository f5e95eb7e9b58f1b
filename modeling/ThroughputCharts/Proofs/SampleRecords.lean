import Mathlib.Data.List.Forall2
import ThroughputCharts.Proofs.NumberText
import ThroughputCharts.Proofs.WrittenTables
import ThroughputCharts.Sample
import ThroughputCharts.Table

/-!
# Reading a sample table

The table of a sample is read row for row: every trial comes back under its name, with its throughput
if that is a finite number and without one otherwise.
-/

namespace ThroughputCharts

namespace Table

theorem readFields_encoded (field : Nat) (fields : List (List Char)) :
    readFields field (fields.map Csv.encoded) = .ok (fields.map String.ofList) := by
  induction fields generalizing field with
  | nil => rfl
  | cons text fields induction =>
      rw [List.map_cons, readFields, ← Csv.toUtf8_ofList, Text.ofUtf8_toUtf8]
      dsimp only
      rw [induction]
      rfl

theorem readCells_encoded {bytes : List UInt8} {number : Nat} {row : Csv.Row}
    {fields : List (List Char)} (isRow : row.fields = fields.map Csv.encoded) :
    readCells bytes number row = .ok (fields.map String.ofList) := by
  rw [readCells, isRow, readFields_encoded]
  rfl

end Table

namespace Sample

/-- A trial as it is read from the table. -/
def recordOf (family : Family) (row : Row) : Record where
  name := row.name
  value := row.throughput.filter Float.isFinite
  unit := family.unit

theorem recordOfCells_fields (family : Family) (number : Nat) (row : Row) :
    Table.recordOfCells family 0 2 number ((fields row).map String.ofList) =
      .ok (recordOf family row) := by
  have empty : Measurement.read? (String.ofList []) = none := rfl
  rw [Table.recordOfCells, recordOf, fields]
  cases row.throughput with
  | none => simp only [List.map_cons, List.getElem?_cons_zero, List.getElem?_cons_succ,
      Option.bind_some, empty, Option.filter_none, String.ofList_toList]
  | some throughput => simp only [List.map_cons, List.getElem?_cons_zero, List.getElem?_cons_succ,
      Option.bind_some, Measurement.read?_cellText, Option.filter_some, String.ofList_toList]

theorem readRecords_fields {family : Family} {bytes : List UInt8} {rows : List Row}
    {csvRows : List Csv.Row} (number : Nat)
    (areRows : csvRows.map Csv.Row.fields = rows.map fun row => (fields row).map Csv.encoded) :
    Table.readRecords family bytes 0 2 number csvRows = .ok (rows.map (recordOf family)) := by
  induction rows generalizing csvRows number with
  | nil =>
      obtain rfl := List.map_eq_nil_iff.mp areRows
      rfl
  | cons row rows induction =>
      obtain ⟨csvRow, csvRows, rfl, isRow, areOthers⟩ := List.map_eq_cons_iff.mp areRows
      rw [Table.readRecords, Table.readCells_encoded isRow]
      dsimp only [bind, Except.bind]
      rw [recordOfCells_fields, induction (number + 1) areOthers]
      rfl

theorem columns_header (family : Family) :
    Table.columnIndex ((header family).map String.ofList) Table.nameColumn = .ok 0 ∧
      Table.columnIndex ((header family).map String.ofList) family.throughputColumn = .ok 2 := by
  cases family <;> constructor <;> decide +kernel

/-- The table of a sample is read without loss, row for row. -/
theorem read_text (request : Request) (power : Power) (source : String) :
    Table.read request.family source (Text.toUtf8 (text request power)) =
      .ok ((rows request power).map (recordOf request.family)) := by
  have nonempty : ∀ row ∈ header request.family :: (rows request power).map fields, row ≠ [] := by
    rw [List.forall_mem_cons, List.forall_mem_map]
    exact ⟨by simp [header], fun row _ => by simp [fields]⟩
  have plain : ((header request.family :: (rows request power).map fields).flatMap
      Csv.rowText).head? ≠ some Csv.markChar := by
    obtain ⟨rest, start⟩ : ∃ rest, Csv.rowText (header request.family) = 'n' :: rest := by
      cases request.family <;> exact ⟨_, rfl⟩
    simp [start, Csv.markChar]
  have written := Csv.fields_rows_of_writesTable nonempty
    (Csv.writesTable_flatMap_rowText nonempty plain)
  rw [List.map_cons] at written
  obtain ⟨headerRow, csvRows, split, isHeader, areRows⟩ := List.map_eq_cons_iff.mp written
  rw [List.map_map] at areRows
  obtain ⟨nameColumn, valueColumn⟩ := columns_header request.family
  rw [Table.read, text, Csv.toUtf8_ofList, split, Table.readRows]
  simp only [List.head?_cons, Table.readCells_encoded isHeader, List.tail_cons, bind, Except.bind,
    nameColumn, valueColumn, readRecords_fields 1 areRows]
  rfl

/-- A record tells of a trial under its name, with its throughput down to the last bit where that is a
finite number and without one otherwise. -/
structure Tells (family : Family) (row : Row) (record : Record) : Prop where
  name : record.name = row.name
  unit : record.unit = family.unit
  value_iff : ∀ throughput, record.value = some throughput ↔
    row.throughput = some throughput ∧ throughput.isFinite = true

theorem tells_recordOf (family : Family) (row : Row) : Tells family row (recordOf family row) where
  name := rfl
  unit := rfl
  value_iff _ := Option.filter_eq_some_iff

/-- The table of a sample is read as one record for each of its rows, in order, each of which tells of
its trial. -/
theorem read_text_tells (request : Request) (power : Power) (source : String) :
    ∃ records, Table.read request.family source (Text.toUtf8 (text request power)) = .ok records ∧
      records.length = (rows request power).length ∧
      List.Forall₂ (Tells request.family) (rows request power) records := by
  refine ⟨_, read_text request power source, List.length_map _, ?_⟩
  rw [List.forall₂_map_right_iff, List.forall₂_same]
  exact fun row _ => tells_recordOf request.family row

end Sample
end ThroughputCharts
