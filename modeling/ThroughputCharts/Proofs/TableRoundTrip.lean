import ThroughputCharts.Proofs.TableReading
import ThroughputCharts.Proofs.WrittenTables

/-!
# Written tables read back

What a table means depends on its cells alone: where the two columns stand in the header, and what
every later row holds there.  However the table is written, reading it gives just that.
-/

namespace ThroughputCharts
namespace Table

/-- A record takes its name from one cell as it stands, and its measurement from another if that cell
exists and holds one. -/
structure Gives (family : Family) (nameIndex valueIndex : Nat) (cells : List String)
    (record : Record) : Prop where
  name : cells[nameIndex]? = some record.name
  value : record.value = cells[valueIndex]?.bind Measurement.read?
  unit : record.unit = family.unit

/-- What a header and the rows after it mean. -/
inductive Means (family : Family) (header : List String) (rows : List (List String)) :
    Except Fault (List Record) → Prop
  | noName (absent : ∀ index, ¬ IsColumn header nameColumn index) :
      Means family header rows (.error (.missingColumn nameColumn))
  | noValue {nameIndex : Nat} (isName : IsColumn header nameColumn nameIndex)
      (absent : ∀ index, ¬ IsColumn header family.throughputColumn index) :
      Means family header rows (.error (.missingColumn family.throughputColumn))
  | short {nameIndex valueIndex : Nat} {before after : List (List String)} {cells : List String}
      (isName : IsColumn header nameColumn nameIndex)
      (isValue : IsColumn header family.throughputColumn valueIndex)
      (split : rows = before ++ cells :: after)
      (reach : ∀ earlier ∈ before, nameIndex < earlier.length) (ends : cells.length ≤ nameIndex) :
      Means family header rows (.error (.shortRow (before.length + 1) nameColumn))
  | records {nameIndex valueIndex : Nat} {records : List Record}
      (isName : IsColumn header nameColumn nameIndex)
      (isValue : IsColumn header family.throughputColumn valueIndex)
      (give : List.Forall₂ (Gives family nameIndex valueIndex) rows records) :
      Means family header rows (.ok records)

section Rows

variable {family : Family} {nameIndex valueIndex number : Nat} {bytes : List UInt8}

theorem HasCells.unique {row : Csv.Row} {first second : List String} (hasFirst : HasCells row first)
    (hasSecond : HasCells row second) : first = second :=
  Text.toUtf8_injective.list_map (hasFirst.symm.trans hasSecond)

theorem isRecord_iff_gives {row : Csv.Row} {cells : List String} {record : Record}
    (hasCells : HasCells row cells) :
    IsRecord family nameIndex valueIndex row record ↔
      Gives family nameIndex valueIndex cells record := by
  constructor
  · rintro ⟨others, hasOthers, name, value, unit⟩
    obtain rfl := hasCells.unique hasOthers
    exact ⟨name, value, unit⟩
  · rintro ⟨name, value, unit⟩
    exact ⟨cells, hasCells, name, value, unit⟩

theorem hasName_iff {row : Csv.Row} {cells : List String} (hasCells : HasCells row cells) :
    HasName nameIndex row ↔ nameIndex < cells.length := by
  constructor
  · rintro ⟨others, hasOthers, reaches⟩
    rwa [hasCells.unique hasOthers]
  · exact fun reaches => ⟨cells, hasCells, reaches⟩

/-- A row of text can only offend by ending before its name. -/
theorem offends_iff {row : Csv.Row} {cells : List String} {fault : Fault}
    (hasCells : HasCells row cells) :
    Offends bytes nameIndex number row fault ↔
      cells.length ≤ nameIndex ∧ fault = .shortRow number nameColumn := by
  constructor
  · intro offends
    cases offends with
    | unreadable isFault =>
        have refused : readCells bytes number row = .error _ :=
          readCells_eq_error_iff.mpr ⟨_, rfl, isFault⟩
        rw [readCells_eq_ok_iff.mpr hasCells] at refused
        contradiction
    | short hasOthers ends =>
        rw [hasCells.unique hasOthers]
        exact ⟨ends, rfl⟩
  · rintro ⟨ends, rfl⟩
    exact .short hasCells ends

variable {csvRows : List Csv.Row} {rows : List (List String)}

theorem forall₂_isRecord_iff {records : List Record} (haveCells : List.Forall₂ HasCells csvRows rows) :
    List.Forall₂ (IsRecord family nameIndex valueIndex) csvRows records ↔
      List.Forall₂ (Gives family nameIndex valueIndex) rows records := by
  induction haveCells generalizing records with
  | nil => simp
  | cons hasCells haveCells induction =>
      cases records with
      | nil => simp
      | cons record records =>
          rw [List.forall₂_cons, List.forall₂_cons, isRecord_iff_gives hasCells, induction]

theorem forall_hasName_iff (haveCells : List.Forall₂ HasCells csvRows rows) :
    (∀ row ∈ csvRows, HasName nameIndex row) ↔ ∀ cells ∈ rows, nameIndex < cells.length := by
  induction haveCells with
  | nil => simp
  | cons hasCells haveCells induction =>
      rw [List.forall_mem_cons, List.forall_mem_cons, hasName_iff hasCells, induction]

/-- What is related to a list splits where the list does. -/
theorem exists_split_of_forall₂ {First Second : Type} {relation : First → Second → Prop}
    {before after : List First} {element : First} {others : List Second}
    (related : List.Forall₂ relation (before ++ element :: after) others) :
    ∃ otherBefore other otherAfter, others = otherBefore ++ other :: otherAfter ∧
      List.Forall₂ relation before otherBefore ∧ relation element other := by
  induction before generalizing others with
  | nil =>
      cases related with
      | cons relates _ => exact ⟨[], _, _, rfl, .nil, relates⟩
  | cons head before induction =>
      rw [List.cons_append] at related
      cases related with
      | cons relates related =>
          obtain ⟨otherBefore, other, otherAfter, rfl, areBefore, isOther⟩ := induction related
          exact ⟨_ :: otherBefore, other, otherAfter, rfl, .cons relates areBefore, isOther⟩

/-- Among rows of text the first that ends before its name is to blame. -/
theorem readRecords_eq_error_iff_short {fault : Fault}
    (haveCells : List.Forall₂ HasCells csvRows rows) :
    readRecords family bytes nameIndex valueIndex 1 csvRows = .error fault ↔
      ∃ before cells after, rows = before ++ cells :: after ∧
        (∀ earlier ∈ before, nameIndex < earlier.length) ∧ cells.length ≤ nameIndex ∧
          fault = .shortRow (before.length + 1) nameColumn := by
  rw [readRecords_eq_error_iff]
  constructor
  · rintro ⟨before, row, after, records, rfl, areRecords, offends⟩
    obtain ⟨earlier, cells, later, rfl, haveBefore, hasCells⟩ := exists_split_of_forall₂ haveCells
    obtain ⟨ends, isFault⟩ := (offends_iff hasCells).mp offends
    have reach := (forall_hasName_iff haveBefore).mp (exists_records_iff.mp ⟨records, areRecords⟩)
    rw [haveBefore.length_eq, Nat.add_comm] at isFault
    exact ⟨earlier, cells, later, rfl, reach, ends, isFault⟩
  · rintro ⟨earlier, cells, later, rfl, reach, ends, rfl⟩
    obtain ⟨before, row, after, rfl, haveBefore, hasCells⟩ := exists_split_of_forall₂ haveCells.flip
    obtain ⟨records, areRecords⟩ :=
      exists_records_iff.mpr ((forall_hasName_iff haveBefore.flip).mpr reach)
    refine ⟨before, row, after, records, rfl, areRecords, (offends_iff hasCells).mpr ⟨ends, ?_⟩⟩
    rw [haveBefore.length_eq, Nat.add_comm]

end Rows

section Tables

variable {family : Family} {header : List String} {rows : List (List String)} {bytes : List UInt8}
  {csvRows : List Csv.Row} {outcome : Except Fault (List Record)}

/-- Rows of text are read into what their cells mean, and into nothing else. -/
theorem means_iff_readRows (hasHeader : HasHeader bytes header csvRows)
    (haveCells : List.Forall₂ HasCells csvRows rows) :
    Means family header rows outcome ↔ outcome = readRows family bytes (Csv.rows bytes) := by
  rw [readRows_eq hasHeader]
  constructor
  · intro means
    cases means with
    | noName absent =>
        rw [columnIndex_eq_error absent]
        rfl
    | noValue isName absent =>
        rw [columnIndex_eq_ok_iff.mpr isName, columnIndex_eq_error absent]
        rfl
    | short isName isValue split reach ends =>
        rw [columnIndex_eq_ok_iff.mpr isName, columnIndex_eq_ok_iff.mpr isValue]
        exact ((readRecords_eq_error_iff_short haveCells).mpr
          ⟨_, _, _, split, reach, ends, rfl⟩).symm
    | records isName isValue give =>
        rw [columnIndex_eq_ok_iff.mpr isName, columnIndex_eq_ok_iff.mpr isValue]
        exact (readRecords_eq_ok_iff.mpr ((forall₂_isRecord_iff haveCells).mpr give)).symm
  · rintro rfl
    by_cases hasName : ∃ nameIndex, IsColumn header nameColumn nameIndex
    · obtain ⟨nameIndex, isName⟩ := hasName
      rw [columnIndex_eq_ok_iff.mpr isName]
      by_cases hasValue : ∃ valueIndex, IsColumn header family.throughputColumn valueIndex
      · obtain ⟨valueIndex, isValue⟩ := hasValue
        rw [columnIndex_eq_ok_iff.mpr isValue]
        change Means family header rows (readRecords family bytes nameIndex valueIndex 1 csvRows)
        cases read : readRecords family bytes nameIndex valueIndex 1 csvRows with
        | ok records =>
            exact .records isName isValue
              ((forall₂_isRecord_iff haveCells).mp (readRecords_eq_ok_iff.mp read))
        | error fault =>
            obtain ⟨before, cells, after, split, reach, ends, rfl⟩ :=
              (readRecords_eq_error_iff_short haveCells).mp read
            exact .short isName isValue split reach ends
      · have absent := not_exists.mp hasValue
        rw [columnIndex_eq_error absent]
        exact .noValue isName absent
    · have absent := not_exists.mp hasName
      rw [columnIndex_eq_error absent]
      exact .noName absent

/-- The rows of a written table are its header and the rows after it. -/
theorem exists_rows_of_writesTable {text : String}
    (nonempty : ∀ cells ∈ header :: rows, cells ≠ [])
    (written : Csv.WritesTable ((header :: rows).map (List.map String.toList)) text.toList) :
    ∃ csvRows, HasHeader (Text.toUtf8 text) header csvRows ∧
      List.Forall₂ HasCells csvRows rows := by
  have fieldsNonempty : ∀ fields ∈ (header :: rows).map (List.map String.toList), fields ≠ [] := by
    rw [List.forall_mem_map]
    exact fun cells member => by simpa using nonempty cells member
  have encodedCells (cells : List String) :
      (cells.map String.toList).map Csv.encoded = cells.map Text.toUtf8 := by
    rw [List.map_map]
    refine List.map_congr_left fun cell _ => ?_
    rw [Function.comp_apply, ← Csv.toUtf8_ofList, String.ofList_toList]
  have read := Csv.fields_rows_of_writesTable fieldsNonempty written
  rw [← Csv.toUtf8_ofList, String.ofList_toList, List.map_cons, List.map_cons] at read
  obtain ⟨headerRow, csvRows, split, isHeader, areRows⟩ := List.map_eq_cons_iff.mp read
  refine ⟨csvRows, ⟨headerRow, split, isHeader.trans (encodedCells header)⟩, ?_⟩
  rw [List.map_map, ← List.forall₂_eq_eq_eq, List.forall₂_map_left_iff,
    List.forall₂_map_right_iff] at areRows
  exact areRows.imp fun row cells isRow => isRow.trans (encodedCells cells)

end Tables

/-- However a table is written, reading it gives what its cells mean, which is one thing only. -/
theorem read_eq_means (family : Family) (source : String) (header : List String)
    (rows : List (List String)) (text : String) (nonempty : ∀ cells ∈ header :: rows, cells ≠ [])
    (written : Csv.WritesTable ((header :: rows).map (List.map String.toList)) text.toList) :
    ∃ outcome, read family source (Text.toUtf8 text) = outcome.mapError (Error.mk source) ∧
      ∀ other, Means family header rows other ↔ other = outcome := by
  obtain ⟨csvRows, hasHeader, haveCells⟩ := exists_rows_of_writesTable nonempty written
  exact ⟨_, rfl, fun other => means_iff_readRows hasHeader haveCells⟩

/-- A list table with commas, quotes and line ends in its cells, and a row of one empty cell. -/
def messyHeader : List String := [" name ", "ops", ""]

def messyRows : List (List String) := [["A, \"b\"\r\n", "1.5"], ["", "x", ""], [""]]

/-- The table behind a mark and two blank lines, with every kind of line end but none at the end. -/
def messyText : String :=
  "\uFEFF\r\n\n name ,\"ops\",\r\"A, \"\"b\"\"\r\n\",1.5\r\n\n\r,x,\n\"\""

def messyRecords : List Record :=
  [⟨"A, \"b\"\r\n", some 1.5, Family.list.unit⟩, ⟨"", none, Family.list.unit⟩,
    ⟨"", none, Family.list.unit⟩]

theorem read_messyText :
    (∀ cells ∈ messyHeader :: messyRows, cells ≠ []) ∧
    Csv.WritesTable ((messyHeader :: messyRows).map (List.map String.toList)) messyText.toList ∧
    read .list "results.csv" (Text.toUtf8 messyText) = .ok messyRecords := by
  have nonempty : ∀ cells ∈ messyHeader :: messyRows, cells ≠ [] := by decide
  have written :
      Csv.WritesTable ((messyHeader :: messyRows).map (List.map String.toList)) messyText.toList := by
    have header : Csv.WritesRow (messyHeader.map String.toList) " name ,\"ops\",".toList :=
      ⟨[" name ".toList, "\"ops\"".toList, []],
        .cons (.bare (by decide)) (.cons .quoted (.cons (.bare rfl) .nil)), by decide, rfl⟩
    have first : Csv.WritesRow (["A, \"b\"\r\n", "1.5"].map String.toList)
        "\"A, \"\"b\"\"\r\n\",1.5".toList :=
      ⟨["\"A, \"\"b\"\"\r\n\"".toList, "1.5".toList],
        .cons .quoted (.cons (.bare (by decide)) .nil), by decide, rfl⟩
    have second : Csv.WritesRow (["", "x", ""].map String.toList) ",x,".toList :=
      ⟨[[], "x".toList, []],
        .cons (.bare rfl) (.cons (.bare (by decide)) (.cons (.bare rfl) .nil)), by decide, rfl⟩
    have third : Csv.WritesRow ([""].map String.toList) "\"\"".toList :=
      ⟨["\"\"".toList], .cons .quoted .nil, by decide, rfl⟩
    exact .intro true [.both, .lineFeed] (.ended header .carriageReturn []
      (.ended first .both [.lineFeed, .carriageReturn] (.ended second .lineFeed [] (.unended third))))
      (by decide)
  have isName : IsColumn messyHeader nameColumn 0 := by
    rw [← columnIndex_eq_ok_iff]
    decide +kernel
  have isValue : IsColumn messyHeader Family.list.throughputColumn 1 := by
    rw [← columnIndex_eq_ok_iff]
    decide +kernel
  have means : Means .list messyHeader messyRows (.ok messyRecords) :=
    .records isName isValue (.cons ⟨rfl, by decide +kernel, rfl⟩
      (.cons ⟨rfl, by decide +kernel, rfl⟩ (.cons ⟨rfl, by decide +kernel, rfl⟩ .nil)))
  obtain ⟨outcome, reads, only⟩ :=
    read_eq_means .list "results.csv" messyHeader messyRows messyText nonempty written
  rw [← (only _).mp means] at reads
  exact ⟨nonempty, written, reads⟩

end Table
end ThroughputCharts
