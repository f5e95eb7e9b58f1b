import Mathlib.Data.List.Forall2
import ThroughputCharts.Proofs.Results
import ThroughputCharts.Table

/-!
# Tables read as a whole

A table gives one record for each row after its header, or it is refused for its first offence: a
missing column before any row, and otherwise the first row that is not a text throughout or ends
before its name.
-/

namespace ThroughputCharts

namespace Text

/-- Bytes are read as a text just when they are its encoding. -/
theorem ofUtf8_eq_ok_iff {bytes : List UInt8} {text : String} :
    ofUtf8 bytes = .ok text ↔ bytes = toUtf8 text := by
  constructor
  · intro isText
    rw [ofUtf8, String.fromUTF8?] at isText
    split at isText
    next decoded found =>
      obtain rfl := Except.ok.inj isText
      split at found
      next valid =>
        obtain rfl := Option.some.inj found
        simp [toUtf8, String.fromUTF8]
      next => contradiction
    next => contradiction
  · rintro rfl
    exact ofUtf8_toUtf8 text

theorem toUtf8_injective : Function.Injective toUtf8 := by
  intro first second same
  have decoded := ofUtf8_toUtf8 first
  rw [same, ofUtf8_toUtf8] at decoded
  exact (Except.ok.inj decoded).symm

end Text

namespace Table

/-- Every field of a row is the encoding of a cell. -/
def HasCells (row : Csv.Row) (cells : List String) : Prop :=
  row.fields = cells.map Text.toUtf8

/-- The first field of a row that is no encoding of a text, and where it stands in the table. -/
def IsEncodingFault (bytes : List UInt8) (row : Csv.Row) (fault : EncodingFault) : Prop :=
  ∃ (cells : List String) (field : List UInt8) (rest : List (List UInt8)),
    row.fields = cells.map Text.toUtf8 ++ field :: rest ∧
      Text.ofUtf8 field = .error fault.validBytes ∧ fault.field = cells.length ∧
      fault.offset = row.offset ∧ fault.line = Csv.lineAt bytes row.offset

/-- A column stands where its name is first found in the header, blanks around it aside. -/
structure IsColumn (header : List String) (column : String) (index : Nat) : Prop where
  named : ∃ cell, header[index]? = some cell ∧ Text.trim cell.toList = column.toList
  first : ∀ earlier < index, ∀ cell, header[earlier]? = some cell →
    Text.trim cell.toList ≠ column.toList

/-- A record holds the name in its row as it stands there, and the measurement if there is one. -/
def IsRecord (family : Family) (nameIndex valueIndex : Nat) (row : Csv.Row) (record : Record) :
    Prop :=
  ∃ cells, HasCells row cells ∧ cells[nameIndex]? = some record.name ∧
    record.value = cells[valueIndex]?.bind Measurement.read? ∧ record.unit = family.unit

/-- What is wrong with a row of a given number. -/
inductive Offends (bytes : List UInt8) (nameIndex number : Nat) (row : Csv.Row) : Fault → Prop
  | unreadable {fault : EncodingFault} (isFault : IsEncodingFault bytes row fault) :
      Offends bytes nameIndex number row (.unreadable number fault)
  | short {cells : List String} (hasCells : HasCells row cells) (ends : cells.length ≤ nameIndex) :
      Offends bytes nameIndex number row (.shortRow number nameColumn)

section Columns

variable {header : List String} {column : String}

theorem columnIndex_eq_ok_iff {index : Nat} :
    columnIndex header column = .ok index ↔ IsColumn header column index := by
  have found : columnIndex header column = .ok index ↔
      header.findIdx? (fun cell => Text.trim cell.toList == column.toList) = some index := by
    unfold columnIndex
    cases header.findIdx? _ <;> simp
  rw [found, List.findIdx?_eq_some_iff_getElem]
  constructor
  · rintro ⟨inside, isName, notEarlier⟩
    refine ⟨⟨header[index], List.getElem?_eq_getElem inside, by simpa using isName⟩, ?_⟩
    intro earlier before cell isCell
    obtain ⟨_, rfl⟩ := List.getElem?_eq_some_iff.mp isCell
    simpa using notEarlier earlier before
  · rintro ⟨⟨cell, isCell, isName⟩, notEarlier⟩
    obtain ⟨inside, rfl⟩ := List.getElem?_eq_some_iff.mp isCell
    refine ⟨inside, by simpa using isName, ?_⟩
    intro earlier before
    have bound : earlier < header.length := Nat.lt_trans before inside
    simpa using notEarlier earlier before header[earlier] (List.getElem?_eq_getElem bound)

theorem columnIndex_eq_error (absent : ∀ index, ¬ IsColumn header column index) :
    columnIndex header column = .error (.missingColumn column) := by
  cases found : columnIndex header column with
  | ok index => exact absurd (columnIndex_eq_ok_iff.mp found) (absent index)
  | error fault =>
      unfold columnIndex at found
      split at found
      · contradiction
      · exact found.symm

end Columns

section Cells

variable {bytes : List UInt8} {row : Csv.Row} {cells : List String}

theorem readFields_eq_ok_iff {field : Nat} {fields : List (List UInt8)} :
    readFields field fields = .ok cells ↔ fields = cells.map Text.toUtf8 := by
  induction fields generalizing field cells with
  | nil => simp [readFields, eq_comm]
  | cons encoding fields induction =>
      rw [readFields]
      cases decoded : Text.ofUtf8 encoding with
      | ok text =>
          obtain rfl := Text.ofUtf8_eq_ok_iff.mp decoded
          simp only [map_eq_ok_iff, induction]
          constructor
          · rintro ⟨others, rfl, rfl⟩
            rfl
          · intro joined
            obtain ⟨first, others, rfl, sameFirst, sameOthers⟩ := List.map_eq_cons_iff.mp joined.symm
            refine ⟨others, sameOthers.symm, ?_⟩
            rw [Text.toUtf8_injective sameFirst]
      | error validBytes =>
          refine iff_of_false nofun ?_
          intro joined
          obtain ⟨first, _, -, sameFirst, -⟩ := List.map_eq_cons_iff.mp joined.symm
          rw [← sameFirst, Text.ofUtf8_toUtf8] at decoded
          contradiction

theorem readFields_eq_error_iff {field index validBytes : Nat} {fields : List (List UInt8)} :
    readFields field fields = .error (index, validBytes) ↔
      ∃ (cells : List String) (encoding : List UInt8) (rest : List (List UInt8)),
        fields = cells.map Text.toUtf8 ++ encoding :: rest ∧
          Text.ofUtf8 encoding = .error validBytes ∧ index = field + cells.length := by
  induction fields generalizing field with
  | nil => simp [readFields]
  | cons encoding fields induction =>
      rw [readFields]
      cases decoded : Text.ofUtf8 encoding with
      | ok text =>
          obtain rfl := Text.ofUtf8_eq_ok_iff.mp decoded
          simp only [map_eq_error_iff, induction]
          constructor
          · rintro ⟨cells, other, rest, rfl, refused, rfl⟩
            exact ⟨text :: cells, other, rest, rfl, refused, by rw [List.length_cons]; omega⟩
          · rintro ⟨cells, other, rest, split, refused, rfl⟩
            cases cells with
            | nil =>
                obtain ⟨rfl, -⟩ := List.cons.inj split
                rw [decoded] at refused
                contradiction
            | cons first cells =>
                obtain ⟨-, rfl⟩ := List.cons.inj split
                exact ⟨cells, other, rest, rfl, refused, by rw [List.length_cons]; omega⟩
      | error length =>
          simp only [Except.error.injEq, Prod.mk.injEq]
          constructor
          · rintro ⟨rfl, rfl⟩
            exact ⟨[], encoding, fields, rfl, decoded, rfl⟩
          · rintro ⟨cells, other, rest, split, refused, rfl⟩
            cases cells with
            | nil =>
                obtain ⟨rfl, -⟩ := List.cons.inj split
                rw [decoded] at refused
                exact ⟨rfl, Except.error.inj refused⟩
            | cons first cells =>
                obtain ⟨rfl, -⟩ := List.cons.inj split
                rw [Text.ofUtf8_toUtf8] at decoded
                contradiction

theorem readCells_eq_ok_iff {number : Nat} :
    readCells bytes number row = .ok cells ↔ HasCells row cells := by
  rw [readCells, mapError_eq_ok_iff, readFields_eq_ok_iff, HasCells]

theorem readCells_eq_error_iff {number : Nat} {fault : Fault} :
    readCells bytes number row = .error fault ↔
      ∃ encodingFault, fault = .unreadable number encodingFault ∧
        IsEncodingFault bytes row encodingFault := by
  rw [readCells, mapError_eq_error_iff]
  constructor
  · rintro ⟨⟨index, validBytes⟩, refused, rfl⟩
    obtain ⟨cells, field, rest, split, undecoded, rfl⟩ := readFields_eq_error_iff.mp refused
    exact ⟨_, rfl, cells, field, rest, split, undecoded, Nat.zero_add _, rfl, rfl⟩
  · rintro ⟨⟨index, validBytes, offset, line⟩, rfl, cells, field, rest, split, undecoded, isIndex,
      rfl, rfl⟩
    refine ⟨(index, validBytes), readFields_eq_error_iff.mpr ?_, rfl⟩
    exact ⟨cells, field, rest, split, undecoded, isIndex.trans (Nat.zero_add _).symm⟩

end Cells

section Rows

variable {family : Family} {bytes : List UInt8} {nameIndex valueIndex number : Nat}

/-- The record in a row of a given number. -/
def readRow (family : Family) (bytes : List UInt8) (nameIndex valueIndex number : Nat)
    (row : Csv.Row) : Except Fault Record :=
  readCells bytes number row >>= recordOfCells family nameIndex valueIndex number

theorem readRow_eq_ok_iff {row : Csv.Row} {record : Record} :
    readRow family bytes nameIndex valueIndex number row = .ok record ↔
      IsRecord family nameIndex valueIndex row record := by
  simp only [readRow, bind_eq_ok_iff, readCells_eq_ok_iff, IsRecord, recordOfCells]
  constructor
  · rintro ⟨cells, hasCells, isRecord⟩
    split at isRecord
    next name found =>
      obtain rfl := Except.ok.inj isRecord
      exact ⟨cells, hasCells, found, rfl, rfl⟩
    next => contradiction
  · rintro ⟨cells, hasCells, found, value, unit⟩
    refine ⟨cells, hasCells, ?_⟩
    rw [found, ← value, ← unit]

theorem readRow_eq_error_iff {row : Csv.Row} {fault : Fault} :
    readRow family bytes nameIndex valueIndex number row = .error fault ↔
      Offends bytes nameIndex number row fault := by
  simp only [readRow, bind_eq_error_iff, readCells_eq_error_iff, readCells_eq_ok_iff, recordOfCells]
  constructor
  · rintro (⟨encodingFault, rfl, isFault⟩ | ⟨cells, hasCells, refused⟩)
    · exact .unreadable isFault
    · split at refused
      next => contradiction
      next ends =>
        obtain rfl := Except.error.inj refused
        exact .short hasCells (List.getElem?_eq_none_iff.mp ends)
  · rintro (⟨isFault⟩ | ⟨hasCells, ends⟩)
    · exact .inl ⟨_, rfl, isFault⟩
    · refine .inr ⟨_, hasCells, ?_⟩
      rw [List.getElem?_eq_none_iff.mpr ends]

theorem readRecords_cons (row : Csv.Row) (rows : List Csv.Row) :
    readRecords family bytes nameIndex valueIndex number (row :: rows) = (do
      let record ← readRow family bytes nameIndex valueIndex number row
      let records ← readRecords family bytes nameIndex valueIndex (number + 1) rows
      return record :: records) := by
  rw [readRecords, readRow, bind_assoc]

/-- Every row gives its record, in order. -/
theorem readRecords_eq_ok_iff {rows : List Csv.Row} {records : List Record} :
    readRecords family bytes nameIndex valueIndex number rows = .ok records ↔
      List.Forall₂ (IsRecord family nameIndex valueIndex) rows records := by
  induction rows generalizing number records with
  | nil => simp [readRecords, eq_comm]
  | cons row rows induction =>
      simp only [readRecords_cons, bind_eq_ok_iff, readRow_eq_ok_iff, induction]
      constructor
      · rintro ⟨record, isRecord, others, areRecords, joined⟩
        obtain rfl := Except.ok.inj joined
        exact .cons isRecord areRecords
      · rintro (_ | ⟨isRecord, areRecords⟩)
        exact ⟨_, isRecord, _, areRecords, rfl⟩

/-- The first row that gives no record is to blame. -/
theorem readRecords_eq_error_iff {rows : List Csv.Row} {fault : Fault} :
    readRecords family bytes nameIndex valueIndex number rows = .error fault ↔
      ∃ before row after records, rows = before ++ row :: after ∧
        List.Forall₂ (IsRecord family nameIndex valueIndex) before records ∧
          Offends bytes nameIndex (number + before.length) row fault := by
  induction rows generalizing number with
  | nil => simp [readRecords]
  | cons first rows induction =>
      simp only [readRecords_cons, bind_eq_error_iff, readRow_eq_ok_iff, readRow_eq_error_iff,
        induction]
      constructor
      · rintro (offends | ⟨record, isRecord, others⟩)
        · exact ⟨[], first, rows, [], rfl, .nil, offends⟩
        · rcases others with ⟨before, row, after, records, rfl, areRecords, offends⟩ | ⟨_, _, fine⟩
          · refine ⟨first :: before, row, after, record :: records, rfl, .cons isRecord areRecords, ?_⟩
            rwa [List.length_cons, Nat.add_comm before.length, ← Nat.add_assoc]
          · contradiction
      · rintro ⟨before, row, after, records, split, areRecords, offends⟩
        cases areRecords with
        | nil =>
            obtain ⟨rfl, rfl⟩ := List.cons.inj split
            exact .inl offends
        | cons isRecord areRecords =>
            obtain ⟨rfl, rfl⟩ := List.cons.inj split
            refine .inr ⟨_, isRecord, .inl ⟨_, row, after, _, rfl, areRecords, ?_⟩⟩
            rwa [List.length_cons, Nat.add_comm _ 1, ← Nat.add_assoc] at offends

/-- Whether all of a row is text and the row reaches the column of the name. -/
def HasName (nameIndex : Nat) (row : Csv.Row) : Prop :=
  ∃ cells, HasCells row cells ∧ nameIndex < cells.length

theorem exists_isRecord_iff {row : Csv.Row} :
    (∃ record, IsRecord family nameIndex valueIndex row record) ↔ HasName nameIndex row := by
  constructor
  · rintro ⟨record, cells, hasCells, found, -⟩
    exact ⟨cells, hasCells, (List.getElem?_eq_some_iff.mp found).1⟩
  · rintro ⟨cells, hasCells, inside⟩
    exact ⟨⟨cells[nameIndex], _, _⟩, cells, hasCells, List.getElem?_eq_getElem inside, rfl, rfl⟩

theorem exists_records_iff {rows : List Csv.Row} :
    (∃ records, List.Forall₂ (IsRecord family nameIndex valueIndex) rows records) ↔
      ∀ row ∈ rows, HasName nameIndex row := by
  induction rows with
  | nil => exact ⟨nofun, fun _ => ⟨[], .nil⟩⟩
  | cons row rows induction =>
      rw [List.forall_mem_cons, ← induction, ← @exists_isRecord_iff family nameIndex valueIndex]
      constructor
      · rintro ⟨_, isRecord | ⟨isRecord, areRecords⟩⟩
        exact ⟨⟨_, isRecord⟩, _, areRecords⟩
      · rintro ⟨⟨record, isRecord⟩, records, areRecords⟩
        exact ⟨record :: records, .cons isRecord areRecords⟩

end Rows

/-- The first row of a table is a header with the given cells, and these rows come after it. -/
def HasHeader (bytes : List UInt8) (header : List String) (rows : List Csv.Row) : Prop :=
  ∃ headerRow, Csv.rows bytes = headerRow :: rows ∧ HasCells headerRow header

/-- What reading the rows of a table has to give: all of their records or none, and the first row
without a record as the reason. -/
structure ReadsRows (family : Family) (source : String) (bytes : List UInt8)
    (nameIndex valueIndex : Nat) (rows : List Csv.Row) (result : Except Error (List Record)) :
    Prop where
  succeeds : (∃ records, result = .ok records) ↔ ∀ row ∈ rows, HasName nameIndex row
  faithful : ∀ records, result = .ok records ↔
    List.Forall₂ (IsRecord family nameIndex valueIndex) rows records
  blames : ∀ error, result = .error error ↔
    ∃ before row after fault, rows = before ++ row :: after ∧
      (∀ earlier ∈ before, HasName nameIndex earlier) ∧
        Offends bytes nameIndex (before.length + 1) row fault ∧ error = ⟨source, fault⟩

section Tables

variable {family : Family} {source : String} {bytes : List UInt8} {header : List String}
  {rows : List Csv.Row} {nameIndex valueIndex : Nat}

theorem readRows_eq (hasHeader : HasHeader bytes header rows) :
    readRows family bytes (Csv.rows bytes) = (do
      let nameIndex ← columnIndex header nameColumn
      let valueIndex ← columnIndex header family.throughputColumn
      readRecords family bytes nameIndex valueIndex 1 rows) := by
  obtain ⟨headerRow, split, hasCells⟩ := hasHeader
  rw [readRows, split, List.head?_cons]
  dsimp only
  rw [readCells_eq_ok_iff.mpr hasCells]
  rfl

/-- The records of a table are those in its rows after the header. -/
theorem exists_isRecord_of_read {records : List Record}
    (isRead : read family source bytes = .ok records) :
    ∃ nameIndex valueIndex,
      List.Forall₂ (IsRecord family nameIndex valueIndex) (Csv.rows bytes).tail records := by
  rw [read, mapError_eq_ok_iff, readRows] at isRead
  split at isRead
  all_goals
    obtain ⟨header, -, found⟩ := bind_eq_ok_iff.mp isRead
    obtain ⟨nameIndex, -, found⟩ := bind_eq_ok_iff.mp found
    obtain ⟨valueIndex, -, found⟩ := bind_eq_ok_iff.mp found
    exact ⟨nameIndex, valueIndex, readRecords_eq_ok_iff.mp found⟩

theorem readsRows_mapError : ReadsRows family source bytes nameIndex valueIndex rows
    ((readRecords family bytes nameIndex valueIndex 1 rows).mapError (Error.mk source)) where
  succeeds := by
    simp only [mapError_eq_ok_iff, readRecords_eq_ok_iff, exists_records_iff]
  faithful records := by
    rw [mapError_eq_ok_iff, readRecords_eq_ok_iff]
  blames error := by
    simp only [mapError_eq_error_iff, readRecords_eq_error_iff]
    constructor
    · rintro ⟨fault, ⟨before, row, after, records, split, areRecords, offends⟩, rfl⟩
      refine ⟨before, row, after, fault, split, exists_records_iff.mp ⟨records, areRecords⟩, ?_, rfl⟩
      rwa [Nat.add_comm]
    · rintro ⟨before, row, after, fault, split, haveNames, offends, rfl⟩
      obtain ⟨records, areRecords⟩ := exists_records_iff.mpr haveNames
      refine ⟨fault, ⟨before, row, after, records, split, areRecords, ?_⟩, rfl⟩
      rwa [Nat.add_comm]

end Tables

/-- A table with a header is refused for a missing column, whatever its rows are, and otherwise it is
read row by row: into a record for each row, or not at all and for the first row without one. -/
theorem read_eq_records_or_first_offence (family : Family) (source : String) (bytes : List UInt8)
    (header : List String) (rows : List Csv.Row) (hasHeader : HasHeader bytes header rows) :
    ((∀ index, ¬ IsColumn header nameColumn index) →
      read family source bytes = .error ⟨source, .missingColumn nameColumn⟩) ∧
    ∀ nameIndex, IsColumn header nameColumn nameIndex →
      ((∀ index, ¬ IsColumn header family.throughputColumn index) →
        read family source bytes = .error ⟨source, .missingColumn family.throughputColumn⟩) ∧
      ∀ valueIndex, IsColumn header family.throughputColumn valueIndex →
        ReadsRows family source bytes nameIndex valueIndex rows (read family source bytes) := by
  rw [read, readRows_eq hasHeader]
  refine ⟨fun absent => ?_, fun nameIndex isName => ⟨fun absent => ?_, fun valueIndex isValue => ?_⟩⟩
  · rw [columnIndex_eq_error absent]
    rfl
  · rw [columnIndex_eq_ok_iff.mpr isName, columnIndex_eq_error absent]
    rfl
  · rw [columnIndex_eq_ok_iff.mpr isName, columnIndex_eq_ok_iff.mpr isValue]
    exact readsRows_mapError

/-- A list table with two columns of one name, a row that goes on behind its columns, a row that ends
before its name, and a row that is not UTF-8. -/
def raggedTable : List UInt8 :=
  Text.toUtf8 "ops, name ,ops\n1.5,A,2,3\n7\n8," ++ [0xFF]

def raggedRows : List Csv.Row :=
  [⟨15, ["1.5", "A", "2", "3"].map Text.toUtf8⟩, ⟨25, [Text.toUtf8 "7"]⟩,
    ⟨27, [Text.toUtf8 "8", [0xFF]]⟩]

theorem read_raggedTable :
    HasHeader raggedTable ["ops", " name ", "ops"] raggedRows ∧
    IsColumn ["ops", " name ", "ops"] nameColumn 1 ∧
    IsColumn ["ops", " name ", "ops"] Family.list.throughputColumn 0 ∧
    read .list "results.csv" raggedTable = .error ⟨"results.csv", .shortRow 2 nameColumn⟩ := by
  have hasHeader : HasHeader raggedTable ["ops", " name ", "ops"] raggedRows := by
    refine ⟨⟨0, ["ops", " name ", "ops"].map Text.toUtf8⟩, ?_, rfl⟩
    decide +kernel
  have isName : IsColumn ["ops", " name ", "ops"] nameColumn 1 := by
    rw [← columnIndex_eq_ok_iff]
    decide +kernel
  have isValue : IsColumn ["ops", " name ", "ops"] Family.list.throughputColumn 0 := by
    rw [← columnIndex_eq_ok_iff]
    decide +kernel
  have reads :=
    ((read_eq_records_or_first_offence .list "results.csv" raggedTable _ raggedRows hasHeader).2
      1 isName).2 0 isValue
  have offends : Offends raggedTable 1 2 ⟨25, [Text.toUtf8 "7"]⟩ (.shortRow 2 nameColumn) :=
    @Offends.short _ _ _ _ ["7"] rfl (Nat.le_refl 1)
  have haveNames :
      ∀ row ∈ [(⟨15, ["1.5", "A", "2", "3"].map Text.toUtf8⟩ : Csv.Row)], HasName 1 row :=
    List.forall_mem_singleton.mpr ⟨["1.5", "A", "2", "3"], rfl, by decide⟩
  have refused := (reads.blames ⟨"results.csv", .shortRow 2 nameColumn⟩).mpr
    ⟨_, _, _, _, rfl, haveNames, offends, rfl⟩
  exact ⟨hasHeader, isName, isValue, refused⟩

end Table
end ThroughputCharts
