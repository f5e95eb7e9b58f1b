import ThroughputCharts.Csv.Row
import ThroughputCharts.Family
import ThroughputCharts.Measurement
import ThroughputCharts.Text.Utf8

/-!
# Results tables

A results table has a header and one row per trial.  Two columns matter, found by their names in the
header: the case name and the family's throughput.  A table is read as a whole or not at all, and a
refused table is blamed on its first offence.
-/

namespace ThroughputCharts

/-- One trial as the table reports it. -/
structure Record where
  name : String
  value : Option Float
  unit : ThroughputUnit
  deriving DecidableEq

namespace Table

/-- The first field of a row that is not UTF-8, and the length of its valid part in bytes. -/
structure EncodingFault where
  field : Nat
  validBytes : Nat
  offset : Nat
  line : Nat
  deriving DecidableEq

/-- What is wrong with a table; row zero is the header. -/
inductive Fault
  | unreadable (row : Nat) (fault : EncodingFault)
  | missingColumn (column : String)
  | shortRow (row : Nat) (column : String)
  deriving DecidableEq

/-- A refused table, by the name of its source. -/
structure Error where
  source : String
  fault : Fault
  deriving DecidableEq

def nameColumn : String := "name"

def EncodingFault.message (row : Nat) (fault : EncodingFault) : String :=
  "CSV parse error: record " ++ Nat.repr row ++ " (line " ++ Nat.repr fault.line ++ ", field: " ++
    Nat.repr fault.field ++ ", byte: " ++ Nat.repr fault.offset ++
    "): invalid utf-8: invalid UTF-8 in field " ++ Nat.repr fault.field ++ " near byte index " ++
    Nat.repr fault.validBytes

def Error.headline (error : Error) : String :=
  match error.fault with
  | .unreadable 0 _ => "Failed to read header of " ++ error.source
  | .unreadable row _ => "Failed to read row " ++ Nat.repr row ++ " of " ++ error.source
  | .missingColumn column => "input `" ++ error.source ++ "` has no `" ++ column ++ "` column"
  | .shortRow row column =>
    "input `" ++ error.source ++ "` row " ++ Nat.repr row ++ " has no `" ++ column ++ "` field"

/-- What caused the error, where the headline does not say it. -/
def Error.cause? (error : Error) : Option String :=
  match error.fault with
  | .unreadable row fault => some (fault.message row)
  | _ => none

/-- The texts of fields, or the first field that has none; `field` counts the fields before. -/
def readFields (field : Nat) : List (List UInt8) → Except (Nat × Nat) (List String)
  | [] => .ok []
  | bytes :: rest =>
    match Text.ofUtf8 bytes with
    | .ok text => (readFields (field + 1) rest).map (text :: ·)
    | .error validBytes => .error (field, validBytes)

/-- The cells of a row of the table with the given bytes. -/
def readCells (bytes : List UInt8) (number : Nat) (row : Csv.Row) : Except Fault (List String) :=
  (readFields 0 row.fields).mapError fun (field, validBytes) =>
    .unreadable number
      { field, validBytes, offset := row.offset, line := Csv.lineAt bytes row.offset }

/-- The position of a column: the first header cell that is its name, blanks around it aside. -/
def columnIndex (header : List String) (column : String) : Except Fault Nat :=
  match header.findIdx? fun cell => Text.trim cell.toList == column.toList with
  | some index => .ok index
  | none => .error (.missingColumn column)

def recordOfCells (family : Family) (nameIndex valueIndex number : Nat) (cells : List String) :
    Except Fault Record :=
  match cells[nameIndex]? with
  | some name =>
    .ok { name, value := cells[valueIndex]?.bind Measurement.read?, unit := family.unit }
  | none => .error (.shortRow number nameColumn)

/-- The records in the rows after the header, of which the first has the given number. -/
def readRecords (family : Family) (bytes : List UInt8) (nameIndex valueIndex : Nat) :
    Nat → List Csv.Row → Except Fault (List Record)
  | _, [] => .ok []
  | number, row :: rest => do
    let cells ← readCells bytes number row
    let record ← recordOfCells family nameIndex valueIndex number cells
    let records ← readRecords family bytes nameIndex valueIndex (number + 1) rest
    return record :: records

/-- Reads the rows of a table: the header first, then both columns, then every row. -/
def readRows (family : Family) (bytes : List UInt8) (rows : List Csv.Row) :
    Except Fault (List Record) := do
  let header ← match rows.head? with
    | some row => readCells bytes 0 row
    | none => .ok []
  let nameIndex ← columnIndex header nameColumn
  let valueIndex ← columnIndex header family.throughputColumn
  readRecords family bytes nameIndex valueIndex 1 rows.tail

def read (family : Family) (source : String) (bytes : List UInt8) : Except Error (List Record) :=
  (readRows family bytes (Csv.rows bytes)).mapError (Error.mk source)

end Table

end ThroughputCharts
