/-!
# Rows of comma-separated values

A table is read one byte at a time.  Commas end fields, and a line feed or a carriage return ends a
row; between rows both are skipped, so that blank lines leave no row.  A field that starts with a
quote runs to the next single quote, with two quotes standing for one; what follows the closing quote
up to the end of the field is taken as it stands.
-/

namespace ThroughputCharts
namespace Csv

/-- A row: its fields, and how many bytes of the table come before it. -/
structure Row where
  offset : Nat
  fields : List (List UInt8)
  deriving DecidableEq

/-- Where in a row the reader stands. -/
inductive Mode
  | between
  | fieldStart
  | bare
  | quoted
  | quoteSeen
  deriving DecidableEq

/-- The reader's state: the current field, the earlier fields of the row and the earlier rows are
all kept last first. -/
structure ReadState where
  mode : Mode
  consumed : Nat
  offset : Nat
  field : List UInt8
  fields : List (List UInt8)
  rows : List Row

def comma : UInt8 := 0x2C

def quote : UInt8 := 0x22

def lineFeed : UInt8 := 0x0A

def carriageReturn : UInt8 := 0x0D

def isRowEnd (byte : UInt8) : Bool :=
  byte == lineFeed || byte == carriageReturn

/-- The UTF-8 encoding of U+FEFF, which may open a table. -/
def byteOrderMark : List UInt8 := [0xEF, 0xBB, 0xBF]

namespace ReadState

/-- The state before the first byte that counts. -/
def start (consumed : Nat) : ReadState :=
  { mode := .between, consumed, offset := 0, field := [], fields := [], rows := [] }

def push (state : ReadState) (mode : Mode) (byte : UInt8) : ReadState :=
  { state with mode, field := byte :: state.field }

def endField (state : ReadState) : ReadState :=
  { state with mode := .fieldStart, field := [], fields := state.field.reverse :: state.fields }

/-- Ends the row; the next one begins at what has been consumed by now. -/
def endRow (state : ReadState) : ReadState :=
  { state with
    mode := .between
    offset := state.consumed
    field := []
    fields := []
    rows := ⟨state.offset, (state.field.reverse :: state.fields).reverse⟩ :: state.rows }

/-- Reads a byte outside quotes; text goes on in the given mode. -/
def readBare (state : ReadState) (byte : UInt8) : ReadState :=
  if byte == comma then state.endField
  else if isRowEnd byte then state.endRow
  else state.push .bare byte

def readFieldStart (state : ReadState) (byte : UInt8) : ReadState :=
  if byte == quote then { state with mode := .quoted } else state.readBare byte

def step (state : ReadState) (byte : UInt8) : ReadState :=
  let state := { state with consumed := state.consumed + 1 }
  match state.mode with
  | .between => if isRowEnd byte then state else state.readFieldStart byte
  | .fieldStart => state.readFieldStart byte
  | .bare => state.readBare byte
  | .quoted => if byte == quote then { state with mode := .quoteSeen } else state.push .quoted byte
  | .quoteSeen => if byte == quote then state.push .quoted byte else state.readBare byte

/-- Every row, once the bytes have run out. -/
def finish (state : ReadState) : List Row :=
  match state.mode with
  | .between => state.rows.reverse
  | _ => state.endRow.rows.reverse

end ReadState

/-- The rows of a table, without a byte order mark in front. -/
def rows (bytes : List UInt8) : List Row :=
  if byteOrderMark.isPrefixOf bytes then
    ((bytes.drop 3).foldl ReadState.step (.start 3)).finish
  else
    (bytes.foldl ReadState.step (.start 0)).finish

/-- The line on which the byte at an offset stands, counting line feeds from one. -/
def lineAt (bytes : List UInt8) (offset : Nat) : Nat :=
  (bytes.take offset).count lineFeed + 1

end Csv
end ThroughputCharts
