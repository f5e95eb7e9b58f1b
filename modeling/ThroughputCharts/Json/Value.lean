import ThroughputCharts.Decimal.Layout

/-!
# JSON values

A JSON value is written over several lines, each level indented by two more blanks.  Empty arrays and
objects stay on one line.
-/

namespace ThroughputCharts

/-- A JSON value; objects keep the order of their members, and numbers are either natural or
binary64. -/
inductive Json
  | null
  | string (text : String)
  | natural (number : Nat)
  | real (number : Float)
  | array (items : List Json)
  | object (members : List (String × Json))

namespace Json

def quote : Char := '\x22'

def hexDigits (number : Nat) : List Char :=
  [Nat.digitChar (number / 16), Nat.digitChar (number % 16)]

/-- A character as it is written inside quotes: quotes, backslashes and control characters are
escaped, and all else stands for itself. -/
def escape (char : Char) : List Char :=
  if char = quote ∨ char = '\\' then ['\\', char]
  else if char = '\x08' then ['\\', 'b']
  else if char = '\x0c' then ['\\', 'f']
  else if char = '\n' then ['\\', 'n']
  else if char = '\r' then ['\\', 'r']
  else if char = '\t' then ['\\', 't']
  else if char.toNat < 0x20 then ['\\', 'u', '0', '0'] ++ hexDigits char.toNat
  else [char]

def stringText (text : String) : List Char :=
  quote :: text.toList.flatMap escape ++ [quote]

/-- A number that is not finite has no JSON text and is written as null. -/
def realText (number : Float) : List Char :=
  match Binary64.parts number with
  | .finite negative magnitude => Decimal.exportText negative magnitude
  | _ => "null".toList

def newLine (depth : Nat) : List Char :=
  '\n' :: List.replicate (2 * depth) ' '

/-- Items between brackets, each on a line of its own. -/
def bracketed (opening closing : Char) (depth : Nat) (items : List (List Char)) : List Char :=
  match items with
  | [] => [opening, closing]
  | _ =>
    opening :: newLine (depth + 1) ++ (',' :: newLine (depth + 1)).intercalate items ++
      newLine depth ++ [closing]

mutual

/-- The text of a value whose first line is indented already. -/
def textAt (depth : Nat) : Json → List Char
  | .null => "null".toList
  | .string text => stringText text
  | .natural number => Nat.toDigits 10 number
  | .real number => realText number
  | .array items => bracketed '[' ']' depth (itemTexts (depth + 1) items)
  | .object members => bracketed '\x7b' '\x7d' depth (memberTexts (depth + 1) members)

def itemTexts (depth : Nat) : List Json → List (List Char)
  | [] => []
  | item :: rest => textAt depth item :: itemTexts depth rest

def memberTexts (depth : Nat) : List (String × Json) → List (List Char)
  | [] => []
  | (name, value) :: rest =>
    (stringText name ++ ':' :: ' ' :: textAt depth value) :: memberTexts depth rest

end

def text (value : Json) : String :=
  String.ofList (textAt 0 value)

end Json

end ThroughputCharts
