import ThroughputCharts.Decimal.Numeral
import ThroughputCharts.Json.Value

/-!
# Reading JSON

A strict reader of JSON texts, made from the grammar of JSON and not from the way that texts are
written here.  A text is taken apart into tokens first: marks, strings, and words for numbers and
literals.  The tokens are then put together by a machine that keeps a stack of what is still open.
-/

namespace ThroughputCharts
namespace Json

/-- A value as it is read.  Numbers are exact decimals, and objects keep the order of their members. -/
inductive Document
  | null
  | boolean (value : Bool)
  | string (text : String)
  | number (numeral : Decimal.Numeral)
  | array (items : List Document)
  | object (members : List (String × Document))

section Numbers

/-- Whether digits are a whole part: there are some, and no zero stands in front of others. -/
def isWholePart (digits : List Char) : Bool :=
  !digits.isEmpty && (digits == ['0'] || digits.head? != some '0')

/-- Whether a text has no more than a minus sign in front of a whole part, and a digit behind its
point. -/
def isStrict (text : List Char) : Bool :=
  let unsigned := if text.head? = some '-' then text.tail else text
  let rest := unsigned.dropWhile Char.isDigit
  isWholePart (unsigned.takeWhile Char.isDigit) &&
    (rest.head? != some '.' || !(Decimal.splitFraction rest).1.isEmpty)

def readNumber? (text : List Char) : Option Decimal.Numeral :=
  if isStrict text then Decimal.readNumeral? text else none

end Numbers

section Strings

def hexValue? (char : Char) : Option Nat :=
  if char.isDigit then some (char.toNat - '0'.toNat)
  else if 'a' ≤ char ∧ char ≤ 'f' then some (char.toNat - 'a'.toNat + 10)
  else if 'A' ≤ char ∧ char ≤ 'F' then some (char.toNat - 'A'.toNat + 10)
  else none

/-- The UTF-16 code unit of four hexadecimal digits. -/
def unit? (digits : List Char) : Option Nat :=
  if digits.length = 4 then
    (digits.mapM hexValue?).map fun values => values.foldl (fun unit value => 16 * unit + value) 0
  else
    none

def isHighSurrogate (unit : Nat) : Bool :=
  decide (0xD800 ≤ unit) && decide (unit < 0xDC00)

def isLowSurrogate (unit : Nat) : Bool :=
  decide (0xDC00 ≤ unit) && decide (unit < 0xE000)

/-- The character that a text begins with as a code unit, and how many characters it takes.  A high
surrogate goes with the low one that is escaped behind it, and no surrogate stands alone. -/
def codePoint? (text : List Char) : Option (Char × Nat) := do
  let unit ← unit? (text.take 4)
  if isLowSurrogate unit then
    none
  else if isHighSurrogate unit then do
    guard ((text.drop 4).take 2 = ['\\', 'u'])
    let low ← unit? ((text.drop 6).take 4)
    guard (isLowSurrogate low)
    return (Char.ofNat (0x10000 + 0x400 * (unit - 0xD800) + (low - 0xDC00)), 10)
  else
    return (Char.ofNat unit, 4)

/-- The characters that are escaped by a letter or by themselves. -/
def shortEscapes : List (Char × Char) :=
  [(quote, quote), ('\\', '\\'), ('/', '/'), ('b', '\x08'), ('f', '\x0c'), ('n', '\n'), ('r', '\r'),
    ('t', '\t')]

/-- The character that is escaped behind a backslash, and how many characters that takes. -/
def escaped? : List Char → Option (Char × Nat)
  | [] => none
  | letter :: rest =>
    if letter = 'u' then
      (codePoint? rest).map fun (char, length) => (char, length + 1)
    else
      (shortEscapes.lookup letter).map fun char => (char, 1)

/-- The string behind an opening quote, and how many characters it takes with its closing quote. -/
def readString? : List Char → Option (List Char × Nat)
  | [] => none
  | char :: rest =>
    if char = quote then
      some ([], 1)
    else if char = '\\' then
      match escaped? rest with
      | none => none
      | some (meant, length) =>
        (readString? (rest.drop length)).map fun (content, others) =>
          (meant :: content, others + length + 1)
    else if char.toNat < 0x20 then
      none
    else
      (readString? rest).map fun (content, others) => (char :: content, others + 1)
termination_by text => text.length
decreasing_by
  · simp only [List.length_drop, List.length_cons]
    omega
  · simp only [List.length_cons]
    omega

end Strings

section Tokens

inductive Mark
  | openArray
  | closeArray
  | openObject
  | closeObject
  | comma
  | colon
  deriving DecidableEq

/-- What a text is made of; a word stands for a whole value. -/
inductive Token
  | mark (mark : Mark)
  | string (text : String)
  | word (value : Document)

def marks : List (Char × Mark) :=
  [('[', .openArray), (']', .closeArray), ('\x7b', .openObject), ('\x7d', .closeObject),
    (',', .comma), (':', .colon)]

def isBlank (char : Char) : Bool :=
  char == ' ' || char == '\t' || char == '\n' || char == '\r'

/-- Whether a character can occur in a word. -/
def isWordChar (char : Char) : Bool :=
  char.isAlphanum || char == '+' || char == '-' || char == '.'

def literals : List (List Char × Document) :=
  [("null".toList, .null), ("true".toList, .boolean true), ("false".toList, .boolean false)]

def word? (text : List Char) : Option Document :=
  (literals.lookup text).or ((readNumber? text).map .number)

/-- Takes a text apart. -/
def tokens? : List Char → Option (List Token)
  | [] => some []
  | char :: rest =>
    if isBlank char then
      tokens? rest
    else if char = quote then
      match readString? rest with
      | none => none
      | some (content, length) =>
        (tokens? (rest.drop length)).map (.string (String.ofList content) :: ·)
    else
      match marks.lookup char with
      | some mark => (tokens? rest).map (.mark mark :: ·)
      | none =>
        match word? (char :: rest.takeWhile isWordChar) with
        | some value => (tokens? (rest.dropWhile isWordChar)).map (.word value :: ·)
        | none => none
termination_by text => text.length
decreasing_by
  · simp only [List.length_cons]
    omega
  · simp only [List.length_drop, List.length_cons]
    omega
  · simp only [List.length_cons]
    omega
  · have shorter := (List.dropWhile_suffix (l := rest) isWordChar).length_le
    simp only [List.length_cons]
    omega

end Tokens

section Machine

/-- A value that is still open: an array with its items so far, or an object with its members so far
and the name of the next one. -/
inductive Unclosed
  | array (items : List Document)
  | object (members : List (String × Document)) (name : String)

/-- What a reader waits for. -/
inductive State
  | value (unclosed : List Unclosed)
  | firstItem (unclosed : List Unclosed)
  | behindItem (items : List Document) (unclosed : List Unclosed)
  | firstName (unclosed : List Unclosed)
  | nextName (members : List (String × Document)) (unclosed : List Unclosed)
  | colon (members : List (String × Document)) (name : String) (unclosed : List Unclosed)
  | behindMember (members : List (String × Document)) (unclosed : List Unclosed)
  | complete (document : Document)

/-- Puts a value where it belongs. -/
def deliver (value : Document) : List Unclosed → State
  | [] => .complete value
  | .array items :: unclosed => .behindItem (items ++ [value]) unclosed
  | .object members name :: unclosed => .behindMember (members ++ [(name, value)]) unclosed

/-- Begins a value with its first token. -/
def begin? (unclosed : List Unclosed) : Token → Option State
  | .string text => some (deliver (.string text) unclosed)
  | .word value => some (deliver value unclosed)
  | .mark .openArray => some (.firstItem unclosed)
  | .mark .openObject => some (.firstName unclosed)
  | .mark _ => none

def step? : State → Token → Option State
  | .value unclosed, token => begin? unclosed token
  | .firstItem unclosed, .mark .closeArray => some (deliver (.array []) unclosed)
  | .firstItem unclosed, token => begin? (.array [] :: unclosed) token
  | .behindItem items unclosed, .mark .comma => some (.value (.array items :: unclosed))
  | .behindItem items unclosed, .mark .closeArray => some (deliver (.array items) unclosed)
  | .firstName unclosed, .mark .closeObject => some (deliver (.object []) unclosed)
  | .firstName unclosed, .string name => some (.colon [] name unclosed)
  | .nextName members unclosed, .string name => some (.colon members name unclosed)
  | .colon members name unclosed, .mark .colon => some (.value (.object members name :: unclosed))
  | .behindMember members unclosed, .mark .comma => some (.nextName members unclosed)
  | .behindMember members unclosed, .mark .closeObject => some (deliver (.object members) unclosed)
  | _, _ => none

/-- The document that a text holds; there is none when it is no JSON. -/
def read? (text : String) : Option Document := do
  let tokens ← tokens? text.toList
  match ← tokens.foldlM step? (.value []) with
  | .complete document => some document
  | _ => none

end Machine

end Json
end ThroughputCharts
