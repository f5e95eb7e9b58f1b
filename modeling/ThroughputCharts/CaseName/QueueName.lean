import ThroughputCharts.CaseName.ListName

/-!
# Case names of queue benchmarks

A queue benchmark is named `<head>/…/<operations>/…/<threads>/real_time`.  The head is a chain of
template applications; the variant is the first identifier that opens a template argument list of its
own, or else the last identifier that stands alone between brackets.
-/

namespace ThroughputCharts
namespace QueueName

/-- The marker on adapter types, which share the variant of the queue they wrap. -/
def wrapperSuffix : String := "Wrapper"

def realTime : String := "real_time"

/-- Drops a final marker from a text, unless nothing would remain. -/
def dropMarker (marker text : List Char) : List Char :=
  if marker.isSuffixOf text && decide (marker.length < text.length) then
    text.take (text.length - marker.length)
  else
    text

/-- Strips the wrapper marker, so that wrapped and bare queues share a variant. -/
def normalizeVariant (variant : String) : String :=
  String.ofList (dropMarker wrapperSuffix.toList variant.toList)

def isWordChar (char : Char) : Bool :=
  char.isAlphanum || char == '_'

/-- Whether a run of word characters is an identifier: it starts with a letter. -/
def startsWithLetter : List Char → Bool
  | [] => false
  | char :: _ => char.isAlpha

/-- Scans a head for its variant; `standing` is the last identifier seen alone between brackets. -/
def scanVariant (standing : Option (List Char)) : List Char → Option (List Char)
  | [] => standing
  | char :: rest =>
    if char = '<' then
      let word := rest.takeWhile isWordChar
      if startsWithLetter word then
        match (rest.dropWhile isWordChar).head? with
        | some '<' => some word
        | some '>' => scanVariant (some word) rest
        | _ => scanVariant standing rest
      else
        scanVariant standing rest
    else
      scanVariant standing rest

/-- The identifier that names the queue in a head. -/
def templatedIdentifier (head : List Char) : Option (List Char) :=
  scanVariant none head

def readSegments (segments : List (List Char)) : Except NameFault Key :=
  match segments with
  | head :: rest =>
    match rest.reverse with
    | last :: threads :: before :: earlier => do
      if String.ofList last ≠ realTime then
        throw .missingRealTime
      let threads ← ListName.readCount .threads threads
      let some operations := (before :: earlier).reverse.find? Decimal.isDigits
        | throw .missingOperationCount
      let operations ← ListName.readCount .operations operations
      let some variant := templatedIdentifier head | throw .missingVariant
      return {
        variant := normalizeVariant (String.ofList variant)
        workload := none
        threads
        size := .operations operations }
    | _ => .error (.segmentCount (.atLeast 4) segments.length)
  | [] => .error (.segmentCount (.atLeast 4) 0)

def decode (name : String) : Except NameError Key :=
  (readSegments (Text.pieces '/' name.toList)).mapError (NameError.mk name)

end QueueName
end ThroughputCharts
