import ThroughputCharts.CaseName.Fault
import ThroughputCharts.Decimal.Count
import ThroughputCharts.Key
import ThroughputCharts.Text.Split

/-!
# Case names of list benchmarks

A list benchmark is named `<benchmark>_<workload><<variant><...>>/<threads>/<size>`.  The variant is
the identifier that opens the template argument; its own template arguments do not matter.
-/

namespace ThroughputCharts
namespace ListName

/-- The benchmark name in front of the workload tag of written names. -/
def benchmark : String := "BM"

/-- The element type in the template argument of written names. -/
def elementType : String := "int"

/-- Splits a text that has `depth + 1` open angle brackets where the outermost one closes. -/
def splitAtClose? (depth : Nat) : List Char → Option (List Char × List Char)
  | [] => none
  | char :: rest =>
    if char = '>' then
      match depth with
      | 0 => some ([], rest)
      | shallower + 1 =>
        (splitAtClose? shallower rest).map fun (inside, after) => (char :: inside, after)
    else
      let deeper := if char = '<' then depth + 1 else depth
      (splitAtClose? deeper rest).map fun (inside, after) => (char :: inside, after)

def isBracket (char : Char) : Bool :=
  char == '<' || char == '>'

/-- The workload and the variant in the first segment of a name. -/
def readHead (head : List Char) : Except NameFault (Workload × String) := do
  let some (front, argument) := Text.splitAtFirst? '<' head | throw .missingTemplate
  let some (benchmark, tag) := Text.splitAtLast? '_' front | throw .missingPrefix
  if benchmark.isEmpty then
    throw .missingPrefix
  let tag := String.ofList tag
  let some workload := Workload.ofTag? tag | throw (.unknownWorkload tag)
  let some (inside, trailing) := splitAtClose? 0 argument | throw .missingTemplate
  let variant := inside.takeWhile (!isBracket ·)
  if variant.isEmpty then
    throw .missingTemplate
  if !trailing.isEmpty then
    throw (.trailingText (String.ofList trailing))
  return (workload, String.ofList variant)

def readCount (field : CountField) (text : List Char) : Except NameFault UInt64 :=
  match Decimal.readCount? text with
  | some count => .ok count
  | none => .error (.invalidCount field (String.ofList text))

def readSegments (segments : List (List Char)) : Except NameFault Key :=
  match segments with
  | [head, threads, size] => do
    let (workload, variant) ← readHead head
    let threads ← readCount .threads threads
    let size ← readCount .problemSize size
    return { variant, workload := some workload, threads, size := .elements size }
  | _ => .error (.segmentCount (.exactly 3) segments.length)

def decode (name : String) : Except NameError Key :=
  (readSegments (Text.pieces '/' name.toList)).mapError (NameError.mk name)

/-- The name under which the list benchmarks run a configuration. -/
def encode (workload : Workload) (variant : String) (threads size : UInt64) : String :=
  benchmark ++ "_" ++ workload.tag ++ "<" ++ variant ++ "<" ++ elementType ++ ">>/" ++
    Nat.repr threads.toNat ++ "/" ++ Nat.repr size.toNat

end ListName
end ThroughputCharts
