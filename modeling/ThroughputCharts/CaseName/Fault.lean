/-!
# Malformed case names

A case name is refused with the first rule of its grammar that it breaks.  The fault says which rule
that is and quotes the offending piece; the message also quotes the whole name.
-/

namespace ThroughputCharts

inductive SegmentBound
  | exactly (count : Nat)
  | atLeast (count : Nat)
  deriving DecidableEq

/-- The count that a segment of a case name stands for. -/
inductive CountField
  | threads
  | problemSize
  | operations
  deriving DecidableEq

/-- The rule that a malformed case name breaks. -/
inductive NameFault
  | segmentCount (expected : SegmentBound) (found : Nat)
  | missingPrefix
  | missingTemplate
  | trailingText (trailing : String)
  | unknownWorkload (tag : String)
  | missingVariant
  | missingRealTime
  | missingOperationCount
  | invalidCount (field : CountField) (text : String)
  deriving DecidableEq

/-- A refused case name together with its fault. -/
structure NameError where
  name : String
  fault : NameFault
  deriving DecidableEq

def SegmentBound.display : SegmentBound → String
  | .exactly count => Nat.repr count
  | .atLeast count => "at least " ++ Nat.repr count

def CountField.label : CountField → String
  | .threads => "thread count"
  | .problemSize => "problem size"
  | .operations => "operation count"

/-- What is wrong, worded to follow the quoted case name. -/
def NameFault.describe : NameFault → String
  | .segmentCount expected found =>
    "has " ++ Nat.repr found ++ " '/'-separated segments, expected " ++ expected.display
  | .missingPrefix => "has no `<prefix>_` before the workload tag"
  | .missingTemplate => "has no balanced `<...>` template argument"
  | .trailingText trailing =>
    "has trailing text `" ++ trailing ++ "` after the template argument"
  | .unknownWorkload tag => "has unknown workload `" ++ tag ++ "`"
  | .missingVariant => "has no templated variant identifier"
  | .missingRealTime => "does not end in `/real_time`"
  | .missingOperationCount => "has no operation count before the thread count"
  | .invalidCount field text => "has invalid " ++ field.label ++ " `" ++ text ++ "`"

def NameError.message (error : NameError) : String :=
  "case name `" ++ error.name ++ "` " ++ error.fault.describe

end ThroughputCharts
