import ThroughputCharts.Export
import ThroughputCharts.Proofs.JsonText
import ThroughputCharts.Proofs.KeyOrder

/-!
# Points read back from the export

A reader of JSON that looks up members by their names gets the exported points back, each with all its
fields, so that lists of points that differ have exports that differ.
-/

namespace ThroughputCharts

namespace Json.Document

def member? (name : String) : Document → Option Document
  | .object members => members.lookup name
  | _ => none

def text? : Document → Option String
  | .string text => some text
  | _ => none

/-- The natural number that a number without fraction and exponent stands for. -/
def natural? : Document → Option Nat
  | .number ⟨false, coefficient, 0⟩ => some coefficient
  | _ => none

def count? (document : Document) : Option UInt64 :=
  (document.natural?.filter (· < UInt64.size)).map Nat.toUInt64

/-- The binary64 number nearest to a number. -/
def real? : Document → Option Float
  | .number numeral => some numeral.toFloat
  | _ => none

theorem count?_toNat (count : UInt64) :
    count? (.number ⟨false, count.toNat, 0⟩) = some count := by
  simp [count?, natural?, count.toNat_lt_size]

end Json.Document

namespace Export

open Json

/-- The workload of a point: a tag, or null for none. -/
def readWorkload? : Document → Option (Option Workload)
  | .null => some none
  | .string tag => (Workload.ofTag? tag).map some
  | _ => none

def readSize? (document : Document) : Option ProblemSize := do
  let kind ← (← document.member? "kind").text?
  let count ← (← document.member? "value").count?
  match kind with
  | "elements" => some (.elements count)
  | "operations" => some (.operations count)
  | _ => none

def readPoint? (document : Document) : Option Point := do
  let variant ← (← document.member? "variant").text?
  let workload ← readWorkload? (← document.member? "workload")
  let threads ← (← document.member? "thread_count").count?
  let size ← readSize? (← document.member? "problem_size")
  let throughput ← (← document.member? "throughput").real?
  let trials ← (← document.member? "trials").natural?
  return ⟨⟨variant, workload, threads, size⟩, throughput, trials⟩

/-- The points in an exported text. -/
def readPoints? (text : String) : Option (List Point) := do
  match ← Json.read? text with
  | .array items => items.mapM readPoint?
  | _ => none

theorem readWorkload?_workloadJson (workload : Option Workload) :
    readWorkload? (document (workloadJson workload)) = some workload := by
  cases workload with
  | none => rfl
  | some workload => simp [workloadJson, document, readWorkload?, Workload.ofTag?_tag]

theorem readSize?_sizeJson (size : ProblemSize) :
    readSize? (document (sizeJson size)) = some size := by
  cases size with
  | elements count =>
      simp [sizeJson, document, memberDocuments, readSize?, Document.member?, List.lookup,
        Document.text?, ProblemSize.kind, ProblemSize.count, Document.count?_toNat]
  | operations count =>
      simp [sizeJson, document, memberDocuments, readSize?, Document.member?, List.lookup,
        Document.text?, ProblemSize.kind, ProblemSize.count, Document.count?_toNat]

theorem readPoint?_pointJson {point : Point} (isFinite : point.throughput.isFinite = true) :
    readPoint? (document (pointJson point)) = some point := by
  obtain ⟨numeral, isNumeral, isThroughput⟩ := realDocument_of_isFinite isFinite
  have workload := readWorkload?_workloadJson point.key.workload
  have size := readSize?_sizeJson point.key.size
  simp [pointJson, document, memberDocuments, readPoint?, Document.member?, List.lookup,
    Document.text?, workload, Document.count?_toNat, size, isNumeral, Document.real?, isThroughput,
    Document.natural?]

theorem mapM_readPoint?_itemDocuments {points : List Point}
    (finite : ∀ point ∈ points, point.throughput.isFinite = true) :
    (itemDocuments (points.map pointJson)).mapM readPoint? = some points := by
  induction points with
  | nil => rfl
  | cons point points induction =>
      rw [List.forall_mem_cons] at finite
      rw [List.map_cons, itemDocuments, List.mapM_cons, readPoint?_pointJson finite.1,
        induction finite.2]
      rfl

theorem readPoints?_text {points : List Point}
    (finite : ∀ point ∈ points, point.throughput.isFinite = true) :
    readPoints? (text points) = some points := by
  rw [readPoints?, text, read?_text]
  exact mapM_readPoint?_itemDocuments finite

/-- The export of points with finite throughputs is JSON from which the same points are read in the
same order, with all the bits of their throughputs, and no other such points have that export. -/
theorem text_determines_points (points : List Point)
    (finite : ∀ point ∈ points, point.throughput.isFinite = true) :
    (∃ document, Json.read? (text points) = some document) ∧
    readPoints? (text points) = some points ∧
    ∀ others : List Point, (∀ point ∈ others, point.throughput.isFinite = true) →
      text others = text points → others = points := by
  refine ⟨⟨_, read?_text _⟩, readPoints?_text finite, ?_⟩
  intro others othersFinite sameText
  have sameRead := readPoints?_text othersFinite
  rw [sameText, readPoints?_text finite] at sameRead
  exact (Option.some.inj sameRead).symm

/-- Points whose texts need every kind of escape, and whose throughputs are the negative zero, the
least positive number and the greatest finite one. -/
def intricatePoints : List Point :=
  [⟨⟨"\x22q\\\n\x01é😀", none, 0, .operations 18446744073709551615⟩, -0.0, 0⟩,
    ⟨⟨"", some .balanced, 18446744073709551615, .elements 1⟩, 5e-324, 18446744073709551615⟩,
    ⟨⟨"\x08\x0c\r\t\x1f/", some .readHeavy, 1, .elements 0⟩, 1.7976931348623157e308, 3⟩]

theorem text_determines_intricatePoints :
    (∀ point ∈ intricatePoints, point.throughput.isFinite = true) ∧
    (∃ document, Json.read? (text intricatePoints) = some document) ∧
    readPoints? (text intricatePoints) = some intricatePoints ∧
    ∀ others : List Point, (∀ point ∈ others, point.throughput.isFinite = true) →
      text others = text intricatePoints → others = intricatePoints := by
  have finite : ∀ point ∈ intricatePoints, point.throughput.isFinite = true := by decide +kernel
  exact ⟨finite, text_determines_points intricatePoints finite⟩

end Export

end ThroughputCharts
