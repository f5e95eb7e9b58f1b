import ThroughputCharts.Proofs.FloatWhole
import ThroughputCharts.Proofs.SampleTrials

/-!
# The draws of a sample

Random draws are made for some arguments only: an event that can happen has a positive probability,
and a number is drawn from a range that is not empty.  The guarded generator stops at any other draw.
A sample never does, whatever its failure rate is, and the names of its rows follow the request alone.
-/

namespace ThroughputCharts

namespace Random.Stream

/-- Decides an event that can happen.  There is no draw for a number that is not a probability, or that
is the probability of nothing. -/
def chance? (probability : Float) (stream : Stream) : Option (Bool × Stream) :=
  if 0.0 < probability ∧ probability ≤ 1.0 then some (stream.chance probability) else none

/-- A number from an interval that is not empty and has a finite width. -/
def between? (low high : Float) (stream : Stream) : Option (Float × Stream) :=
  if low < high ∧ (high - low).isFinite = true then some (stream.between low high rejections)
  else none

/-- A whole number below a bound that is not zero. -/
def below? (bound : UInt64) (stream : Stream) : Option (Nat × Stream) :=
  if 0 < bound then some (stream.below bound rejections) else none

theorem scaled_lt (draw : UInt64) {bound : UInt64} (positive : 0 < bound) :
    draw.toNat * bound.toNat / UInt64.size < bound.toNat := by
  apply Nat.div_lt_of_lt_mul
  exact Nat.mul_lt_mul_of_pos_right draw.toNat_lt_size positive

theorem below_lt {bound : UInt64} (positive : 0 < bound) (fuel : Nat) (stream : Stream) :
    (below bound fuel stream).1 < bound.toNat := by
  induction fuel generalizing stream with
  | zero => exact scaled_lt stream.next.1 positive
  | succ fuel induction =>
      rw [below]
      dsimp only
      split
      · exact scaled_lt stream.next.1 positive
      · exact induction stream.next.2

end Random.Stream

namespace Sample

open Binary64

/-- Draws that stop at an argument for which there is no draw. -/
def Draws.guarded : Draws Option where
  chance := Random.Stream.chance?
  between := Random.Stream.between?
  below := Random.Stream.below?

/-- The rows of a sample, unless one of its draws is outside what can be drawn. -/
def rows? (request : Request) (power : Power) : Option (List Row) :=
  drawSample Draws.guarded request power

section Guarded

variable (rate : Float) (configuration : Configuration) (stream : Random.Stream)

/-- What is taken for the probability of a failure is one that can happen. -/
theorem drawFailure_guarded :
    drawFailure Draws.guarded rate stream = some (drawFailure Draws.total rate stream).run := by
  unfold drawFailure
  split
  next positive =>
    have probability : 0.0 < (if rate < 1.0 then rate else 1.0) ∧
        (if rate < 1.0 then rate else 1.0) ≤ 1.0 := by
      split
      next less => exact ⟨positive, Binary64.le_of_lt less⟩
      next => exact ⟨by decide, by decide⟩
    exact if_pos probability
  next => rfl

theorem drawThroughput_guarded (expected : Float) :
    drawThroughput Draws.guarded expected stream =
      some (drawThroughput Draws.total expected stream).run := by
  have interval : (0.9 : Float) < 1.1 ∧ ((1.1 : Float) - 0.9).isFinite = true := by
    constructor <;> decide
  have drawn : Draws.guarded.between 0.9 1.1 stream =
      some (Draws.total.between 0.9 1.1 stream).run := by
    change stream.between? 0.9 1.1 = _
    rw [Random.Stream.between?, if_pos interval]
    rfl
  simp [drawThroughput, drawn]

theorem drawIterations_guarded :
    drawIterations Draws.guarded stream = some (drawIterations Draws.total stream).run := by
  have drawn : Draws.guarded.below 9900 stream = some (Draws.total.below 9900 stream).run := by
    change stream.below? 9900 = _
    rw [Random.Stream.below?, if_pos (by decide)]
    rfl
  simp [drawIterations, drawn]

theorem drawOutcome_guarded (expected : Float) (failed : Bool) :
    drawOutcome Draws.guarded expected failed stream =
      some (drawOutcome Draws.total expected failed stream).run := by
  cases failed <;> simp [drawOutcome, drawThroughput_guarded]

theorem drawRow_guarded :
    drawRow Draws.guarded rate configuration stream =
      some (drawRow Draws.total rate configuration stream).run := by
  simp [drawRow, drawFailure_guarded, drawOutcome_guarded, drawIterations_guarded]

theorem drawRows_guarded (configurations : List Configuration) :
    drawRows Draws.guarded rate configurations stream =
      some (drawRows Draws.total rate configurations stream).run := by
  induction configurations generalizing stream with
  | nil => rfl
  | cons configuration configurations induction =>
      simp [drawRows, drawRow_guarded, induction]

end Guarded

/-- A sample never stops at a draw. -/
theorem rows?_eq (request : Request) (power : Power) :
    rows? request power = some (rows request power) :=
  drawRows_guarded _ _ _

section Rows

variable {rate : Float}

/-- What holds of each trial that is drawn, from any place of the stream, holds of each row. -/
theorem forall_mem_drawRows {holds : Row → Prop}
    (step : ∀ configuration stream, holds (drawRow Draws.total rate configuration stream).run.1)
    (configurations : List Configuration) (stream : Random.Stream) :
    ∀ row ∈ (drawRows Draws.total rate configurations stream).run, holds row := by
  induction configurations generalizing stream with
  | nil => exact List.forall_mem_nil _
  | cons configuration configurations induction =>
      rw [drawRows_cons, List.forall_mem_cons]
      exact ⟨step configuration stream, induction _⟩

theorem drawIterations_bounds (stream : Random.Stream) :
    100 ≤ (drawIterations Draws.total stream).run.1 ∧
      (drawIterations Draws.total stream).run.1 ≤ 9999 := by
  have below : (Draws.total.below 9900 stream).run.1 < (9900 : UInt64).toNat :=
    Random.Stream.below_lt (by decide) Random.Stream.rejections stream
  have bound : (9900 : UInt64).toNat = 9900 := rfl
  rw [bound] at below
  simp only [drawIterations, Id.run_bind, Id.run_pure]
  omega

theorem drawRow_iterations (configuration : Configuration) (stream : Random.Stream) :
    100 ≤ (drawRow Draws.total rate configuration stream).run.1.iterations ∧
      (drawRow Draws.total rate configuration stream).run.1.iterations ≤ 9999 := by
  simp only [drawRow, Id.run_bind, Id.run_pure]
  exact drawIterations_bounds _

/-- A row has no throughput just when its trial was drawn to fail. -/
theorem drawRow_throughput_isNone (configuration : Configuration) (stream : Random.Stream) :
    (drawRow Draws.total rate configuration stream).run.1.throughput.isNone =
      (drawFailure Draws.total rate stream).run.1 := by
  cases failed : (drawFailure Draws.total rate stream).run.1 <;> simp [drawRow, drawOutcome, failed]

theorem drawFailure_of_not_positive (notPositive : ¬ 0.0 < rate) (stream : Random.Stream) :
    (drawFailure Draws.total rate stream).run.1 = false := by
  rw [drawFailure, if_neg notPositive]
  rfl

theorem drawFailure_of_one_le (certain : 1.0 ≤ rate) (stream : Random.Stream) :
    (drawFailure Draws.total rate stream).run.1 = true := by
  have positive : 0.0 < rate :=
    Binary64.lt_of_lt_of_le denotes_zero.finite denotes_one.finite (by decide) certain
  have notLess := Binary64.not_lt_of_le certain
  have always : (Random.Stream.chance 1.0 stream).1 = true := by
    rw [Random.Stream.chance, if_pos (by decide)]
  rw [drawFailure, if_pos positive, if_neg notLess]
  exact always

end Rows

/-- What the rows of a sample are, whatever is drawn: none of the draws is outside its range, each
configuration that is asked for has its trials next to each other under its name, and only the failures
depend on the failure rate. -/
structure FollowsRequest (request : Request) (power : Power) : Prop where
  drawn : rows? request power = some (rows request power)
  names : (rows request power).map Row.name =
    (keys request).flatMap fun key => List.replicate request.trials (caseName key)
  unaffected : ∀ seed failureRate,
    (rows { request with seed, failureRate } power).map Row.name = (rows request power).map Row.name
  iterations : ∀ row ∈ rows request power, 100 ≤ row.iterations ∧ row.iterations ≤ 9999
  noFailure : ¬ 0.0 < request.failureRate →
    ∀ row ∈ rows request power, row.throughput.isSome = true
  onlyFailures : 1.0 ≤ request.failureRate → ∀ row ∈ rows request power, row.throughput = none

theorem followsRequest (request : Request) (power : Power) : FollowsRequest request power where
  drawn := rows?_eq request power
  names := by
    rw [names_rows, trialKeys, List.map_flatMap]
    simp only [List.map_replicate]
  unaffected seed failureRate := by
    rw [names_rows, names_rows]
    rfl
  iterations := forall_mem_drawRows drawRow_iterations _ _
  noFailure notPositive := by
    apply forall_mem_drawRows
    intro configuration stream
    rw [← Option.not_isNone, drawRow_throughput_isNone, drawFailure_of_not_positive notPositive]
    rfl
  onlyFailures certain := by
    apply forall_mem_drawRows
    intro configuration stream
    rw [← Option.isNone_iff_eq_none, drawRow_throughput_isNone, drawFailure_of_one_le certain]

end Sample
end ThroughputCharts
