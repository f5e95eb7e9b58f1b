import ThroughputCharts.Proofs.OrderOfMagnitude
import ThroughputCharts.Proofs.ThreadRange

/-!
# The spacing of thread ticks

A thread axis that asks for one label per whole number of its span gets a step of one below a span of
twenty.  From there on the range holds a whole number more at either end than were asked for, and the
search for a step stops at two.
-/

namespace ThroughputCharts
namespace Axis

open Binary64 Chart

theorem denotes_two : Denotes 2.0 ((2 : ℤ) : ℚ) :=
  denotes_literal 2 (by decide) (by decide)

theorem denotes_five : Denotes 5.0 ((5 : ℤ) : ℚ) :=
  denotes_literal 5 (by decide) (by decide)

theorem denotes_ten : Denotes 10.0 ((10 : ℤ) : ℚ) :=
  denotes_literal 10 (by decide) (by decide)

theorem denotes_hundred : Denotes 100.0 ((100 : ℤ) : ℚ) :=
  denotes_literal 100 (by decide) (by decide)

section Counting

variable {start stop first last step division : Float} {firstExact lastExact : ℚ} {whole parts : ℤ}

/-- The number of ticks is computed with an error that does not matter to it. -/
theorem exists_denotes_tickCount (isFirst : Denotes first firstExact)
    (isLast : Denotes last lastExact) (isStep : Denotes step whole)
    (isDivision : Denotes division parts) (small : |lastExact - firstExact| ≤ 1000)
    (positive : 1 ≤ whole) (low : 1 ≤ parts) (high : parts ≤ 10) :
    ∃ count : ℤ, Denotes (Binary64.round (1.0 + (last - first) / step * division)) count ∧
      |count - (1 + (lastExact - firstExact) / whole * parts)| ≤ 51 / 100 := by
  have castPositive : (1 : ℚ) ≤ whole := by exact_mod_cast positive
  have castLow : (1 : ℚ) ≤ parts := by exact_mod_cast low
  have castHigh : (parts : ℚ) ≤ 10 := by exact_mod_cast high
  obtain ⟨difference, differenceLow, differenceHigh⟩ :=
    isLast.sub_near isFirst (small.trans (by norm_num))
  have quotientSmall (number : ℚ) : |number / whole| ≤ |number| := by
    rw [abs_div, abs_of_pos (by linarith : (0 : ℚ) < whole)]
    exact div_le_self (abs_nonneg _) castPositive
  have differenceSmall : |value (last - first)| ≤ 1001 := by
    rw [abs_le] at small ⊢
    constructor <;> linarith [small.1, small.2]
  have quotientBound := (quotientSmall _).trans differenceSmall
  obtain ⟨quotient, quotientLow, quotientHigh⟩ :=
    difference.denotes_value.div_near isStep (by linarith) (quotientBound.trans (by norm_num))
  have differenceError : |value (last - first) - (lastExact - firstExact)| ≤ 1 / 4096 :=
    abs_le.mpr ⟨by linarith, by linarith⟩
  have shifted := quotientSmall (value (last - first) - (lastExact - firstExact))
  rw [sub_div] at shifted
  have quotientError := shifted.trans differenceError
  generalize value (last - first) / (whole : ℚ) = divided at *
  generalize (lastExact - firstExact) / (whole : ℚ) = wanted at *
  rw [abs_le] at quotientBound quotientError
  have productBound : |value ((last - first) / step) * parts| ≤ 11000 := by
    rw [abs_le]
    constructor <;> nlinarith
  obtain ⟨product, productLow, productHigh⟩ :=
    quotient.denotes_value.mul_near isDivision (productBound.trans (by norm_num))
  generalize value ((last - first) / step) = ratio at *
  rw [abs_le] at productBound
  have sumBound : |((1 : ℤ) : ℚ) + value ((last - first) / step * division)| ≤ 12000 := by
    rw [abs_le]
    push_cast
    constructor <;> linarith
  obtain ⟨sum, sumLow, sumHigh⟩ :=
    denotes_one.add_near product.denotes_value (sumBound.trans (by norm_num))
  obtain ⟨count, isCount, countNear⟩ := exists_denotes_round sum.denotes_value
  refine ⟨count, isCount, ?_⟩
  rw [abs_le] at countNear ⊢
  push_cast at sumLow sumHigh
  constructor <;> nlinarith

theorem tooMany_iff {limit : Nat} {count : ℤ} (small : limit < 2 ^ 53)
    (isCount : Denotes (Binary64.round (1.0 + (lastMultiple stop (step / division) -
      firstMultiple start (step / division)) / step * division)) count) :
    tooMany start stop limit step division = true ↔ (limit : ℤ) < count := by
  unfold tooMany
  dsimp only
  rw [decide_eq_true_iff, (denotes_ofNat small).lt_iff isCount, Int.cast_lt]

end Counting

section Steps

variable {first span : Nat} {margin : ℚ} {start stop step division : Float} {whole parts part : ℤ}

/-- A step that is divided into a few parts, each a whole number from two on. -/
structure DividesWhole (step division : Float) (parts part : ℤ) : Prop where
  isStep : Denotes step (part * parts : ℤ)
  isDivision : Denotes division parts
  two_le : 2 ≤ part
  le_fifty : part ≤ 50
  one_le : 1 ≤ parts
  le_ten : parts ≤ 10

theorem DividesWhole.isPart (divides : DividesWhole step division parts part) :
    Denotes (step / division) part := by
  obtain ⟨isStep, isDivision, two, fifty, one, -⟩ := divides
  have castOne : (1 : ℚ) ≤ parts := by exact_mod_cast one
  have quotient : ((part * parts : ℤ) : ℚ) / parts = part := by
    rw [Int.cast_mul, mul_div_cancel_right₀ _ (by linarith)]
  have held : |part| ≤ 2 ^ 53 := abs_le.mpr ⟨by omega, by omega⟩
  have rounds := isStep.div isDivision (by linarith) (by rw [quotient]; exact abs_intCast_le held)
  rw [quotient] at rounds
  exact rounds.denotes (representable_intCast held)

theorem dividesWhole_literal (parts part : Nat) (isStep : step = Float.ofNat (part * parts))
    (isDivision : division = Float.ofNat parts)
    (sizes : (2 ≤ part ∧ part ≤ 50) ∧ 1 ≤ parts ∧ parts ≤ 10) :
    DividesWhole step division parts part := by
  obtain ⟨⟨two, fifty⟩, one, ten⟩ := sizes
  have product : part * parts ≤ 50 * 10 := Nat.mul_le_mul fifty ten
  have stepDenotes := denotes_literal _ isStep (by omega)
  rw [Nat.cast_mul] at stepDenotes
  exact ⟨stepDenotes, denotes_literal _ isDivision (by omega), by omega, by omega, by omega,
    by omega⟩

/-- A step of two or more never gives too many ticks. -/
theorem tooMany_eq_false (range : IsThreadRange first span margin start stop) (several : 1 ≤ span)
    (divides : DividesWhole step division parts part) :
    tooMany start stop (max 2 (span + 1)) step division = false := by
  have isPart := divides.isPart
  obtain ⟨isStep, isDivision, two, fifty, low, high⟩ := divides
  obtain ⟨startSmall, stopSmall⟩ := range.small_ends
  obtain ⟨startLow, startHigh⟩ := abs_le.mp range.start_near
  obtain ⟨stopLow, stopHigh⟩ := abs_le.mp range.stop_near
  obtain ⟨-, -, spanLow, spanHigh, marginLow, marginHigh⟩ := range.bounds
  obtain ⟨firstTick, isFirst, firstLow, firstHigh⟩ :=
    exists_denotes_firstMultiple range.start.denotes_value isPart startSmall (by omega) fifty
  obtain ⟨lastTick, isLast, lastHigh, lastLow⟩ :=
    exists_denotes_lastMultiple range.stop.denotes_value isPart stopSmall (by omega) fifty
  have positive : 1 ≤ part * parts := one_le_mul_of_one_le_of_one_le (by omega) low
  obtain ⟨count, isCount, countNear⟩ := exists_denotes_tickCount isFirst isLast isStep isDivision
    (abs_le.mpr ⟨by linarith, by linarith⟩) positive low high
  have castTwo : (2 : ℚ) ≤ part := by exact_mod_cast two
  have castLow : (1 : ℚ) ≤ parts := by exact_mod_cast low
  have castSeveral : (1 : ℚ) ≤ span := by exact_mod_cast several
  have scaled : (lastTick - firstTick) / (part * parts : ℤ) * parts =
      (lastTick - firstTick) / part := by
    push_cast
    field_simp
  have half : (lastTick - firstTick) / part ≤ (span + 2 * margin + 1 / 15) / 2 := by
    rw [div_le_iff₀ (by linarith)]
    nlinarith [range.isMargin.half_le]
  have marginBound : margin ≤ span / 20 + 9 / 20 := by
    rcases Nat.le_total span 10 with few | many
    · rw [range.isMargin.eq_half few]
      linarith
    · have castMany : (10 : ℚ) ≤ span := by exact_mod_cast many
      linarith [(abs_le.mp (range.isMargin.near many)).2]
  rw [scaled] at countNear
  have below : (count : ℚ) < span + 2 := by linarith [(abs_le.mp countNear).2]
  have few : count < span + 2 := by exact_mod_cast below
  have small := range.span_le
  rw [Bool.eq_false_iff, ne_eq, tooMany_iff (by omega) isCount]
  omega

/-- Multiples of a power of two are counted with an error that does not matter. -/
theorem exists_tickCount_pow {place : ℤ} (range : IsThreadRange first span margin start stop)
    (startAligned : IsAligned place (value start)) (stopAligned : IsAligned place (value stop))
    (low : -1 ≤ place) (high : place ≤ 1) (isStep : Denotes step whole)
    (isDivision : Denotes division parts) (isPart : Denotes (step / division) (2 ^ place))
    (positive : 1 ≤ whole) (least : 1 ≤ parts) (most : parts ≤ 10) :
    ∃ firstTick lastTick count : ℤ,
      (value start ≤ firstTick * 2 ^ place ∧ firstTick * 2 ^ place < value start + 2 ^ place) ∧
      (lastTick * 2 ^ place ≤ value stop ∧ value stop < lastTick * 2 ^ place + 2 ^ place) ∧
      Denotes (Binary64.round (1.0 + (lastMultiple stop (step / division) -
        firstMultiple start (step / division)) / step * division)) count ∧
      |count - (1 + (lastTick * 2 ^ place - firstTick * 2 ^ place : ℚ) / whole * parts)| ≤
        51 / 100 := by
  obtain ⟨firstTick, isFirst, firstLow, firstHigh⟩ :=
    exists_denotes_firstMultiple_pow range.start.denotes_value isPart startAligned low high
  obtain ⟨lastTick, isLast, lastLow, lastHigh⟩ :=
    exists_denotes_lastMultiple_pow range.stop.denotes_value isPart stopAligned low high
  obtain ⟨startLow, startHigh⟩ := abs_le.mp range.start_near
  obtain ⟨stopLow, stopHigh⟩ := abs_le.mp range.stop_near
  obtain ⟨-, -, spanLow, spanHigh, marginLow, marginHigh⟩ := range.bounds
  have unit : (2 : ℚ) ^ place ≤ 2 := by
    calc (2 : ℚ) ^ place ≤ 2 ^ (1 : ℤ) := zpow_le_zpow_right₀ one_le_two high
      _ = 2 := zpow_one 2
  obtain ⟨count, isCount, countNear⟩ := exists_denotes_tickCount isFirst isLast isStep isDivision
    (abs_le.mpr ⟨by linarith, by linarith⟩) positive least most
  exact ⟨firstTick, lastTick, count, ⟨firstLow, firstHigh⟩, ⟨lastLow, lastHigh⟩, isCount, countNear⟩

/-- The ticks at whole numbers are too many exactly if the margin holds whole numbers. -/
theorem tooMany_whole (range : IsThreadRange first span margin start stop) (several : 1 ≤ span) :
    tooMany start stop (max 2 (span + 1)) 10.0 10.0 = decide (20 ≤ span) := by
  have isPart : Denotes (10.0 / 10.0) (2 ^ (0 : ℤ)) := by
    rw [zpow_zero, ← Int.cast_one]
    exact denotes_literal 1 (by decide) (by decide)
  obtain ⟨startAligned, stopAligned⟩ :
      IsAligned 0 (value start) ∧ IsAligned 0 (value stop) := by
    rcases Nat.lt_or_ge span 20 with narrow | wide
    · exact range.isAligned_narrow narrow
    · exact range.isAligned_wide wide (by decide) (by decide)
  obtain ⟨firstTick, lastTick, count, ⟨firstLow, firstHigh⟩, ⟨lastLow, lastHigh⟩, isCount,
      countNear⟩ :=
    exists_tickCount_pow range startAligned stopAligned (by decide) (by decide) denotes_ten
      denotes_ten isPart (by decide) (by decide) (by decide)
  rw [zpow_zero] at firstLow firstHigh lastLow lastHigh countNear
  simp only [mul_one] at firstLow firstHigh lastLow lastHigh countNear
  have ten : ((10 : ℤ) : ℚ) ≠ 0 := by norm_num
  rw [div_mul_cancel₀ _ ten] at countNear
  obtain ⟨countLow, countHigh⟩ := abs_le.mp countNear
  have small := range.span_le
  rw [Bool.eq_iff_iff, tooMany_iff (by omega) isCount, decide_eq_true_iff]
  rcases Nat.lt_or_ge span 20 with narrow | wide
  · have isFirst := (range.start_le_whole_iff narrow firstTick).mp firstLow
    have notBefore := mt (range.start_le_whole_iff narrow (firstTick - 1)).mpr
    have isLast := (range.whole_le_stop_iff narrow lastTick).mp lastLow
    have notBehind := mt (range.whole_le_stop_iff narrow (lastTick + 1)).mpr
    push_cast at notBefore notBehind
    have firstEq := notBefore (by linarith)
    have lastEq := notBehind (by linarith)
    have castSpan : (lastTick - firstTick : ℚ) = span := by
      have isSpan : lastTick - firstTick = span := by omega
      exact_mod_cast isSpan
    have below : (count : ℚ) < span + 2 := by linarith
    have few : count < span + 2 := by exact_mod_cast below
    omega
  · have firstBound := range.start_le_pred wide
    have lastBound := range.succ_le_stop wide
    push_cast at firstBound lastBound
    have firstLess : (firstTick : ℚ) < (first : ℤ) := by
      push_cast
      linarith
    have lastLess : ((first + span : ℤ) : ℚ) < lastTick := by
      push_cast
      linarith
    rw [Int.cast_lt] at firstLess lastLess
    have castSpan : ((span + 2 : ℤ) : ℚ) ≤ (lastTick - firstTick : ℤ) := by
      rw [Int.cast_le]
      omega
    push_cast at castSpan
    have above : (span + 2 : ℚ) < count := by linarith
    have many : (span + 2 : ℤ) < count := by exact_mod_cast above
    omega

/-- The ticks at halves are too many. -/
theorem tooMany_halves (range : IsThreadRange first span margin start stop) (narrow : span < 20) :
    tooMany start stop (max 2 (span + 1)) 1.0 2.0 = true := by
  have isPart : Denotes (1.0 / 2.0) (2 ^ (-1 : ℤ)) := by
    have rounds := denotes_one.div denotes_two (by norm_num) (by norm_num)
    rw [zpow_neg_one, ← one_div]
    exact rounds.denotes representable_half
  obtain ⟨startAligned, stopAligned⟩ := range.isAligned_halves narrow
  obtain ⟨firstTick, lastTick, count, ⟨firstLow, firstHigh⟩, ⟨lastLow, lastHigh⟩, isCount,
      countNear⟩ :=
    exists_tickCount_pow range startAligned stopAligned (by decide) (by decide) denotes_one
      denotes_two isPart (by decide) (by decide) (by decide)
  rw [zpow_neg_one] at firstLow firstHigh lastLow lastHigh countNear
  have firstBound := range.start_le
  have lastBound := range.le_stop
  push_cast at firstBound lastBound countNear
  obtain ⟨countLow, countHigh⟩ := abs_le.mp countNear
  have firstLess : (firstTick : ℚ) < (2 * first : ℤ) := by
    push_cast
    linarith
  have lastLess : ((2 * (first + span) : ℤ) : ℚ) < lastTick := by
    push_cast
    linarith
  rw [Int.cast_lt] at firstLess lastLess
  have castSpan : ((2 * span + 2 : ℤ) : ℚ) ≤ (lastTick - firstTick : ℤ) := by
    rw [Int.cast_le]
    omega
  push_cast at castSpan
  have above : (2 * span + 2 : ℚ) < count := by linarith
  have many : (2 * span + 2 : ℤ) < count := by exact_mod_cast above
  rw [tooMany_iff (by omega) isCount]
  omega

end Steps

section Coarse

variable {first span : Nat} {margin exact : ℚ} {start stop number : Float}
  {power unit : ℤ}

/-- A power of ten is taken where it gives few enough ticks. -/
theorem coarse_eq (count limit : Nat) (denotes : Denotes number exact)
    (isPower : scale number = powerOfTen power) (isScale : Denotes (powerOfTen power) unit)
    (positive : 0 < unit) (nonneg : 0 ≤ exact) (fits : exact ≤ count * unit)
    (few : count < limit) (small : limit < 2 ^ 53) :
    coarse number limit = ⟨powerOfTen power, powerOfTen power / 10.0⟩ := by
  have castPositive : (0 : ℚ) < unit := by exact_mod_cast positive
  have castCount : (count : ℚ) ≤ 2 ^ 53 := by
    have : count ≤ 2 ^ 53 := by omega
    exact_mod_cast this
  have quotientLow : 0 ≤ exact / unit := div_nonneg nonneg castPositive.le
  have quotientHigh : exact / unit ≤ count := (div_le_iff₀ castPositive).mpr fits
  have quotient := denotes.div isScale castPositive.ne'
    (abs_le.mpr ⟨by linarith, quotientHigh.trans (castCount.trans (by norm_num))⟩)
  have held : Representable ((count : ℤ) : ℚ) :=
    representable_intCast (abs_le.mpr ⟨by omega, by omega⟩)
  have none : Representable ((0 : ℤ) : ℚ) := representable_intCast (by norm_num)
  have valueHigh := quotient.value_le held (by exact_mod_cast quotientHigh)
  have valueLow := quotient.le_value none (by exact_mod_cast quotientLow)
  have floorHigh : ⌊value (number / powerOfTen power)⌋ ≤ count :=
    Int.floor_le_iff.mpr (by push_cast at valueHigh ⊢; linarith)
  have floorLow : 0 ≤ ⌊value (number / powerOfTen power)⌋ :=
    Int.floor_nonneg.mpr (by exact_mod_cast valueLow)
  have floored := denotes_floor quotient.denotes_value
  have sum := denotes_one.add_whole floored (abs_le.mpr ⟨by omega, by omega⟩)
  have fitting : ¬ Float.ofNat limit < 1.0 + floor (number / powerOfTen power) := by
    rw [(denotes_ofNat small).lt_iff sum, Int.cast_lt]
    omega
  unfold coarse
  dsimp only
  rw [isPower, if_neg fitting]

/-- The range of up to ten whole numbers is one of ten exact numbers. -/
theorem coarse_few : ∀ span < 10,
    (coarse (Float.ofNat (span + 1)) (max 2 (span + 1))).step =
        (if span = 0 then 1.0 else 10.0) ∧
      (coarse (Float.ofNat (span + 1)) (max 2 (span + 1))).grain =
        if span = 0 then 0.1 else 1.0 := by
  decide +kernel

theorem powerOfTen_one : powerOfTen 1 = 10.0 := by
  decide

theorem powerOfTen_two : powerOfTen 2 = 100.0 := by
  decide

theorem length_eq (range : IsThreadRange first span margin start stop) (few : span ≤ 10) :
    stop - start = Float.ofNat (span + 1) := by
  have isLength : value stop - value start = ((span + 1 : Nat) : ℤ) := by
    rw [range.start_eq few, range.stop_eq few]
    push_cast
    ring
  have held : |((span + 1 : Nat) : ℤ)| ≤ 2 ^ 53 := abs_le.mpr ⟨by omega, by omega⟩
  have length := range.stop.denotes_value.sub range.start.denotes_value
    (by rw [isLength]; exact abs_intCast_le held)
  rw [isLength] at length
  exact (length.denotes (representable_intCast held)).eq_ofNat (by omega) (by omega)

theorem exists_denotes_length (range : IsThreadRange first span margin start stop)
    (many : 10 ≤ span) :
    ∃ length, Denotes (stop - start) length ∧ |length - 11 / 10 * span| ≤ 1 / 200 := by
  obtain ⟨startLow, startHigh⟩ := abs_le.mp range.start_near
  obtain ⟨stopLow, stopHigh⟩ := abs_le.mp range.stop_near
  obtain ⟨marginLow, marginHigh⟩ := abs_le.mp (range.isMargin.near many)
  obtain ⟨-, -, spanLow, spanHigh, -, -⟩ := range.bounds
  have bound : |value stop - value start| ≤ 2 ^ 42 := abs_le.mpr ⟨by linarith, by linarith⟩
  obtain ⟨length, lengthLow, lengthHigh⟩ :=
    range.stop.denotes_value.sub_near range.start.denotes_value bound
  exact ⟨_, length.denotes_value, abs_le.mpr ⟨by linarith, by linarith⟩⟩

/-- The search starts from ten, but from one for a single count and from a hundred for a wide span. -/
theorem coarse_length (range : IsThreadRange first span margin start stop) :
    coarse (stop - start) (max 2 (span + 1)) =
      if span = 0 then ⟨1.0, 0.1⟩ else if span ≤ 90 then ⟨10.0, 1.0⟩ else ⟨100.0, 10.0⟩ := by
  have small := range.span_le
  rcases Nat.lt_or_ge span 10 with few | many
  · obtain ⟨isStep, isGrain⟩ := coarse_few span few
    rw [length_eq range few.le, if_pos (by omega : span ≤ 90)]
    generalize coarse (Float.ofNat (span + 1)) (max 2 (span + 1)) = found at isStep isGrain ⊢
    obtain ⟨step, grain⟩ := found
    simp only at isStep isGrain
    rw [isStep, isGrain]
    split <;> rfl
  · obtain ⟨length, isLength, near⟩ := exists_denotes_length range many
    obtain ⟨lengthLow, lengthHigh⟩ := abs_le.mp near
    have castMany : (10 : ℚ) ≤ span := by exact_mod_cast many
    rw [if_neg (by omega : span ≠ 0)]
    rcases Nat.lt_or_ge 90 span with wide | narrow
    · have castWide : (91 : ℚ) ≤ span := by exact_mod_cast wide
      have castSmall : (span : ℚ) ≤ 127 := by exact_mod_cast small
      have isPower : scale (stop - start) = powerOfTen 2 := scale_eq isLength
        (by norm_num; linarith) (by norm_num; linarith)
      have isScale : Denotes (powerOfTen 2) (100 : ℤ) := powerOfTen_two ▸ denotes_hundred
      have isCoarse := coarse_eq 2 (max 2 (span + 1)) isLength isPower isScale
        (by decide) (by linarith) (by norm_num; linarith) (by omega) (by omega)
      have tenth : (100.0 / 10.0 : Float) = 10.0 := by decide
      rw [isCoarse, powerOfTen_two, tenth, if_neg (by omega)]
    · have castNarrow : (span : ℚ) ≤ 90 := by exact_mod_cast narrow
      have isPower : scale (stop - start) = powerOfTen 1 := scale_eq isLength
        (by norm_num; linarith) (by norm_num; linarith)
      have isScale : Denotes (powerOfTen 1) (10 : ℤ) := powerOfTen_one ▸ denotes_ten
      have isCoarse := coarse_eq 10 (max 2 (span + 1)) isLength isPower isScale
        (by decide) (by linarith) (by norm_num; linarith) (by omega) (by omega)
      have tenth : (10.0 / 10.0 : Float) = 1.0 := by decide
      rw [isCoarse, powerOfTen_one, tenth, if_pos narrow]

end Coarse

section Search

variable {first span limit fuel : Nat} {margin : ℚ} {start stop step grain : Float}

/-- There is fuel for more rounds than a search takes. -/
theorem exists_spacing_eq (start stop : Float) (limit : Nat) :
    ∃ fuel, spacing start stop limit =
      refine start stop limit (fuel + 5) (coarse (stop - start) limit) := by
  refine ⟨numberCount - 5, ?_⟩
  rw [spacing, Nat.sub_add_cancel (by rw [numberCount_eq, Nat.pow_eq]; omega)]

theorem refine_stays (half : tooMany start stop limit step 2.0 = true) :
    refine start stop limit (fuel + 1) ⟨step, grain⟩ = some ⟨step, grain⟩ := by
  simp only [refine, divide, half, if_true]

theorem refine_fifth (half : tooMany start stop limit step 2.0 = false)
    (fifth : tooMany start stop limit step 5.0 = false)
    (tenth : tooMany start stop limit step 10.0 = true) :
    refine start stop limit (fuel + 1) ⟨step, grain⟩ = some ⟨step / 5.0, grain⟩ := by
  simp only [refine, divide, half, fifth, tenth, if_true, Bool.false_eq_true, if_false]

theorem refine_tenth (half : tooMany start stop limit step 2.0 = false)
    (fifth : tooMany start stop limit step 5.0 = false)
    (tenth : tooMany start stop limit step 10.0 = false) :
    refine start stop limit (fuel + 1) ⟨step, grain⟩ =
      refine start stop limit fuel ⟨step / 10.0, grain / 10.0⟩ := by
  conv_lhs => rw [refine]
  simp only [divide, half, fifth, tenth, Bool.false_eq_true, if_false]

/-- From a hundred the search goes on to ten. -/
theorem refine_hundred (range : IsThreadRange first span margin start stop) (several : 1 ≤ span) :
    refine start stop (max 2 (span + 1)) (fuel + 1) ⟨100.0, 10.0⟩ =
      refine start stop (max 2 (span + 1)) fuel ⟨10.0, 1.0⟩ := by
  have half : DividesWhole 100.0 2.0 2 50 :=
    dividesWhole_literal 2 50 (by decide) (by decide) (by decide)
  have fifth : DividesWhole 100.0 5.0 5 20 :=
    dividesWhole_literal 5 20 (by decide) (by decide) (by decide)
  have tenth : DividesWhole 100.0 10.0 10 10 :=
    dividesWhole_literal 10 10 (by decide) (by decide) (by decide)
  have step : (100.0 / 10.0 : Float) = 10.0 := by decide
  have grain : (10.0 / 10.0 : Float) = 1.0 := by decide
  rw [refine_tenth (tooMany_eq_false range several half) (tooMany_eq_false range several fifth)
    (tooMany_eq_false range several tenth), step, grain]

/-- From ten the search goes on to one, where it stays, or it ends at two. -/
theorem refine_ten (range : IsThreadRange first span margin start stop) (several : 1 ≤ span) :
    refine start stop (max 2 (span + 1)) (fuel + 2) ⟨10.0, 1.0⟩ =
      some (if span < 20 then ⟨1.0, 0.1⟩ else ⟨2.0, 1.0⟩) := by
  have dividesHalf : DividesWhole 10.0 2.0 2 5 :=
    dividesWhole_literal 2 5 (by decide) (by decide) (by decide)
  have dividesFifth : DividesWhole 10.0 5.0 5 2 :=
    dividesWhole_literal 5 2 (by decide) (by decide) (by decide)
  have half := tooMany_eq_false range several dividesHalf
  have fifth := tooMany_eq_false range several dividesFifth
  have tenth := tooMany_whole range several
  split
  next narrow =>
    rw [decide_eq_false (by omega)] at tenth
    have step : (10.0 / 10.0 : Float) = 1.0 := by decide
    have grain : (1.0 / 10.0 : Float) = 0.1 := by decide
    rw [refine_tenth half fifth tenth, step, grain]
    exact refine_stays (tooMany_halves range narrow)
  next wide =>
    rw [decide_eq_true (by omega)] at tenth
    have step : (10.0 / 5.0 : Float) = 2.0 := dividesFifth.isPart.eq_ofNat two_pos (by decide)
    rw [refine_fifth half fifth tenth, step]

/-- The step of a thread axis is one below a span of twenty and two from there on. -/
theorem spacing_eq (range : IsThreadRange first span margin start stop) :
    spacing start stop (max 2 (span + 1)) =
      some (if span < 20 then ⟨1.0, 0.1⟩ else ⟨2.0, 1.0⟩) := by
  obtain ⟨fuel, isSearch⟩ := exists_spacing_eq start stop (max 2 (span + 1))
  rw [isSearch, coarse_length range]
  rcases Nat.eq_zero_or_pos span with single | several
  · rw [if_pos single, if_pos (by omega)]
    exact refine_stays (tooMany_halves range (by omega))
  · rw [if_neg several.ne']
    split
    · exact refine_ten range several
    · exact (refine_hundred range several).trans (refine_ten range several)

end Search

end Axis
end ThroughputCharts
