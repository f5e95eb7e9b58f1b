import ThroughputCharts.Proofs.TickSpacing

/-!
# The ticks of a thread axis

A thread axis that asks for one label per whole number of its span has its ticks at the whole numbers
of its range, each once and in ascending order.  From a span of twenty on, only the even ones have a
tick.
-/

namespace ThroughputCharts
namespace Axis

open Binary64 Chart

section Multiples

variable {origin whole exact : ℤ} {count : Nat}

/-- The numbers from an origin on, by a step. -/
def multiples (origin whole : ℤ) : Nat → List ℤ
  | 0 => []
  | count + 1 => origin :: multiples (origin + whole) whole count

theorem mem_multiples (positive : 0 < whole) :
    exact ∈ multiples origin whole count ↔
      (origin ≤ exact ∧ exact < origin + whole * count) ∧ whole ∣ exact - origin := by
  induction count generalizing origin with
  | zero =>
      rw [Nat.cast_zero, mul_zero, add_zero, multiples]
      constructor
      case mp => exact fun member => absurd member List.not_mem_nil
      case mpr =>
        rintro ⟨⟨low, high⟩, -⟩
        omega
  | succ count ih =>
      have countNonneg : 0 ≤ whole * count := by positivity
      have expanded : whole * (count + 1 : Nat) = whole + whole * count := by
        push_cast
        ring
      have shifted : exact - (origin + whole) = exact - origin - whole := by ring
      rw [multiples, List.mem_cons, ih, expanded, shifted, dvd_sub_self_right]
      constructor
      case mp =>
        rintro (rfl | ⟨⟨low, high⟩, divides⟩)
        · rw [sub_self]
          exact ⟨⟨le_rfl, by omega⟩, dvd_zero whole⟩
        · exact ⟨⟨by omega, by omega⟩, divides⟩
      case mpr =>
        rintro ⟨⟨low, high⟩, divides⟩
        rcases low.eq_or_lt with isOrigin | above
        · exact .inl isOrigin.symm
        · have apart := Int.le_of_dvd (by omega) divides
          exact .inr ⟨⟨by omega, by omega⟩, divides⟩

theorem pairwise_multiples (positive : 0 < whole) :
    (multiples origin whole count).Pairwise (· < ·) := by
  induction count generalizing origin with
  | zero => exact .nil
  | succ count ih =>
      refine .cons (fun other member => ?_) ih
      have bounds := ((mem_multiples positive).mp member).1
      omega

end Multiples

section Loop

variable {base last step grain offset : Float} {origin whole : ℤ} {unit exact : ℚ}

/-- The grain of an axis does not matter to an offset that is not negative. -/
theorem aligned_eq (isOffset : Denotes offset exact) (isGrain : Denotes grain unit)
    (nonneg : 0 ≤ exact) (small : exact ≤ 2 ^ 37) (fine : 1 / 16 ≤ unit) (coarse : unit ≤ 1) :
    aligned grain offset = offset := by
  have positive : 0 < unit := by linarith
  have none : Representable 0 := denotes_zero.representable
  have quotientLow : 0 ≤ exact / unit := div_nonneg nonneg positive.le
  have quotientHigh : exact / unit ≤ 2 ^ 41 := by
    rw [div_le_iff₀ positive]
    linarith
  have bound : |exact / unit| ≤ 2 ^ 42 := abs_le.mpr ⟨by linarith, by linarith⟩
  obtain ⟨quotient, -, valueHigh⟩ := isOffset.div_near isGrain positive.ne' bound
  have valueLow := quotient.le_value none quotientLow
  obtain ⟨count, isCount, near⟩ := exists_denotes_round quotient.denotes_value
  obtain ⟨countLow, countHigh⟩ := abs_le.mp near
  have above : (-1 : ℚ) < count := by linarith
  have countNonneg : 0 ≤ count := by
    have : -1 < count := by exact_mod_cast above
    omega
  have castNonneg : (0 : ℚ) ≤ count := by exact_mod_cast countNonneg
  have product := isCount.mul isGrain (abs_le.mpr ⟨by nlinarith, by nlinarith⟩)
  apply if_neg
  rw [product.denotes_value.lt_iff denotes_zero, not_lt]
  exact product.le_value none (mul_nonneg castNonneg positive.le)

/-- Whole numbers are compared without tolerance. -/
theorem goesOn_iff {done stop : ℤ} (isBase : Denotes base origin) (isOffset : Denotes offset done)
    (isLast : Denotes last stop) (near : |origin| ≤ 2 ^ 50) (nearDone : |done| ≤ 2 ^ 50)
    (nearStop : |stop| ≤ 2 ^ 51) :
    -tolerance ≤ last - offset - base ↔ origin + done ≤ stop := by
  rw [abs_le] at near nearDone nearStop
  have rest := isLast.sub_whole isOffset (abs_le.mpr ⟨by omega, by omega⟩)
  have left := rest.sub_whole isBase (abs_le.mpr ⟨by omega, by omega⟩)
  have tiny : (2 : ℚ) ^ (-52 : ℤ) < 1 := by norm_num
  have tinyPositive : (0 : ℚ) < 2 ^ (-52 : ℤ) := by positivity
  rw [denotes_tolerance.neg.le_iff left]
  constructor
  case mp =>
    intro above
    have beyond : ((-1 : ℤ) : ℚ) < (stop - done - origin : ℤ) := by
      push_cast at above ⊢
      linarith
    rw [Int.cast_lt] at beyond
    omega
  case mpr =>
    intro above
    have nonneg : ((0 : ℤ) : ℚ) ≤ (stop - done - origin : ℤ) := by
      rw [Int.cast_le]
      omega
    push_cast at nonneg ⊢
    linarith

/-- Tick by tick the positions are those of the multiples of the step behind the base. -/
theorem positions_denote (isBase : Denotes base origin) (isStep : Denotes step whole)
    (isGrain : Denotes grain unit) (fine : 1 / 16 ≤ unit) (coarse : unit ≤ 1)
    (positive : 0 < whole) (few : whole ≤ 2 ^ 37) (near : |origin| ≤ 2 ^ 50) (count : Nat) :
    ∀ (fuel : Nat) (done : ℤ) (offset : Float), Denotes offset done →
      Denotes last (origin + done + whole * count - whole : ℤ) → 0 ≤ done →
      done + whole * count ≤ 2 ^ 37 → count < fuel →
      ∃ found, positions base last ⟨step, grain⟩ fuel offset = some found ∧
        DenoteEach found (multiples (origin + done) whole count) := by
  obtain ⟨originLow, originHigh⟩ := abs_le.mp near
  induction count with
  | zero =>
      intro fuel done offset isOffset isLast nonneg small enough
      obtain ⟨fuel, rfl⟩ : ∃ less, fuel = less + 1 := ⟨fuel - 1, by omega⟩
      rw [Nat.cast_zero, mul_zero, add_zero] at small isLast
      have ended : ¬ -tolerance ≤ last - offset - base := by
        rw [goesOn_iff isBase isOffset isLast near (abs_le.mpr ⟨by omega, by omega⟩)
          (abs_le.mpr ⟨by omega, by omega⟩)]
        omega
      exact ⟨[], by rw [positions, if_neg ended], .nil⟩
  | succ count ih =>
      intro fuel done offset isOffset isLast nonneg small enough
      obtain ⟨fuel, rfl⟩ : ∃ less, fuel = less + 1 := ⟨fuel - 1, by omega⟩
      have countNonneg : 0 ≤ whole * count := by positivity
      have expanded : whole * (count + 1 : Nat) = whole + whole * count := by
        push_cast
        ring
      rw [expanded, ← add_assoc] at isLast small
      have goesOn : -tolerance ≤ last - offset - base := by
        rw [goesOn_iff isBase isOffset isLast near (abs_le.mpr ⟨by omega, by omega⟩)
          (abs_le.mpr ⟨by omega, by omega⟩)]
        omega
      have castNonneg : (0 : ℚ) ≤ done := by exact_mod_cast nonneg
      have castSmall : (done : ℚ) ≤ 2 ^ 37 := by
        have : done ≤ 2 ^ 37 := by omega
        exact_mod_cast this
      have position := isOffset.add_whole isBase (abs_le.mpr ⟨by omega, by omega⟩)
      have next := isOffset.add_whole isStep (abs_le.mpr ⟨by omega, by omega⟩)
      rw [add_comm] at position
      rw [add_assoc origin] at isLast
      obtain ⟨rest, isRest, tail⟩ :=
        ih fuel (done + whole) _ next isLast (by omega) small (by omega)
      rw [← add_assoc] at tail
      refine ⟨_, ?_, .cons position tail⟩
      simp only [positions, if_pos goesOn,
        aligned_eq isOffset isGrain castNonneg castSmall fine coarse, isRest, Option.map_some]

end Loop

section Base

variable {number : Float}

/-- A tenth as it is held. -/
def tenth : ℚ := 7205759403792794 * 2 ^ (-56 : ℤ)

theorem denotes_tenth : Denotes 0.1 tenth := by
  have isParts : parts 0.1 = .finite false ⟨7205759403792794, -56⟩ := by decide
  exact denotes_of_parts isParts

/-- Whole numbers stay where they are if positions are aligned to whole numbers. -/
theorem denotes_base_one {whole : ℤ} (denotes : Denotes number whole) (small : |whole| ≤ 2 ^ 53) :
    Denotes (floor (number / 1.0) * 1.0) whole := by
  have quotient := denotes.div denotes_one (by norm_num)
    (by rw [Int.cast_one, div_one]; exact abs_intCast_le small)
  rw [Int.cast_one, div_one] at quotient
  have floored := denotes_floor (quotient.denotes denotes.representable)
  rw [Int.floor_intCast] at floored
  have product := floored.mul_whole denotes_one (by rwa [mul_one])
  rwa [mul_one] at product

theorem tenth_eq : tenth = 1 / 10 + 1 / 10 * 2 ^ (-54 : ℤ) := by
  norm_num [tenth]

/-- The error of a tenth is too small for a quotient to miss a whole number. -/
theorem denotes_div_tenth {count : Nat} (denotes : Denotes number (count : ℤ))
    (small : count ≤ 2 ^ 41) : Denotes (number / 0.1) (10 * count : ℤ) := by
  have castSmall : (count : ℚ) ≤ 2 ^ 41 := by exact_mod_cast small
  have tenthPositive : 0 < tenth := by norm_num [tenth]
  have tiny : (0 : ℚ) < 2 ^ (-54 : ℤ) := by positivity
  have held : Representable ((10 * count : ℤ) : ℚ) :=
    representable_intCast (abs_le.mpr ⟨by omega, by omega⟩)
  have nonneg : 0 ≤ (count : ℚ) / tenth := by positivity
  have high : (count : ℚ) / tenth ≤ 10 * count := by
    rw [div_le_iff₀ tenthPositive, tenth_eq]
    nlinarith
  rw [Int.cast_natCast] at denotes
  have quotient := denotes.div denotes_tenth tenthPositive.ne'
    (abs_le.mpr ⟨by linarith, by linarith⟩)
  push_cast at held ⊢
  rcases Nat.eq_zero_or_pos count with isZero | positive
  · rw [isZero, Nat.cast_zero, zero_div] at quotient
    rw [isZero, Nat.cast_zero, mul_zero] at held ⊢
    exact quotient.denotes held
  · have castPositive : (0 : ℚ) < count := by exact_mod_cast positive
    have low : 10 * (count : ℚ) - 10 * count * 2 ^ (-54 : ℤ) < count / tenth := by
      rw [lt_div_iff₀ tenthPositive, tenth_eq]
      have square : (0 : ℚ) < count * (2 ^ (-54 : ℤ) * 2 ^ (-54 : ℤ)) := by positivity
      nlinarith
    exact ⟨quotient.finite, quotient.value_eq_of_near held (by linarith) low
      (high.trans (by nlinarith))⟩

/-- Whole numbers stay where they are if positions are aligned to tenths. -/
theorem denotes_base_tenth {count : Nat} (denotes : Denotes number (count : ℤ))
    (small : count ≤ 2 ^ 41) : Denotes (floor (number / 0.1) * 0.1) (count : ℤ) := by
  have castSmall : (count : ℚ) ≤ 2 ^ 41 := by exact_mod_cast small
  have tiny : (0 : ℚ) < 2 ^ (-54 : ℤ) := by positivity
  have held := denotes.representable
  have floored := denotes_floor (denotes_div_tenth denotes small)
  rw [Int.floor_intCast] at floored
  have backwards : ((10 * count : ℤ) : ℚ) * tenth = count + count * 2 ^ (-54 : ℤ) := by
    rw [tenth_eq]
    push_cast
    ring
  have nonneg : (0 : ℚ) ≤ count * 2 ^ (-54 : ℤ) := by positivity
  have bound : (count : ℚ) * 2 ^ (-54 : ℤ) ≤ count :=
    mul_le_of_le_one_right (by positivity) (by norm_num)
  have product := floored.mul denotes_tenth
    (by rw [backwards]; exact abs_le.mpr ⟨by linarith, by linarith⟩)
  rw [backwards] at product
  rw [Int.cast_natCast] at held ⊢
  rcases Nat.eq_zero_or_pos count with isZero | positive
  · rw [isZero, Nat.cast_zero, zero_mul, add_zero] at product
    rw [isZero, Nat.cast_zero] at held ⊢
    exact product.denotes held
  · have castPositive : (0 : ℚ) < count := by exact_mod_cast positive
    exact ⟨product.finite, product.value_eq_of_near held castPositive (by nlinarith) le_rfl⟩

end Base

section Ticks

variable {first last start stop step grain : Float} {origin whole : ℤ} {unit : ℚ} {count limit : Nat}

theorem ticks_denote (apart : ¬ (start - stop).abs < tolerance)
    (isSpacing : spacing start stop limit = some ⟨step, grain⟩)
    (isFirst : Denotes (firstMultiple start step) origin)
    (isLast : Denotes (lastMultiple stop step) (origin + whole * count : ℤ))
    (isBase : Denotes (floor (firstMultiple start step / grain) * grain) origin)
    (isStep : Denotes step whole) (isGrain : Denotes grain unit) (fine : 1 / 16 ≤ unit)
    (coarse : unit ≤ 1) (positive : 0 < whole) (near : |origin| ≤ 2 ^ 50)
    (small : whole * (count + 1 : Nat) ≤ 2 ^ 37) :
    ∃ found, ticks start stop limit = some found ∧
      DenoteEach found (multiples origin whole (count + 1)) := by
  have countNonneg : 0 ≤ whole * count := by positivity
  have expanded : whole * (count + 1 : Nat) = whole + whole * count := by
    push_cast
    ring
  have offset := isFirst.sub_whole isBase (by rw [sub_self]; norm_num)
  have isStop : origin + whole * count = origin + 0 + whole * (count + 1 : Nat) - whole := by
    rw [expanded]
    ring
  rw [sub_self] at offset
  rw [isStop] at isLast
  have least : (count + 1 : Nat) ≤ whole * (count + 1 : Nat) :=
    le_mul_of_one_le_left (by positivity) positive
  have enough : count + 1 < numberCount := by
    rw [numberCount_eq, Nat.pow_eq]
    omega
  obtain ⟨found, isFound, denote⟩ := positions_denote isBase isStep isGrain fine coarse positive
    (by omega) near (count + 1) _ 0 _ offset isLast le_rfl (by omega) enough
  rw [add_zero] at denote
  exact ⟨found, by simp only [ticks, if_neg apart, isSpacing, Option.bind_eq_bind,
    Option.bind_some, isFound], denote⟩

end Ticks

section ThreadTicks

variable {first span : Nat} {margin : ℚ} {start stop : Float}

/-- The ends of a thread axis are never taken for one number. -/
theorem ends_apart (range : IsThreadRange first span margin start stop) :
    ¬ (start - stop).abs < tolerance := by
  have startLe := range.start_le
  have leStop := range.le_stop
  push_cast at startLe leStop
  obtain ⟨-, -, spanLow, -, -, -⟩ := range.bounds
  obtain ⟨startSmall, stopSmall⟩ := range.small_ends
  obtain ⟨startLow, startHigh⟩ := abs_le.mp startSmall
  obtain ⟨stopLow, stopHigh⟩ := abs_le.mp stopSmall
  have bound : |value start - value stop| ≤ 2 ^ 42 := abs_le.mpr ⟨by linarith, by linarith⟩
  obtain ⟨length, -, lengthHigh⟩ :=
    range.start.denotes_value.sub_near range.stop.denotes_value bound
  have negative := neg_le_abs (value (start - stop))
  have far : 1 / 2 ≤ |value (start - stop)| := by linarith
  have tiny : (2 : ℚ) ^ (-52 : ℤ) ≤ 1 / 2 := by norm_num
  rw [length.denotes_value.abs.lt_iff denotes_tolerance, not_lt]
  exact tiny.trans far

theorem ticks_denote_narrow (range : IsThreadRange first span margin start stop)
    (narrow : span < 20) :
    ∃ found, ticks start stop (max 2 (span + 1)) = some found ∧
      DenoteEach found (multiples first 1 (span + 1)) := by
  have firstSmall := range.first_lt
  obtain ⟨startAligned, stopAligned⟩ := range.isAligned_narrow narrow
  have isPower : Denotes 1.0 (2 ^ (0 : ℤ)) := by
    rw [zpow_zero, ← Int.cast_one]
    exact denotes_one
  obtain ⟨firstTick, isFirst, firstLow, firstHigh⟩ := exists_denotes_firstMultiple_pow
    range.start.denotes_value isPower startAligned (by decide) (by decide)
  obtain ⟨lastTick, isLast, lastLow, lastHigh⟩ := exists_denotes_lastMultiple_pow
    range.stop.denotes_value isPower stopAligned (by decide) (by decide)
  simp only [zpow_zero, mul_one] at isFirst firstLow firstHigh isLast lastLow lastHigh
  have firstIn := (range.start_le_whole_iff narrow firstTick).mp firstLow
  have beforeOut := mt (range.start_le_whole_iff narrow (firstTick - 1)).mpr
  have lastIn := (range.whole_le_stop_iff narrow lastTick).mp lastLow
  have behindOut := mt (range.whole_le_stop_iff narrow (lastTick + 1)).mpr
  push_cast at beforeOut behindOut
  have firstBound := beforeOut (by linarith)
  have lastBound := behindOut (by linarith)
  obtain rfl : firstTick = first := by omega
  obtain rfl : lastTick = first + 1 * span := by omega
  exact ticks_denote (ends_apart range)
    ((spacing_eq range).trans (congrArg some (if_pos narrow))) isFirst isLast
    (denotes_base_tenth isFirst (by omega)) denotes_one denotes_tenth
    (by norm_num [tenth]) (by norm_num [tenth]) one_pos (abs_le.mpr ⟨by omega, by omega⟩) (by omega)

theorem exists_ticks_denote_wide (range : IsThreadRange first span margin start stop)
    (wide : 20 ≤ span) :
    ∃ (firstTick : ℤ) (count : Nat),
      (value start ≤ firstTick * 2 ∧ firstTick * 2 < value start + 2) ∧
      ((firstTick + count : ℤ) * 2 ≤ value stop ∧ value stop < (firstTick + count : ℤ) * 2 + 2) ∧
      ∃ found, ticks start stop (max 2 (span + 1)) = some found ∧
        DenoteEach found (multiples (firstTick * 2) 2 (count + 1)) := by
  have spanSmall := range.span_le
  obtain ⟨startSmall, stopSmall⟩ := range.small_ends
  obtain ⟨startLow, startHigh⟩ := abs_le.mp range.start_near
  obtain ⟨stopLow, stopHigh⟩ := abs_le.mp range.stop_near
  obtain ⟨firstNonneg, firstSmall, spanNonneg, spanHigh, marginLow, marginHigh⟩ := range.bounds
  have castWide : (20 : ℚ) ≤ span := by exact_mod_cast wide
  obtain ⟨startAligned, stopAligned⟩ := range.isAligned_wide wide (by decide) le_rfl
  have isPower : Denotes 2.0 (2 ^ (1 : ℤ)) := by
    rw [zpow_one, ← Int.cast_ofNat]
    exact denotes_two
  obtain ⟨firstTick, isFirst, firstLow, firstHigh⟩ := exists_denotes_firstMultiple_pow
    range.start.denotes_value isPower startAligned (by decide) le_rfl
  obtain ⟨lastTick, isLast, lastLow, lastHigh⟩ := exists_denotes_lastMultiple_pow
    range.stop.denotes_value isPower stopAligned (by decide) le_rfl
  rw [zpow_one] at isFirst firstLow firstHigh isLast lastLow lastHigh
  have ordered : firstTick ≤ lastTick := by
    have castOrdered : (firstTick : ℚ) ≤ lastTick := by linarith
    exact_mod_cast castOrdered
  have near : lastTick ≤ firstTick + 100 := by
    have castNear : (lastTick : ℚ) ≤ firstTick + 100 := by linarith
    exact_mod_cast castNear
  have above : -2 ^ 49 ≤ firstTick := by
    have castAbove : (-2 ^ 49 : ℚ) ≤ firstTick := by linarith
    exact_mod_cast castAbove
  have below : firstTick ≤ 2 ^ 49 := by
    have castBelow : (firstTick : ℚ) ≤ 2 ^ 49 := by linarith
    exact_mod_cast castBelow
  obtain ⟨count, rfl⟩ : ∃ count : Nat, lastTick = firstTick + count :=
    ⟨(lastTick - firstTick).toNat, by omega⟩
  have isOrigin : (firstTick : ℚ) * 2 = (firstTick * 2 : ℤ) := by
    push_cast
    ring
  have isEnd : ((firstTick + count : ℤ) : ℚ) * 2 = (firstTick * 2 + 2 * count : ℤ) := by
    push_cast
    ring
  refine ⟨firstTick, count, ⟨firstLow, firstHigh⟩, ⟨lastLow, lastHigh⟩, ?_⟩
  rw [isOrigin] at isFirst
  rw [isEnd] at isLast
  exact ticks_denote (ends_apart range)
    ((spacing_eq range).trans (congrArg some (if_neg (by omega)))) isFirst
    isLast (denotes_base_one isFirst (abs_le.mpr ⟨by omega, by omega⟩)) denotes_two denotes_one
    (by norm_num) (by norm_num) two_pos (abs_le.mpr ⟨by omega, by omega⟩) (by omega)

/-- The ticks of a thread axis are the whole numbers of its range, or the even ones among them. -/
theorem exists_ticks_denote (range : IsThreadRange first span margin start stop) :
    ∃ (found : List Float) (wholes : List ℤ),
      ticks start stop (max 2 (span + 1)) = some found ∧
      DenoteEach found wholes ∧ wholes.Pairwise (· < ·) ∧
      ∀ exact : ℤ, exact ∈ wholes ↔
        (value start ≤ exact ∧ exact ≤ value stop) ∧ (span < 20 ∨ Even exact) := by
  rcases Nat.lt_or_ge span 20 with narrow | wide
  · obtain ⟨found, isTicks, denote⟩ := ticks_denote_narrow range narrow
    refine ⟨found, _, isTicks, denote, pairwise_multiples one_pos, fun exact => ?_⟩
    rw [mem_multiples one_pos, range.start_le_whole_iff narrow, range.whole_le_stop_iff narrow,
      one_mul]
    simp only [one_dvd, and_true, narrow, true_or]
    omega
  · obtain ⟨firstTick, count, ⟨firstLow, firstHigh⟩, ⟨lastLow, lastHigh⟩, found, isTicks, denote⟩ :=
      exists_ticks_denote_wide range wide
    refine ⟨found, _, isTicks, denote, pairwise_multiples two_pos, fun exact => ?_⟩
    push_cast at firstLow firstHigh lastLow lastHigh
    rw [mem_multiples two_pos]
    constructor
    case mp =>
      rintro ⟨⟨low, high⟩, divides⟩
      have castLow : ((firstTick * 2 : ℤ) : ℚ) ≤ exact := by exact_mod_cast low
      have castHigh : (exact : ℚ) ≤ (firstTick * 2 + 2 * count : ℤ) := by
        rw [Int.cast_le]
        omega
      push_cast at castLow castHigh
      exact ⟨⟨by linarith, by linarith⟩, .inr (even_iff_two_dvd.mpr (by omega))⟩
    case mpr =>
      rintro ⟨⟨low, high⟩, narrow | ⟨half, rfl⟩⟩
      · omega
      · push_cast at low high
        have castLow : (firstTick : ℚ) < (half + 1 : ℤ) := by
          push_cast
          linarith
        have castHigh : (half : ℚ) < (firstTick + count + 1 : ℤ) := by
          push_cast
          linarith
        rw [Int.cast_lt] at castLow castHigh
        exact ⟨⟨by omega, by omega⟩, by omega⟩

end ThreadTicks

end Axis
end ThroughputCharts
