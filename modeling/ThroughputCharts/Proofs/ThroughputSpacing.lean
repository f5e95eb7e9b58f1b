import ThroughputCharts.Proofs.ThroughputMultiples

/-!
# The spacing of throughput ticks

The search for a step starts from a power of ten that is comparable to the end of the axis, and ends at
that power or at a half, a fifth or a tenth of it.  Thus the axis is a few steps long.  From four up to
a million the steps are whole numbers, and the search makes no error at all.
-/

namespace ThroughputCharts
namespace Axis

open Binary64

section Coarse

variable {stop : Float} {top : ℚ} {place power : ℤ}

/-- The power of ten that the search for a step starts from, and that its grain is a tenth of. -/
structure IsCoarse (stop : Float) (top : ℚ) (place : ℤ) (coarse : Spacing) : Prop where
  isEnd : IsThroughputEnd stop top
  isStep : Approximates 10 (10 ^ place) coarse.step
  isGrain : Approximates 10 (10 ^ (place - 1)) coarse.grain
  low : 79 / 100 * 10 ^ place ≤ top
  high : top ≤ 801 / 100 * 10 ^ place

/-- From one on the power is exact, and it is the least that the axis is less than eight times as long
as. -/
structure IsLeastPower (top : ℚ) (exponent : Nat) (coarse : Spacing) : Prop where
  isStep : Denotes coarse.step (10 ^ exponent : Nat)
  fits : top < 8 * 10 ^ exponent
  least : 1 ≤ exponent → 8 * 10 ^ exponent ≤ 10 * top

theorem central_ten : Approximates 0 10 10.0 := by
  have denotes := denotes_ten
  rw [Int.cast_ofNat] at denotes
  exact denotes.approximates (central_of_moderate (by norm_num) (by norm_num))

/-- The quotient of the end by its order of magnitude. -/
theorem IsThroughputEnd.quotient (isEnd : IsThroughputEnd stop top)
    (hasScale : HasScale stop top power) :
    Approximates 4 (top / 10 ^ power) (stop / powerOfTen power) ∧
      Approximates 2 (10 ^ power) (powerOfTen power) := by
  have low := hasScale.low
  have high := hasScale.high
  have unit : (0 : ℚ) < 10 ^ power := by positivity
  rw [zpow_add_one₀ (by norm_num)] at high
  have scale := approximates_powerOfTen (isEnd.central (by linarith) (by linarith))
  refine ⟨isEnd.approximates.div scale (central_of_moderate ?_ ?_) (by decide), scale⟩
  · rw [le_div_iff₀ unit]
    linarith
  · rw [div_le_iff₀ unit]
    linarith

/-- The power of ten is the next one if the range would hold eight of the order of magnitude. -/
theorem IsThroughputEnd.coarse_eq (isEnd : IsThroughputEnd stop top)
    (hasScale : HasScale stop top power) :
    coarse stop 8 =
      if 8 ≤ value (stop / powerOfTen power) then
        ⟨powerOfTen power * 10.0, powerOfTen power / 10.0 * 10.0⟩
      else
        ⟨powerOfTen power, powerOfTen power / 10.0⟩ := by
  obtain ⟨quotient, -⟩ := isEnd.quotient hasScale
  have low := hasScale.low
  have high := hasScale.high
  have unit : (0 : ℚ) < 10 ^ power := by positivity
  rw [zpow_add_one₀ (by norm_num)] at high
  have quotientHigh : top / 10 ^ power ≤ 11 := by
    rw [div_le_iff₀ unit]
    linarith
  have positive := quotient.central.pos
  obtain ⟨valueLow, valueHigh⟩ := quotient.near.half_le positive.le (by decide)
  have floored := denotes_floor quotient.denotes_value
  have floorLow : 0 ≤ ⌊value (stop / powerOfTen power)⌋ := Int.floor_nonneg.mpr (by linarith)
  have floorHigh : ⌊value (stop / powerOfTen power)⌋ ≤ 22 :=
    Int.floor_le_iff.mpr (by push_cast; linarith)
  have sum := denotes_one.add_whole floored (abs_le.mpr ⟨by omega, by omega⟩)
  have reaches : Float.ofNat 8 < 1.0 + floor (stop / powerOfTen power) ↔
      8 ≤ value (stop / powerOfTen power) := by
    rw [(denotes_ofNat (by decide)).lt_iff sum, Int.cast_lt]
    have castEight : (8 : ℚ) = ((8 : ℤ) : ℚ) := by norm_num
    rw [castEight, ← Int.le_floor]
    omega
  simp only [coarse, hasScale.scale_eq, reaches]

/-- A power of ten that is exact is compared with the end of the axis without error. -/
theorem IsThroughputEnd.eight_le_iff {scale : Float} {exponent : Nat}
    (isEnd : IsThroughputEnd stop top) (isScale : Denotes scale (10 ^ exponent : Nat))
    (small : exponent ≤ 15) : 8 ≤ value (stop / scale) ↔ 8 * 10 ^ exponent ≤ top := by
  have atLeast : 1 ≤ 10 ^ exponent := Nat.one_le_pow _ _ (by decide)
  have places : 10 ^ exponent ≤ 10 ^ 15 := Nat.pow_le_pow_right (by decide) small
  have castAtLeast : (1 : ℚ) ≤ (10 ^ exponent : Nat) := by exact_mod_cast atLeast
  have isPower : ((10 ^ exponent : Nat) : ℚ) = 10 ^ exponent := by push_cast; rfl
  have rounds : RoundsTo (top / (10 ^ exponent : Nat)) (stop / scale) := by
    have nonzero : value scale ≠ 0 := by
      rw [isScale.value_eq]
      linarith
    have quotient := roundsTo_div isEnd.denotes.finite isScale.finite nonzero
    rw [isScale.value_eq, isEnd.denotes.value_eq] at quotient
    apply quotient
    rw [abs_div, Nat.abs_cast, ← isEnd.denotes.value_eq]
    exact (div_le_self (abs_nonneg _) castAtLeast).trans_lt
      (abs_value_lt_rangeEnd isEnd.denotes.finite)
  have multiple : Representable ((8 : Nat) * (10 ^ exponent : Nat) : ℚ) := by
    have held : Representable ((8 * 10 ^ exponent : Nat) : ℤ) :=
      representable_intCast (abs_le.mpr ⟨by omega, by omega⟩)
    push_cast at held ⊢
    exact held
  rw [← isPower]
  generalize 10 ^ exponent = power at *
  constructor
  case mp =>
    intro reaches
    by_contra short
    have below := rounds.quotient_lt isEnd.denotes.representable multiple (by linarith) (by decide)
      (by decide) (by push_cast; exact not_le.mp short)
    push_cast at below
    linarith
  case mpr =>
    intro reaches
    have eight : Representable ((8 : ℤ) : ℚ) := representable_intCast (by decide)
    rw [Int.cast_ofNat] at eight
    exact rounds.le_value eight ((le_div_iff₀ (by linarith)).mpr reaches)

/-- A tenth of the order of magnitude. -/
theorem IsThroughputEnd.tenth (isEnd : IsThroughputEnd stop top)
    (hasScale : HasScale stop top power) :
    Approximates 4 (10 ^ power / 10) (powerOfTen power / 10.0) := by
  have low := hasScale.low
  have high := hasScale.high
  rw [zpow_add_one₀ (by norm_num)] at high
  exact (isEnd.quotient hasScale).2.div central_ten (isEnd.central (by linarith) (by linarith))
    (by decide)

/-- The next power of ten is comparable to an axis that holds eight of the order of magnitude. -/
theorem IsThroughputEnd.isCoarse_next (isEnd : IsThroughputEnd stop top)
    (hasScale : HasScale stop top power) (reaches : 8 ≤ value (stop / powerOfTen power)) :
    IsCoarse stop top (power + 1) ⟨powerOfTen power * 10.0, powerOfTen power / 10.0 * 10.0⟩ := by
  obtain ⟨quotient, scale⟩ := isEnd.quotient hasScale
  have low := hasScale.low
  have high := hasScale.high
  have unit : (0 : ℚ) < 10 ^ power := by positivity
  have next : (10 : ℚ) ^ (power + 1) = 10 ^ power * 10 := zpow_add_one₀ (by norm_num) _
  have isTop : top = top / 10 ^ power * 10 ^ power := (div_mul_cancel₀ _ unit.ne').symm
  have near := abs_le.mp (quotient.near.abs_sub_le quotient.central.pos.le (by decide))
  rw [next] at high
  refine ⟨isEnd, ?_, ?_, ?_, ?_⟩
  · rw [next]
    exact (scale.mul central_ten (isEnd.central (by linarith) (by linarith)) (by decide)).mono
      (by decide)
  · have grain := (isEnd.tenth hasScale).mul central_ten
      (isEnd.central (by linarith) (by linarith)) (by decide)
    rw [div_mul_cancel₀ _ (by norm_num)] at grain
    rw [add_sub_cancel_right]
    exact grain.mono (by decide)
  · rw [next, isTop]
    nlinarith
  · rw [next]
    linarith

/-- Otherwise the order of magnitude is comparable to the axis itself. -/
theorem IsThroughputEnd.isCoarse_order (isEnd : IsThroughputEnd stop top)
    (hasScale : HasScale stop top power) (short : value (stop / powerOfTen power) < 8) :
    IsCoarse stop top power ⟨powerOfTen power, powerOfTen power / 10.0⟩ := by
  obtain ⟨quotient, scale⟩ := isEnd.quotient hasScale
  have low := hasScale.low
  have unit : (0 : ℚ) < 10 ^ power := by positivity
  have isTop : top = top / 10 ^ power * 10 ^ power := (div_mul_cancel₀ _ unit.ne').symm
  have near := abs_le.mp (quotient.near.abs_sub_le quotient.central.pos.le (by decide))
  refine ⟨isEnd, scale.mono (by decide), ?_, by linarith, ?_⟩
  · rw [zpow_sub_one₀ (by norm_num), ← div_eq_mul_inv]
    exact (isEnd.tenth hasScale).mono (by decide)
  · rw [isTop]
    nlinarith

/-- From one on the next power of ten is exact, and so is the comparison that leads to it. -/
theorem IsThroughputEnd.isLeastPower_next {exponent : Nat} (isEnd : IsThroughputEnd stop top)
    (hasScale : HasScale stop top power) (reaches : 8 ≤ value (stop / powerOfTen power))
    (isExponent : power + 1 = exponent)
    (small : exponent ≤ 15) :
    IsLeastPower top exponent ⟨powerOfTen power * 10.0, powerOfTen power / 10.0 * 10.0⟩ := by
  have high := hasScale.high
  rw [isExponent, zpow_natCast] at high
  have unit : (0 : ℚ) < 10 ^ exponent := by positivity
  cases exponent with
  | zero =>
      have isOrder : power = -1 := by omega
      have one : powerOfTen (-1) * 10.0 = 1.0 := by decide +kernel
      refine ⟨?_, by linarith, fun positive => absurd positive (by decide)⟩
      rw [isOrder, one, pow_zero, Nat.cast_one]
      exact denotes_unit
  | succ exponent =>
      have isOrder : power = exponent := by omega
      rw [isOrder] at reaches ⊢
      have isScale := denotes_powerOfTen (by omega : exponent ≤ 15)
      have places : 10 ^ exponent ≤ 10 ^ 14 := Nat.pow_le_pow_right (by decide) (by omega)
      have bound : |((10 ^ exponent : Nat) : ℤ) * 10| ≤ 2 ^ 53 := by
        rw [abs_of_nonneg (by positivity)]
        omega
      have product := isScale.mul_whole denotes_ten bound
      rw [Int.cast_natCast] at isScale
      have reached := (isEnd.eight_le_iff isScale (by omega)).mp reaches
      refine ⟨?_, by linarith, fun _ => ?_⟩
      · convert product using 1
        push_cast
        ring
      · rw [pow_succ]
        linarith

theorem IsThroughputEnd.isLeastPower_order {exponent : Nat} (isEnd : IsThroughputEnd stop top)
    (hasScale : HasScale stop top power) (short : value (stop / powerOfTen power) < 8)
    (isExponent : power = exponent)
    (small : exponent ≤ 15) :
    IsLeastPower top exponent ⟨powerOfTen power, powerOfTen power / 10.0⟩ := by
  have low := hasScale.low
  have isScale := denotes_powerOfTen small
  rw [isExponent] at low short ⊢
  rw [Int.cast_natCast] at isScale
  rw [← not_le, isEnd.eight_le_iff isScale small, not_le] at short
  rw [zpow_natCast] at low
  exact ⟨isScale, short, fun _ => by linarith [isEnd.pos]⟩

/-- The search starts from a power of ten that is comparable to the end of the axis. -/
theorem IsThroughputEnd.exists_isCoarse (isEnd : IsThroughputEnd stop top) :
    ∃ place, IsCoarse stop top place (coarse stop 8) ∧
      ∀ exponent : Nat, place = exponent → exponent ≤ 15 →
        IsLeastPower top exponent (coarse stop 8) := by
  obtain ⟨power, hasScale⟩ := isEnd.denotes.exists_hasScale isEnd.pos
  rw [isEnd.coarse_eq hasScale]
  split
  next reaches =>
    exact ⟨_, isEnd.isCoarse_next hasScale reaches,
      fun _ isExponent small => isEnd.isLeastPower_next hasScale reaches isExponent small⟩
  next notReaches =>
    have short := not_le.mp notReaches
    exact ⟨_, isEnd.isCoarse_order hasScale short,
      fun _ isExponent small => isEnd.isLeastPower_order hasScale short isExponent small⟩

end Coarse

section Search

variable {stop start step grain : Float} {top unit : ℚ} {place : ℤ} {limit fuel : Nat}
  {coarse : Spacing}

theorem refine_half (half : tooMany start stop limit step 2.0 = false)
    (fifth : tooMany start stop limit step 5.0 = true) :
    refine start stop limit (fuel + 1) ⟨step, grain⟩ = some ⟨step / 2.0, grain⟩ := by
  simp only [refine, divide, half, fifth, if_true, Bool.false_eq_true, if_false]

/-- Where the search for a step from a power of ten may end, and what it found on its way. -/
inductive SearchEnds (stop : Float) (coarse : Spacing) : Spacing → Prop
  | whole (half : tooMany 0.0 stop 8 coarse.step 2.0 = true) : SearchEnds stop coarse coarse
  | half (half : tooMany 0.0 stop 8 coarse.step 2.0 = false)
      (fifth : tooMany 0.0 stop 8 coarse.step 5.0 = true) :
      SearchEnds stop coarse ⟨coarse.step / 2.0, coarse.grain⟩
  | fifth (fifth : tooMany 0.0 stop 8 coarse.step 5.0 = false)
      (tenth : tooMany 0.0 stop 8 coarse.step 10.0 = true) :
      SearchEnds stop coarse ⟨coarse.step / 5.0, coarse.grain⟩
  | tenth (tenth : tooMany 0.0 stop 8 coarse.step 10.0 = false)
      (half : tooMany 0.0 stop 8 (coarse.step / 10.0) 2.0 = true) :
      SearchEnds stop coarse ⟨coarse.step / 10.0, coarse.grain / 10.0⟩

theorem IsCoarse.isDivided {division : Float} {parts : Nat}
    (isCoarse : IsCoarse stop top place coarse) (isDivision : Denotes division (parts : ℤ))
    (several : 2 ≤ parts) (few : parts ≤ 10) :
    IsDivided stop coarse.step division top (10 ^ place / parts) 10 parts := by
  have castSeveral : (2 : ℚ) ≤ parts := by exact_mod_cast several
  have castFew : (parts : ℚ) ≤ 10 := by exact_mod_cast few
  have unit : (0 : ℚ) < 10 ^ place := by positivity
  have whole : (10 : ℚ) ^ place / parts * parts = 10 ^ place := div_mul_cancel₀ _ (by linarith)
  refine ⟨isCoarse.isEnd, ?_, isDivision, by decide, by omega, few, ?_, ?_⟩
  · rw [whole]
    exact isCoarse.isStep
  · have part : (10 : ℚ) ^ place / parts ≤ 10 ^ place / 2 :=
      div_le_div_of_nonneg_left unit.le (by norm_num) castSeveral
    linarith [isCoarse.low]
  · have part : (10 : ℚ) ^ place / 10 ≤ 10 ^ place / parts :=
      div_le_div_of_nonneg_left unit.le (by linarith) castFew
    linarith [isCoarse.high]

/-- A tenth of the power is divided no further. -/
theorem IsCoarse.isDivided_tenth (isCoarse : IsCoarse stop top place coarse)
    (fits : top ≤ 43 / 5 * (10 ^ place / 10)) :
    IsDivided stop (coarse.step / 10.0) 2.0 top (10 ^ place / 10 / 2) 12 2 := by
  have unit : (0 : ℚ) < 10 ^ place := by positivity
  have low := isCoarse.low
  refine ⟨isCoarse.isEnd, ?_, denotes_two, by decide, by decide, by decide, ?_, ?_⟩
  · have whole : (10 : ℚ) ^ place / 10 / 2 * (2 : Nat) = 10 ^ place / 10 :=
      div_mul_cancel₀ _ (by norm_num)
    rw [whole]
    exact isCoarse.isStep.div central_ten
      (isCoarse.isEnd.central (by linarith [isCoarse.high]) (by linarith)) (by decide)
  · linarith
  · linarith

/-- The search ends after a tenth of the power at the latest. -/
theorem IsCoarse.exists_searchEnds (isCoarse : IsCoarse stop top place coarse) (fuel : Nat) :
    ∃ spacing, refine 0.0 stop 8 (fuel + 2) coarse = some spacing ∧
      SearchEnds stop coarse spacing := by
  have unit : (0 : ℚ) < 10 ^ place := by positivity
  have tenths := isCoarse.isDivided denotes_ten (by decide) (by decide)
  obtain ⟨step, grain⟩ := coarse
  cases half : tooMany 0.0 stop 8 step 2.0 with
  | true =>
      exact ⟨_, refine_stays half, .whole half⟩
  | false =>
      cases fifth : tooMany 0.0 stop 8 step 5.0 with
      | true =>
          exact ⟨_, refine_half half fifth, .half half fifth⟩
      | false =>
          cases tenth : tooMany 0.0 stop 8 step 10.0 with
          | true =>
              exact ⟨_, refine_fifth half fifth tenth, .fifth fifth tenth⟩
          | false =>
              have again := isCoarse.isDivided_tenth (tenths.tooMany_near.2 tenth)
              have stops : tooMany 0.0 stop 8 (step / 10.0) 2.0 = true := by
                rw [← Bool.not_eq_false]
                intro fits
                have bound := again.tooMany_near.2 fits
                linarith [isCoarse.low]
              exact ⟨_, (refine_tenth half fifth tenth).trans (refine_stays stops),
                .tenth tenth stops⟩

/-- The spacing of the ticks on a throughput axis for which there is one. -/
def throughputSpacing (stop : Float) : Spacing :=
  (spacing 0.0 stop 8).getD (Axis.coarse stop 8)

theorem IsThroughputEnd.searchEnds (isEnd : IsThroughputEnd stop top)
    (isCoarse : IsCoarse stop top place (Axis.coarse stop 8)) :
    spacing 0.0 stop 8 = some (throughputSpacing stop) ∧
      SearchEnds stop (Axis.coarse stop 8) (throughputSpacing stop) := by
  have isLength : stop - 0.0 = stop :=
    (denotes_sub_zero isEnd.denotes).unique isEnd.denotes isEnd.pos
  obtain ⟨fuel, isSearch⟩ := exists_spacing_eq 0.0 stop 8
  rw [isLength] at isSearch
  obtain ⟨found, isFound, ends⟩ := isCoarse.exists_searchEnds (fuel + 3)
  rw [throughputSpacing, isSearch, isFound]
  exact ⟨rfl, ends⟩

theorem IsThroughputEnd.spacing_eq (isEnd : IsThroughputEnd stop top) :
    spacing 0.0 stop 8 = some (throughputSpacing stop) := by
  obtain ⟨place, isCoarse, -⟩ := isEnd.exists_isCoarse
  exact (isEnd.searchEnds isCoarse).1

/-- The step is a power of ten, or a half or a fifth of one, and the axis is a few steps long. -/
structure IsThroughputStep (top : ℚ) (place : ℤ) (parts : Nat) (spacing : Spacing) : Prop where
  isStep : Approximates 20 (10 ^ place / parts) spacing.step
  isGrain : Approximates 20 (10 ^ (place - 1)) spacing.grain
  isParts : parts = 1 ∨ parts = 2 ∨ parts = 5
  low : 29 / 10 * (10 ^ place / parts) ≤ top
  high : top ≤ 43 / 5 * (10 ^ place / parts)

theorem SearchEnds.exists_isThroughputStep {spacing : Spacing}
    (ends : SearchEnds stop coarse spacing) (isCoarse : IsCoarse stop top place coarse) :
    ∃ place parts, IsThroughputStep top place parts spacing := by
  have halves := isCoarse.isDivided denotes_two (by decide) (by decide)
  have fifths := isCoarse.isDivided denotes_five (by decide) (by decide)
  have tenths := isCoarse.isDivided denotes_ten (by decide) (by decide)
  have unit : (0 : ℚ) < 10 ^ place := by positivity
  have before : (10 : ℚ) ^ (place - 1) = 10 ^ place / 10 := zpow_sub_one₀ (by norm_num) place
  cases ends with
  | whole half =>
      have low := halves.tooMany_near.1 half
      refine ⟨place, 1, ?_, isCoarse.isGrain.mono (by decide), .inl rfl, ?_, ?_⟩
      all_goals
        push_cast at low ⊢
        rw [div_one]
      · exact isCoarse.isStep.mono (by decide)
      · linarith
      · linarith [isCoarse.high]
  | half half fifth =>
      have low := fifths.tooMany_near.1 fifth
      have high := halves.tooMany_near.2 half
      refine ⟨place, 2, halves.part_approximates.mono (by decide),
        isCoarse.isGrain.mono (by decide), .inr (.inl rfl), ?_, high⟩
      push_cast at low ⊢
      linarith
  | fifth fifth tenth =>
      have low := tenths.tooMany_near.1 tenth
      have high := fifths.tooMany_near.2 fifth
      refine ⟨place, 5, fifths.part_approximates.mono (by decide),
        isCoarse.isGrain.mono (by decide), .inr (.inr rfl), ?_, high⟩
      push_cast at low ⊢
      linarith
  | tenth tenth half =>
      have high := tenths.tooMany_near.2 tenth
      have low := (isCoarse.isDivided_tenth high).tooMany_near.1 half
      refine ⟨place - 1, 1, ?_, ?_, .inl rfl, ?_, ?_⟩
      · rw [before, Nat.cast_one, div_one]
        exact tenths.part_approximates.mono (by decide)
      · have grain := isCoarse.isGrain.div central_ten
          (isCoarse.isEnd.central (by rw [before]; linarith [isCoarse.high])
            (by rw [before]; linarith [isCoarse.low])) (by decide)
        rw [zpow_sub_one₀ (by norm_num) (place - 1)]
        exact grain.mono (by decide)
      all_goals
        rw [before, Nat.cast_one, div_one]
      · linarith
      · exact high

theorem IsThroughputEnd.exists_isThroughputStep (isEnd : IsThroughputEnd stop top) :
    ∃ place parts, IsThroughputStep top place parts (throughputSpacing stop) := by
  obtain ⟨place, isCoarse, -⟩ := isEnd.exists_isCoarse
  exact (isEnd.searchEnds isCoarse).2.exists_isThroughputStep isCoarse

end Search

section Exact

variable {stop step division : Float} {top unit : ℚ} {place : ℤ} {exponent parts whole : Nat}
  {coarse spacing : Spacing}

/-- A part of a whole step is exact if it is a multiple of a half. -/
theorem denotes_part (isStep : Denotes step whole) (isDivision : Denotes division (parts : ℤ))
    (positive : 1 ≤ parts) (small : whole ≤ 2 ^ 29) (isUnit : (whole : ℚ) = unit * parts)
    (onGrid : OnGrid (-1) unit) : Denotes (step / division) unit := by
  have castPositive : (1 : ℚ) ≤ parts := by exact_mod_cast positive
  have castSmall : (whole : ℚ) ≤ 2 ^ 29 := by exact_mod_cast small
  have quotient : (whole : ℚ) / (parts : ℤ) = unit := by
    rw [isUnit, Int.cast_natCast]
    exact mul_div_cancel_right₀ _ (by linarith)
  have size : |unit| ≤ 2 ^ 29 := by
    rw [← quotient, Int.cast_natCast, abs_of_nonneg (by positivity)]
    exact (div_le_self (by positivity) castPositive).trans castSmall
  have rounds := isStep.div isDivision (by push_cast; linarith) (by rw [quotient]; linarith)
  rw [quotient] at rounds
  exact rounds.denotes (onGrid.representable (by decide) (size.trans (by norm_num)))

/-- Whether a power of ten in exact parts gives too many ticks is found without error. -/
theorem IsCoarse.tooMany_iff (isCoarse : IsCoarse stop top exponent coarse)
    (isStep : Denotes coarse.step (10 ^ exponent : Nat)) (small : exponent ≤ 6) (one_le : 1 ≤ top)
    (isDivision : Denotes division (parts : ℤ)) (several : 2 ≤ parts) (few : parts ≤ 10)
    (isUnit : (10 : ℚ) ^ exponent = unit * parts) (onGrid : OnGrid (-1) unit) :
    tooMany 0.0 stop 8 coarse.step division = true ↔ 8 * unit ≤ top := by
  have isDivided := isCoarse.isDivided isDivision several few
  have castSeveral : (2 : ℚ) ≤ parts := by exact_mod_cast several
  have part : (10 : ℚ) ^ (exponent : ℤ) / parts = unit := by
    rw [zpow_natCast, isUnit]
    exact mul_div_cancel_right₀ _ (by linarith)
  rw [part] at isDivided
  have power : (10 : ℚ) ^ exponent ≤ 10 ^ 6 := pow_le_pow_right₀ (by norm_num) small
  have places : 10 ^ exponent ≤ 2 ^ 29 :=
    (Nat.pow_le_pow_right (by decide) small).trans (by decide)
  have high := isCoarse.high
  rw [zpow_natCast] at high
  refine isDivided.tooMany_iff_of_isExactStep ⟨isCoarse.isEnd, one_le, by linarith, ?_, onGrid,
    isDivided.unit_pos, isDivided.high, by linarith [isDivided.low, isDivided.unit_pos]⟩
  exact denotes_part isStep isDivision (by omega) places (by push_cast; exact isUnit) onGrid

theorem IsCoarse.place_lt {other : ℤ} (isCoarse : IsCoarse stop top place coarse)
    (less : top < 79 / 100 * 10 ^ other) : place < other := by
  have powers : (10 : ℚ) ^ place < 10 ^ other := by linarith [isCoarse.low]
  exact (zpow_lt_zpow_iff_right₀ (by norm_num)).mp powers

theorem IsCoarse.lt_place {other : ℤ} (isCoarse : IsCoarse stop top place coarse)
    (greater : 801 / 100 * 10 ^ other < top) : other < place := by
  have powers : (10 : ℚ) ^ other < 10 ^ place := by linarith [isCoarse.high]
  exact (zpow_lt_zpow_iff_right₀ (by norm_num)).mp powers

/-- A whole step is a part of a power of ten, and the next smaller part would have given too many
ticks. -/
structure IsWholeStep (top : ℚ) (exponent unit : Nat) (spacing : Spacing) : Prop where
  isStep : Denotes spacing.step (unit : ℤ)
  small : exponent ≤ 6
  fits : top < 8 * unit
  least : unit = 10 ^ exponent ∧ 4 * 10 ^ exponent ≤ top ∨
    unit * 2 = 10 ^ exponent ∧ 8 * 10 ^ exponent ≤ 5 * top ∨
    unit * 5 = 10 ^ exponent ∧ 4 * 10 ^ exponent ≤ 5 * top

theorem onGrid_natCast (number : Nat) : OnGrid (-1) (number : ℚ) := by
  have onGrid := onGrid_intCast (by decide : (-1 : ℤ) ≤ 0) number
  rwa [Int.cast_natCast] at onGrid

/-- Whole parts of an exact power of ten are exact, and so is whether they give too many ticks. -/
theorem IsCoarse.denotes_finer {whole : Nat} (isCoarse : IsCoarse stop top exponent coarse)
    (isStep : Denotes coarse.step (10 ^ exponent : Nat)) (small : exponent ≤ 6) (one_le : 1 ≤ top)
    (isDivision : Denotes division (parts : ℤ)) (several : 2 ≤ parts) (few : parts ≤ 10)
    (isWhole : 10 ^ exponent = whole * parts) :
    Denotes (coarse.step / division) (whole : ℤ) ∧
      (tooMany 0.0 stop 8 coarse.step division = true ↔ 8 * (whole : ℚ) ≤ top) := by
  have castWhole : (10 : ℚ) ^ exponent = whole * parts := by exact_mod_cast isWhole
  have places : 10 ^ exponent ≤ 2 ^ 29 :=
    (Nat.pow_le_pow_right (by decide) small).trans (by decide)
  rw [Int.cast_natCast whole]
  exact ⟨denotes_part isStep isDivision (by omega) places (by push_cast; exact castWhole)
    (onGrid_natCast whole),
    isCoarse.tooMany_iff isStep small one_le isDivision several few castWhole (onGrid_natCast whole)⟩

/-- Only one is a power of ten but not a multiple of ten. -/
theorem exists_tenth (low : 4 ≤ top) (more : top < 4 * 10 ^ exponent) :
    ∃ tenth, 10 ^ exponent = 10 * tenth := by
  cases exponent with
  | zero =>
      rw [pow_zero] at more
      linarith
  | succ exponent => exact ⟨10 ^ exponent, by rw [pow_succ, mul_comm]⟩

/-- From four up to a million the search ends at a whole step. -/
theorem SearchEnds.exists_isWholeStep (ends : SearchEnds stop coarse spacing)
    (isCoarse : IsCoarse stop top place coarse)
    (isLeast : ∀ exponent : Nat, place = exponent → exponent ≤ 15 →
      IsLeastPower top exponent coarse)
    (low : 4 ≤ top) (high : top < 1000000) :
    ∃ exponent unit, IsWholeStep top exponent unit spacing := by
  have above := isCoarse.lt_place (by norm_num; linarith : 801 / 100 * 10 ^ (-1 : ℤ) < top)
  have below := isCoarse.place_lt (by norm_num; linarith : top < 79 / 100 * 10 ^ (7 : ℤ))
  obtain ⟨exponent, rfl⟩ : ∃ exponent : Nat, place = exponent := ⟨place.toNat, by omega⟩
  obtain ⟨isStep, fits, least⟩ := isLeast exponent rfl (by omega)
  have small : exponent ≤ 6 := by omega
  have fifths := isCoarse.isDivided denotes_five (by decide) (by decide)
  have tenths := isCoarse.isDivided denotes_ten (by decide) (by decide)
  have halvesOnGrid : OnGrid (-1) ((10 : ℚ) ^ exponent / 2) :=
    ⟨10 ^ exponent, by rw [zpow_neg_one]; push_cast; ring⟩
  have isHalf := isCoarse.tooMany_iff isStep small (by linarith) denotes_two (by decide) (by decide)
    (by push_cast; ring) halvesOnGrid
  have power : (0 : ℚ) < 10 ^ exponent := by positivity
  -- Unless the step is the power itself, the power is a multiple of ten.
  have tens (more : top < 4 * 10 ^ exponent) := exists_tenth low more
  have one_le : 1 ≤ top := by linarith
  cases ends with
  | whole half =>
      have reached := isHalf.mp half
      rw [← Int.cast_natCast] at isStep
      exact ⟨exponent, 10 ^ exponent, isStep, small, by push_cast; exact fits, .inl ⟨rfl, by linarith⟩⟩
  | half half fifth =>
      rw [← Bool.not_eq_true, isHalf, not_le] at half
      obtain ⟨tenth, isPower⟩ := tens (by linarith)
      have castPower : (10 : ℚ) ^ exponent = 10 * tenth := by exact_mod_cast isPower
      have reached := (isCoarse.denotes_finer isStep small one_le denotes_five (by decide)
        (by decide) (by omega : 10 ^ exponent = 2 * tenth * 5)).2.mp fifth
      have isHalfStep := (isCoarse.denotes_finer isStep small one_le denotes_two (by decide)
        (by decide) (by omega : 10 ^ exponent = 5 * tenth * 2)).1
      push_cast at reached
      exact ⟨exponent, 5 * tenth, isHalfStep, small, by push_cast; linarith,
        .inr (.inl ⟨by omega, by linarith⟩)⟩
  | fifth fifth tenth =>
      have near := fifths.tooMany_near.2 fifth
      rw [zpow_natCast] at near
      push_cast at near
      obtain ⟨part, isPower⟩ := tens (by linarith)
      have castPower : (10 : ℚ) ^ exponent = 10 * part := by exact_mod_cast isPower
      obtain ⟨isFifthStep, isFifth⟩ := isCoarse.denotes_finer isStep small one_le denotes_five
        (by decide) (by decide) (by omega : 10 ^ exponent = 2 * part * 5)
      have reached := (isCoarse.denotes_finer isStep small one_le denotes_ten (by decide)
        (by decide) (by omega : 10 ^ exponent = part * 10)).2.mp tenth
      rw [← Bool.not_eq_true, isFifth, not_le] at fifth
      exact ⟨exponent, 2 * part, isFifthStep, small, fifth, .inr (.inr ⟨by omega, by linarith⟩)⟩
  | tenth tenth _ =>
      -- The power would not have been the least one.
      have near := tenths.tooMany_near.2 tenth
      rw [zpow_natCast] at near
      push_cast at near
      obtain ⟨part, isPower⟩ := tens (by linarith)
      have castPower : (10 : ℚ) ^ exponent = 10 * part := by exact_mod_cast isPower
      have isTenth := (isCoarse.denotes_finer isStep small one_le denotes_ten (by decide)
        (by decide) (by omega : 10 ^ exponent = part * 10)).2
      have positive : 1 ≤ exponent := by
        by_contra none
        obtain rfl : exponent = 0 := by omega
        omega
      rw [← Bool.not_eq_true, isTenth, not_le] at tenth
      linarith [least positive]

/-- From four up to a million the ticks of a throughput axis are whole steps apart. -/
theorem IsThroughputEnd.exists_isWholeStep (isEnd : IsThroughputEnd stop top) (low : 4 ≤ top)
    (high : top < 1000000) :
    ∃ exponent unit, IsWholeStep top exponent unit (throughputSpacing stop) := by
  obtain ⟨place, isCoarse, isLeast⟩ := isEnd.exists_isCoarse
  exact (isEnd.searchEnds isCoarse).2.exists_isWholeStep isCoarse isLeast low high

/-- Below four the step is hardly more than a fifth, or exactly a half. -/
theorem SearchEnds.step_le_half (ends : SearchEnds stop coarse spacing)
    (isCoarse : IsCoarse stop top place coarse)
    (isLeast : ∀ exponent : Nat, place = exponent → exponent ≤ 15 →
      IsLeastPower top exponent coarse)
    (high : top < 4) : value spacing.step ≤ 1 / 2 := by
  have below := isCoarse.place_lt (by norm_num; linarith : top < 79 / 100 * 10 ^ (1 : ℤ))
  have halves := isCoarse.isDivided denotes_two (by decide) (by decide)
  have fifths := isCoarse.isDivided denotes_five (by decide) (by decide)
  have tenths := isCoarse.isDivided denotes_ten (by decide) (by decide)
  have power : (10 : ℚ) ^ place ≤ 10 ^ (0 : ℤ) := zpow_le_zpow_right₀ (by norm_num) (by omega)
  rw [zpow_zero] at power
  cases ends with
  | whole half =>
      rcases (by omega : place = 0 ∨ place ≤ -1) with rfl | small
      · -- A step of one would have to be reached eight times over by halves.
        have near := halves.tooMany_near.1 half
        rw [zpow_zero] at near
        push_cast at near
        obtain ⟨isStep, -, -⟩ := isLeast 0 rfl (by decide)
        have onGrid : OnGrid (-1) (1 / 2 : ℚ) := ⟨1, by norm_num⟩
        have reached := (IsCoarse.tooMany_iff isCoarse isStep (by decide) (by linarith) denotes_two
          (by decide) (by decide) (by norm_num) onGrid).mp half
        linarith
      · have tenth : (10 : ℚ) ^ place ≤ 10 ^ (-1 : ℤ) := zpow_le_zpow_right₀ (by norm_num) small
        rw [zpow_neg_one] at tenth
        linarith [(isCoarse.isStep.near.half_le (by positivity) (by decide)).2]
  | half half fifth =>
      rcases (by omega : place = 0 ∨ place ≤ -1) with rfl | small
      · obtain ⟨isStep, -, -⟩ := isLeast 0 rfl (by decide)
        have onGrid : OnGrid (-1) (1 / 2 : ℚ) := ⟨1, by norm_num⟩
        exact (denotes_part isStep denotes_two (by decide) (by decide) (by norm_num)
          onGrid).value_eq.le
      · have tenth : (10 : ℚ) ^ place ≤ 10 ^ (-1 : ℤ) := zpow_le_zpow_right₀ (by norm_num) small
        rw [zpow_neg_one] at tenth
        have near := (halves.part_approximates.near.half_le (by positivity) (by decide)).2
        push_cast at near
        linarith
  | fifth fifth tenth =>
      have near := (fifths.part_approximates.near.half_le (by positivity) (by decide)).2
      push_cast at near
      linarith
  | tenth tenth half =>
      have near := (tenths.part_approximates.near.half_le (by positivity) (by decide)).2
      push_cast at near
      linarith

theorem IsThroughputEnd.step_le_half (isEnd : IsThroughputEnd stop top) (high : top < 4) :
    value (throughputSpacing stop).step ≤ 1 / 2 := by
  obtain ⟨place, isCoarse, isLeast⟩ := isEnd.exists_isCoarse
  exact (isEnd.searchEnds isCoarse).2.step_le_half isCoarse isLeast high

end Exact

end Axis
end ThroughputCharts
