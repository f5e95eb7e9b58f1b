import ThroughputCharts.Proofs.RelativeError
import ThroughputCharts.Proofs.TickSpacing

/-!
# The search for a step ends

The search for a step divides it by ten as long as all of its divisions fit.  It starts from a step that
is comparable to the length of the axis, and each round leaves a tenth up to rounding.  So it is over
after four rounds at the latest if small steps give too many ticks, and its step is not much shorter than
the axis.
-/

namespace ThroughputCharts

namespace Binary64

/-- A finite number from one bound to another. -/
structure Between (low high : ℚ) (number : Float) : Prop where
  finite : number.isFinite = true
  low_le : low ≤ value number
  le_high : value number ≤ high

/-- Numbers of moderate size are far from the least ones. -/
theorem least_le_of_moderate {number : ℚ} (moderate : 1 / 2 ^ 110 ≤ number) :
    2 ^ (-1022 : ℤ) ≤ number := by
  calc (2 : ℚ) ^ (-1022 : ℤ) ≤ 2 ^ (-110 : ℤ) := zpow_le_zpow_right₀ one_le_two (by decide)
    _ = 1 / 2 ^ 110 := by norm_num
    _ ≤ number := moderate

namespace Between

variable {low high lower higher : ℚ} {number division : Float} {parts : ℤ}

theorem mono (between : Between low high number) (less : lower ≤ low) (more : high ≤ higher) :
    Between lower higher number :=
  ⟨between.finite, less.trans between.low_le, between.le_high.trans more⟩

theorem denotes (between : Between low high number) : Denotes number (value number) :=
  ⟨between.finite, rfl⟩

theorem div (between : Between low high number) (isDivision : Denotes division parts)
    (several : 1 ≤ parts) (few : parts ≤ 10) (normal : 1 / 2 ^ 100 ≤ low) :
    Between (low / parts * (1 - 1 / 2 ^ 53)) (high / parts * (1 + 1 / 2 ^ 53))
      (number / division) := by
  have castSeveral : (1 : ℚ) ≤ parts := by exact_mod_cast several
  have castFew : (parts : ℚ) ≤ 10 := by exact_mod_cast few
  have lowPositive : 0 < low := normal.trans_lt' (by norm_num)
  have nonneg : 0 ≤ value number := lowPositive.le.trans between.low_le
  have quotientLow : low / parts ≤ value number / parts :=
    div_le_div_of_nonneg_right between.low_le (by linarith)
  have quotientHigh : value number / parts ≤ high / parts :=
    div_le_div_of_nonneg_right between.le_high (by linarith)
  have quotientNonneg : 0 ≤ value number / parts := div_nonneg nonneg (by linarith)
  have least : 2 ^ (-1022 : ℤ) ≤ value number / parts := by
    have tenth : low / 10 ≤ low / parts :=
      div_le_div_of_nonneg_left lowPositive.le (by linarith) castFew
    exact least_le_of_moderate (by linarith)
  have inRange : |value number / value division| < rangeEnd := by
    rw [isDivision.value_eq, abs_of_nonneg quotientNonneg]
    exact (div_le_self nonneg castSeveral).trans_lt
      ((le_abs_self _).trans_lt (abs_value_lt_rangeEnd between.finite))
  have rounds := roundsTo_div between.finite isDivision.finite
    (by rw [isDivision.value_eq]; linarith) inRange
  rw [isDivision.value_eq] at rounds
  obtain ⟨below, above⟩ := abs_le.mp (rounds.abs_sub_le_div least (abs_of_nonneg quotientNonneg).le)
  exact ⟨rounds.finite, by linarith, by linarith⟩

theorem mul (between : Between low high number) (isFactor : Denotes division parts)
    (several : 1 ≤ parts) (normal : 1 / 2 ^ 100 ≤ low)
    (inRange : high * parts < rangeEnd) :
    Between (low * parts * (1 - 1 / 2 ^ 53)) (high * parts * (1 + 1 / 2 ^ 53))
      (number * division) := by
  have castSeveral : (1 : ℚ) ≤ parts := by exact_mod_cast several
  have lowPositive : 0 < low := normal.trans_lt' (by norm_num)
  have nonneg : 0 ≤ value number := lowPositive.le.trans between.low_le
  have productLow : low * parts ≤ value number * parts :=
    mul_le_mul_of_nonneg_right between.low_le (by linarith)
  have productHigh : value number * parts ≤ high * parts :=
    mul_le_mul_of_nonneg_right between.le_high (by linarith)
  have productNonneg : 0 ≤ value number * parts := mul_nonneg nonneg (by linarith)
  have least : 2 ^ (-1022 : ℤ) ≤ value number * parts :=
    least_le_of_moderate (by linarith [le_mul_of_one_le_right lowPositive.le castSeveral])
  have rounds := roundsTo_mul between.finite isFactor.finite
    (by rw [isFactor.value_eq, abs_of_nonneg productNonneg]; linarith)
  rw [isFactor.value_eq] at rounds
  obtain ⟨below, above⟩ := abs_le.mp (rounds.abs_sub_le_div least (abs_of_nonneg productNonneg).le)
  exact ⟨rounds.finite, by linarith, by linarith⟩

end Between

theorem RoundsTo.bounds {exact bound : ℚ} {result : Float} (rounds : RoundsTo exact result)
    (large : 1 ≤ bound) (small : |exact| ≤ bound) :
    exact - bound / 2 ^ 53 ≤ value result ∧ value result ≤ exact + bound / 2 ^ 53 := by
  obtain ⟨below, above⟩ :=
    abs_le.mp (rounds.abs_sub_le_div (least_le_of_moderate (by linarith)) small)
  constructor <;> linarith

/-- A result is between whole numbers that its exact value is between. -/
theorem RoundsTo.between {least greatest : ℤ} {exact : ℚ} {result : Float}
    (rounds : RoundsTo exact result) (low : least ≤ exact) (high : exact ≤ greatest)
    (leastSmall : |least| ≤ 2 ^ 53) (greatestSmall : |greatest| ≤ 2 ^ 53) :
    Between least greatest result :=
  ⟨rounds.finite, rounds.le_value (representable_intCast leastSmall) low,
    rounds.value_le (representable_intCast greatestSmall) high⟩

end Binary64

namespace Axis

open Binary64

section Rounds

variable {start stop step : Float} {limit : Nat}

/-- A step that fits stays, or is divided by two or five; or all its divisions fit, also that by ten. -/
theorem divide_cases (start stop : Float) (limit : Nat) (step : Float) :
    (∃ part, (part = step ∨ part = step / 2.0 ∨ part = step / 5.0) ∧
      divide start stop limit step [2.0, 5.0, 10.0] step = (part, false)) ∨
    (tooMany start stop limit step 10.0 = false ∧
      divide start stop limit step [2.0, 5.0, 10.0] step = (step / 10.0, true)) := by
  simp only [divide]
  cases tooMany start stop limit step 2.0 with
  | true => exact .inl ⟨step, .inl rfl, rfl⟩
  | false =>
      cases tooMany start stop limit step 5.0 with
      | true => exact .inl ⟨_, .inr (.inl rfl), rfl⟩
      | false =>
          cases tooMany start stop limit step 10.0 with
          | true => exact .inl ⟨_, .inr (.inr rfl), rfl⟩
          | false => exact .inr ⟨rfl, rfl⟩

/-- Many steps between the first and the last tick at their tenths are too many. -/
theorem tooMany_tenths_of_ratio (isRatio : Between (16 : ℤ) (2 ^ 40 : ℤ)
      ((lastMultiple stop (step / 10.0) - firstMultiple start (step / 10.0)) / step))
    (few : limit ≤ 128) : tooMany start stop limit step 10.0 = true := by
  have ratioLow := isRatio.low_le
  have ratioHigh := isRatio.le_high
  push_cast at ratioLow ratioHigh
  unfold tooMany
  dsimp only
  generalize (lastMultiple stop (step / 10.0) - firstMultiple start (step / 10.0)) / step = ratio at *
  have productLow : ((160 : ℤ) : ℚ) ≤ value ratio * (10 : ℤ) := by
    push_cast
    linarith
  have productHigh : value ratio * (10 : ℤ) ≤ ((2 ^ 44 : ℤ) : ℚ) := by
    push_cast
    linarith
  have productBound : |value ratio * (10 : ℤ)| ≤ 2 ^ 100 := by
    push_cast at productLow productHigh ⊢
    exact abs_le.mpr ⟨by linarith, by linarith⟩
  have product := (isRatio.denotes.mul denotes_ten productBound).between productLow productHigh
    (by norm_num) (by norm_num)
  have productLeast := product.low_le
  have productMost := product.le_high
  push_cast at productLeast productMost
  have sumBound : |(1 : ℤ) + value (ratio * 10.0)| ≤ 2 ^ 100 := by
    push_cast
    exact abs_le.mpr ⟨by linarith, by linarith⟩
  have sum := denotes_one.add product.denotes sumBound
  have sumLeast := sum.le_value (representable_intCast (by norm_num : |(161 : ℤ)| ≤ 2 ^ 53))
    (by push_cast; linarith)
  obtain ⟨count, isCount, near⟩ := exists_denotes_round sum.denotes_value
  have castCount : ((limit : ℤ) : ℚ) < count := by
    have castFew : (limit : ℚ) ≤ 128 := by exact_mod_cast few
    push_cast at sumLeast ⊢
    linarith [(abs_le.mp near).1]
  rw [decide_eq_true_iff, (denotes_ofNat (by omega)).lt_iff isCount]
  exact castCount

/-- A spacing in which a step stays, or is divided by two or five. -/
structure IsPartOf (whole part : Spacing) : Prop where
  step : part.step = whole.step ∨ part.step = whole.step / 2.0 ∨ part.step = whole.step / 5.0
  grain : part.grain = whole.grain

/-- The search is over by the round in which a tenth gives too many ticks. -/
theorem exists_refine_eq (rounds : Nat) {invariant : Nat → Spacing → Prop}
    (next : ∀ round < rounds, ∀ spacing, invariant round spacing →
      invariant (round + 1) ⟨spacing.step / 10.0, spacing.grain / 10.0⟩)
    (ends : ∀ spacing, invariant rounds spacing →
      tooMany start stop limit spacing.step 10.0 = true) (fuel : Nat) :
    ∀ round spacing, round ≤ rounds → rounds < fuel + round → invariant round spacing →
      ∃ reached found, (∃ last ≤ rounds, invariant last reached) ∧ IsPartOf reached found ∧
        refine start stop limit fuel spacing = some found := by
  induction fuel with
  | zero =>
      intro round spacing few enough
      omega
  | succ fuel induction =>
      intro round spacing few enough holds
      rw [refine]
      rcases divide_cases start stop limit spacing.step with
        ⟨part, isPart, divided⟩ | ⟨fits, divided⟩
      · rw [divided]
        exact ⟨spacing, ⟨part, spacing.grain⟩, ⟨round, few, holds⟩, ⟨isPart, rfl⟩, rfl⟩
      · rw [divided]
        have before : round < rounds := by
          refine lt_of_le_of_ne few ?_
          rintro rfl
          rw [ends spacing holds] at fits
          contradiction
        exact induction (round + 1) _ before (by omega) (next round before spacing holds)

end Rounds

section Levels

variable {number : Float} {length : ℚ} {level limit : Nat} {power : ℤ} {spacing found : Spacing}

/-- The step after some rounds, and its grain, in proportion to the length of the axis. -/
structure IsLevel (length : ℚ) (level : Nat) (spacing : Spacing) : Prop where
  step : Between (length / 12 ^ (level + 1)) (12 * length / 9 ^ level) spacing.step
  grain : Between (length / 12 ^ (level + 2)) (12 * length / 9 ^ level) spacing.grain

theorem normal_of_le (long : 1 ≤ length) (few : level ≤ 5) :
    1 / 2 ^ 100 ≤ length / 12 ^ level := by
  have bound : (12 : ℚ) ^ level ≤ 12 ^ 5 := pow_le_pow_right₀ (by norm_num) few
  have least : (1 : ℚ) / 2 ^ 100 ≤ 1 / 12 ^ 5 := by norm_num
  exact least.trans (div_le_div₀ (by linarith) long (by positivity) bound)

theorem tenth_of_between {low high : ℚ} (between : Between low high number)
    (normal : 1 / 2 ^ 100 ≤ low) : Between (low / 12) (high / 9) (number / 10.0) := by
  have positive : 0 < low := normal.trans_lt' (by norm_num)
  have ordered := between.low_le.trans between.le_high
  apply (between.div denotes_ten (by decide) le_rfl normal).mono <;> push_cast <;> linarith

theorem IsLevel.next (isLevel : IsLevel length level spacing) (long : 1 ≤ length)
    (few : level ≤ 3) : IsLevel length (level + 1) ⟨spacing.step / 10.0, spacing.grain / 10.0⟩ := by
  have low (power : Nat) : length / 12 ^ power / 12 = length / 12 ^ (power + 1) := by
    rw [div_div, ← pow_succ]
  have high : 12 * length / 9 ^ level / 9 = 12 * length / 9 ^ (level + 1) := by
    rw [div_div, ← pow_succ]
  constructor
  · rw [← low, ← high]
    exact tenth_of_between isLevel.step (normal_of_le long (by omega))
  · rw [← low, ← high]
    exact tenth_of_between isLevel.grain (normal_of_le long (by omega))

/-- A step and a grain that are comparable to the length of the axis. -/
structure IsComparable (length : ℚ) (spacing : Spacing) : Prop where
  step : Between (length / 2 ^ 18) (12 * length) spacing.step
  grain : Between (length / 2 ^ 18) (12 * length) spacing.grain

theorem IsLevel.isComparable (isLevel : IsLevel length level spacing) (long : 1 ≤ length)
    (few : level ≤ 3) (isPart : IsPartOf spacing found) : IsComparable length found := by
  have low {places : Nat} (few : places ≤ 5) : length / 2 ^ 18 ≤ length / 12 ^ places := by
    have bound : (12 : ℚ) ^ places ≤ 12 ^ 5 := pow_le_pow_right₀ (by norm_num) few
    exact div_le_div_of_nonneg_left (by linarith) (by positivity) (bound.trans (by norm_num))
  have high : 12 * length / 9 ^ level ≤ 12 * length :=
    div_le_self (by linarith) (one_le_pow₀ (by norm_num))
  have part {parts : ℤ} {division : Float} (isDivision : Denotes division parts)
      (several : 2 ≤ parts) (few : parts ≤ 5) :
      Between (length / 12 ^ (level + 2)) (12 * length / 9 ^ level) (spacing.step / division) := by
    have castSeveral : (2 : ℚ) ≤ parts := by exact_mod_cast several
    have castFew : (parts : ℚ) ≤ 5 := by exact_mod_cast few
    have positive : 0 < length / 12 ^ (level + 1) := by positivity
    have ordered := isLevel.step.low_le.trans isLevel.step.le_high
    have twelfth : length / 12 ^ (level + 2) = length / 12 ^ (level + 1) / 12 := by
      rw [div_div, ← pow_succ]
    have divided := isLevel.step.div isDivision (by omega) (by omega) (normal_of_le long (by omega))
    rw [twelfth]
    generalize length / 12 ^ (level + 1) = least at *
    generalize 12 * length / 9 ^ level = most at *
    have fifth : least / 5 ≤ least / parts :=
      div_le_div_of_nonneg_left positive.le (by linarith) castFew
    have half : most / parts ≤ most / 2 :=
      div_le_div_of_nonneg_left (positive.le.trans ordered) (by norm_num) castSeveral
    exact divided.mono (by linarith) (by linarith)
  obtain ⟨isStep, isGrain⟩ := isPart
  refine ⟨?_, isGrain ▸ isLevel.grain.mono (low (by omega)) high⟩
  rcases isStep with same | half | fifth
  · rw [same]
    exact isLevel.step.mono (low (by omega)) high
  · rw [half]
    exact (part denotes_two (by decide) (by decide)).mono (low (by omega)) high
  · rw [fifth]
    exact (part denotes_five (by decide) (by decide)).mono (low (by omega)) high

/-- The spacing that the search starts from is on level zero. -/
theorem isLevel_coarse (hasScale : HasScale number length power)
    (isPower : Between (10 ^ power * (1 - 1 / 2 ^ 40)) (10 ^ power * (1 + 1 / 2 ^ 40))
      (powerOfTen power)) (long : 1 ≤ length)
    (fits : Float.ofNat limit < 1.0 + floor (number / powerOfTen power) →
      10 ^ power * 11 < rangeEnd) : IsLevel length 0 (coarse number limit) := by
  have low := hasScale.low
  have high := hasScale.high
  have unit : (0 : ℚ) < 10 ^ power := by positivity
  rw [zpow_add_one₀ (by norm_num)] at high
  have tenth := isPower.div denotes_ten (by decide) le_rfl (by linarith)
  simp only [coarse, hasScale.scale_eq]
  split
  next reaches =>
    have inRange := fits reaches
    refine ⟨?_, ?_⟩
    · exact (isPower.mul denotes_ten (by decide) (by linarith) (by push_cast; linarith)).mono
        (by push_cast; linarith) (by push_cast; linarith)
    · exact (tenth.mul denotes_ten (by decide) (by push_cast; linarith)
        (by push_cast; linarith)).mono (by push_cast; linarith) (by push_cast; linarith)
  next =>
    refine ⟨isPower.mono (by linarith) (by linarith), tenth.mono ?_ ?_⟩ <;> push_cast <;> linarith

/-- A search from level zero on finds a step if a tenth of a small one gives too many ticks. -/
theorem exists_spacing_isComparable {start stop : Float}
    (isLevel : IsLevel length 0 (coarse (stop - start) limit)) (long : 1 ≤ length)
    (ends : ∀ step, Between (length / 12 ^ 4) (length / 60) step →
      tooMany start stop limit step 10.0 = true) :
    ∃ found, Axis.spacing start stop limit = some found ∧ IsComparable length found := by
  obtain ⟨fuel, isSearch⟩ := exists_spacing_eq start stop limit
  obtain ⟨reached, found, ⟨last, few, isReached⟩, isPart, isFound⟩ :=
    exists_refine_eq 3 (fun _ few _ isLevel => isLevel.next long (by omega))
      (fun spacing isLast => ends _ (isLast.step.mono le_rfl (by linarith))) (fuel + 5) 0 _
      (by decide) (by omega) isLevel
  exact ⟨found, isSearch.trans isFound, isReached.isComparable long few isPart⟩

end Levels

end Axis
end ThroughputCharts
