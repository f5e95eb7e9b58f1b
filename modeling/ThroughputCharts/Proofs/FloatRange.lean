import ThroughputCharts.Proofs.FloatValue

/-!
# The range of binary64 arithmetic

The result of an operation on finite numbers is finite if its exact value is below the end of the
range, which is halfway between the greatest finite number and the next power of two, and infinite
from there on.
-/

namespace ThroughputCharts

namespace Binary64

open Float.Model UnpackedFloat

/-- The least number that is too large to be rounded to a finite one. -/
def rangeEnd : ℚ := 2 ^ (1024 : Int) - 2 ^ (970 : Int)

theorem rangeEnd_eq : rangeEnd = (2 ^ 53 - 1 / 2) * 2 ^ (971 : Int) := by
  have power : (2 : ℚ) ^ (1024 : Int) = 2 ^ (53 : Int) * 2 ^ (971 : Int) := by
    rw [← zpow_add₀ two_ne_zero]
    rfl
  have half : (2 : ℚ) ^ (971 : Int) = 2 ^ (970 : Int) * 2 := zpow_add_one₀ two_ne_zero 970
  rw [rangeEnd, power, half]
  generalize (2 : ℚ) ^ (970 : Int) = unit
  norm_num
  ring

section Shifting

variable {extended : ExtendedMantissa} {number : ℚ}

/-- A number is in the unit from a mantissa on, and the round bit tells in which half of it.  Where the
sticky bit is not set, it is at the beginning of that half. -/
structure Locates (extended : ExtendedMantissa) (number : ℚ) : Prop where
  le : extended.mantissa ≤ number
  lt : number < extended.mantissa + 1
  roundBit_iff : extended.roundBit = true ↔ extended.mantissa + 1 / 2 ≤ number
  notSticky : extended.stickyBit = false →
    number = extended.mantissa + if extended.roundBit then 1 / 2 else 0

theorem Locates.shiftRightOne (located : Locates extended number) :
    Locates extended.shiftRightOne (number / 2) := by
  have low := located.le
  have high := located.lt
  have whole : (extended.roundBit || extended.stickyBit) = false → number = extended.mantissa := by
    intro noBits
    obtain ⟨noRound, noSticky⟩ := Bool.or_eq_false_iff.mp noBits
    simpa [noRound] using located.notSticky noSticky
  simp only [ExtendedMantissa.shiftRightOne]
  obtain ⟨half, even | odd⟩ := Nat.even_or_odd' extended.mantissa
  · rw [even] at low high
    push_cast at low high
    constructor
    · rw [even, Nat.mul_div_cancel_left half two_pos]
      linarith
    · rw [even, Nat.mul_div_cancel_left half two_pos]
      linarith
    · rw [even, Nat.mul_div_cancel_left half two_pos, Nat.mul_mod_right]
      simp only [bne_self_eq_false, Bool.false_eq_true, false_iff, not_le]
      linarith
    · intro noBits
      rw [whole noBits, even, Nat.mul_div_cancel_left half two_pos, Nat.mul_mod_right]
      push_cast
      simp
  · have halved : (2 * half + 1) / 2 = half := by omega
    have remainder : (2 * half + 1) % 2 = 1 := by omega
    rw [odd] at low high
    push_cast at low high
    constructor
    · rw [odd, halved]
      linarith
    · rw [odd, halved]
      linarith
    · rw [odd, halved, remainder]
      simp only [bne_iff_ne, ne_eq, one_ne_zero, not_false_eq_true, true_iff]
      linarith
    · intro noBits
      rw [whole noBits, odd, halved, remainder]
      push_cast
      simp only [if_true]
      ring

theorem Locates.shiftRight (located : Locates extended number) (count : Nat) :
    Locates (extended >>> count) (number / 2 ^ count) := by
  induction count with
  | zero =>
      rw [pow_zero, div_one]
      exact located
  | succ count induction =>
      rw [pow_succ, ← div_div]
      exact induction.shiftRightOne

theorem locates_exact (mantissa : Nat) :
    Locates (.ofMantissaAndAccuracy mantissa .exact) mantissa := by
  refine ⟨le_rfl, lt_add_one _, ?_, ?_⟩
  · simp [ExtendedMantissa.ofMantissaAndAccuracy]
  · simp [ExtendedMantissa.ofMantissaAndAccuracy]

theorem mantissa_ofMantissaAndAccuracy (mantissa : Nat) (accuracy : Accuracy) :
    (ExtendedMantissa.ofMantissaAndAccuracy mantissa accuracy).mantissa = mantissa := by
  unfold ExtendedMantissa.ofMantissaAndAccuracy
  split <;> rfl

/-- The round bit of a fraction is set from one half on. -/
theorem roundBit_accuracyOfFraction (mantissa : Nat) {numerator denominator : Nat}
    (proper : numerator < denominator) :
    (ExtendedMantissa.ofMantissaAndAccuracy mantissa
      (accuracyOfFraction numerator denominator)).roundBit = true ↔
        denominator ≤ 2 * numerator := by
  unfold accuracyOfFraction
  split
  next isZero =>
    simp only [ExtendedMantissa.ofMantissaAndAccuracy, Bool.false_eq_true, false_iff]
    omega
  next =>
    rcases compared : compare (2 * numerator) denominator with _ | _ | _
    · simp only [ExtendedMantissa.ofMantissaAndAccuracy, Bool.false_eq_true, false_iff]
      exact Nat.not_le.mpr (Nat.compare_eq_lt.mp compared)
    · simp only [ExtendedMantissa.ofMantissaAndAccuracy, true_iff]
      exact (Nat.compare_eq_eq.mp compared).ge
    · simp only [ExtendedMantissa.ofMantissaAndAccuracy, true_iff]
      exact (Nat.compare_eq_gt.mp compared).le

/-- The sticky bit of a fraction is missing just for nothing and for one half. -/
theorem stickyBit_accuracyOfFraction (mantissa : Nat) {numerator denominator : Nat}
    (noSticky : (ExtendedMantissa.ofMantissaAndAccuracy mantissa
      (accuracyOfFraction numerator denominator)).stickyBit = false) :
    numerator = 0 ∨ 2 * numerator = denominator := by
  unfold accuracyOfFraction at noSticky
  split at noSticky
  next isZero => exact .inl isZero
  next =>
    right
    rcases compared : compare (2 * numerator) denominator with _ | _ | _
    · simp [compared, ExtendedMantissa.ofMantissaAndAccuracy] at noSticky
    · exact Nat.compare_eq_eq.mp compared
    · simp [compared, ExtendedMantissa.ofMantissaAndAccuracy] at noSticky

theorem locates_accuracyOfFraction (mantissa : Nat) {numerator denominator : Nat}
    (proper : numerator < denominator) :
    Locates (.ofMantissaAndAccuracy mantissa (accuracyOfFraction numerator denominator))
      (mantissa + numerator / denominator) := by
  have positive : (0 : ℚ) < denominator := by exact_mod_cast Nat.zero_lt_of_lt proper
  have nonneg : (0 : ℚ) ≤ numerator / denominator := by positivity
  have belowOne : (numerator / denominator : ℚ) < 1 := by
    rw [div_lt_one positive]
    exact_mod_cast proper
  have half : (1 / 2 : ℚ) ≤ numerator / denominator ↔ denominator ≤ 2 * numerator := by
    rw [le_div_iff₀ positive, one_div_mul_eq_div, div_le_iff₀ two_pos, mul_comm]
    exact_mod_cast Iff.rfl
  constructor
  · rw [mantissa_ofMantissaAndAccuracy]
    linarith
  · rw [mantissa_ofMantissaAndAccuracy]
    linarith
  · rw [mantissa_ofMantissaAndAccuracy, roundBit_accuracyOfFraction mantissa proper, ← half]
    constructor <;> intro bound <;> linarith
  · intro noSticky
    rw [mantissa_ofMantissaAndAccuracy]
    simp only [roundBit_accuracyOfFraction mantissa proper]
    congr 1
    rcases stickyBit_accuracyOfFraction mantissa noSticky with isZero | isHalf
    · rw [if_neg (by omega), isZero, Nat.cast_zero, zero_div]
    · rw [if_pos isHalf.ge, div_eq_iff positive.ne', ← isHalf]
      push_cast
      ring

theorem roundedMantissa_bounds (extended : ExtendedMantissa) :
    extended.mantissa ≤ extended.roundedMantissa ∧
      extended.roundedMantissa ≤ extended.mantissa + 1 := by
  obtain ⟨mantissa, roundBit, stickyBit⟩ := extended
  cases roundBit <;> cases stickyBit <;>
    simp only [ExtendedMantissa.roundedMantissa, ExtendedMantissa.accuracy,
      Accuracy.roundToNearestEven] <;>
    omega

theorem roundedMantissa_of_odd (odd : extended.mantissa % 2 = 1) :
    extended.roundedMantissa = extended.mantissa + if extended.roundBit then 1 else 0 := by
  obtain ⟨mantissa, roundBit, stickyBit⟩ := extended
  cases roundBit <;> cases stickyBit <;>
    simp_all [ExtendedMantissa.roundedMantissa, ExtendedMantissa.accuracy,
      Accuracy.roundToNearestEven]

theorem Locates.mantissa_lt (located : Locates extended number) {bound : Nat}
    (below : number < bound) : extended.mantissa < bound := by
  exact_mod_cast located.le.trans_lt below

/-- A mantissa of 53 places is rounded up to one more only from half a unit below that. -/
theorem Locates.roundedMantissa_eq_iff (located : Locates extended number)
    (small : number < (2 ^ 53 : Nat)) :
    extended.roundedMantissa = 2 ^ 53 ↔ 2 ^ 53 - 1 / 2 ≤ number := by
  have below := located.mantissa_lt small
  have bounds := roundedMantissa_bounds extended
  by_cases greatest : extended.mantissa = 2 ^ 53 - 1
  · have cast : (extended.mantissa : ℚ) + 1 / 2 = 2 ^ 53 - 1 / 2 := by
      rw [greatest]
      norm_num
    rw [roundedMantissa_of_odd (by omega), ← cast, ← located.roundBit_iff]
    split
    next up => exact iff_of_true (by omega) up
    next down => exact iff_of_false (by omega) down
  · refine iff_of_false (by omega) ?_
    have cast : (extended.mantissa : ℚ) + 2 ≤ 2 ^ 53 := by
      have smaller : extended.mantissa + 2 ≤ 2 ^ 53 := by omega
      exact_mod_cast smaller
    have high := located.lt
    linarith

end Shifting

section Rounding

variable {mantissa : Nat} {exponent : Int} {accuracy : Accuracy} {number : ℚ}

/-- The exponent of a result before its mantissa is rounded. -/
def target (mantissa : Nat) (exponent : Int) : Int :=
  Format.binary64.targetExponent (totalExponent mantissa exponent)

theorem target_eq (mantissa : Nat) (exponent : Int) :
    target mantissa exponent = max (mantissa.log2 + exponent - 52) leastExponent := by
  have least : Format.binary64.minExponent = leastExponent := rfl
  have places : (Format.binary64.mantissaBits : Int) = 53 := rfl
  rw [target, Format.targetExponent, totalExponent, least, places]
  congr 1
  omega

/-- The target exponent is that of the last of 53 places. -/
theorem isUnitExponent_target
    (located : Locates (.ofMantissaAndAccuracy mantissa accuracy) number)
    (low : exponent ≤ target mantissa exponent) :
    IsUnitExponent (target mantissa exponent) (number * 2 ^ exponent) := by
  have atLeast := located.le
  have below := located.lt
  rw [mantissa_ofMantissaAndAccuracy] at atLeast below
  rw [target_eq] at low ⊢
  refine ⟨le_max_right _ _, ?_, ?_⟩
  · have places : (mantissa : ℚ) + 1 ≤ 2 ^ (mantissa.log2 + 1) := by
      exact_mod_cast Nat.succ_le_of_lt Nat.lt_log2_self
    calc number * 2 ^ exponent
        < 2 ^ (mantissa.log2 + 1) * 2 ^ exponent :=
          mul_lt_mul_of_pos_right (below.trans_le places) (by positivity)
      _ = 2 ^ (mantissa.log2 + 1 + exponent : Int) := by
          rw [zpow_add₀ two_ne_zero, ← Nat.cast_succ, zpow_natCast]
      _ ≤ 2 ^ (53 + max (mantissa.log2 + exponent - 52) leastExponent) :=
          zpow_le_zpow_right₀ one_le_two (by omega)
  · rcases le_or_gt (mantissa.log2 + exponent - 52) leastExponent with isLeast | normal
    · exact .inl (max_eq_right isLeast)
    · right
      rw [max_eq_left normal.le] at low ⊢
      -- A mantissa of zero would have to be moved to the left.
      have positive : 0 < mantissa := by
        apply Nat.pos_of_ne_zero
        rintro rfl
        simp only [Nat.log2_zero] at low
        omega
      calc (2 : ℚ) ^ (52 + (mantissa.log2 + exponent - 52))
          = 2 ^ (mantissa.log2 : Int) * 2 ^ exponent := by
            rw [← zpow_add₀ two_ne_zero]
            congr 1
            ring
        _ ≤ number * 2 ^ exponent :=
            mul_le_mul_of_nonneg_right ((two_pow_log2_le_cast positive).trans atLeast)
              (by positivity)

theorem IsUnitExponent.units_lt (isUnit : IsUnitExponent exponent number) :
    number / 2 ^ exponent < (2 ^ 53 : Nat) := by
  have limit := isUnit.lt
  rw [zpow_add₀ two_ne_zero, ← div_lt_iff₀ (by positivity)] at limit
  exact_mod_cast limit

theorem shiftRight_zero (extended : ExtendedMantissa) : extended >>> (0 : Nat) = extended :=
  rfl

/-- A mantissa of at most 53 places stays, and a carry into a further place moves the exponent. -/
theorem shiftToTargetExponent_rounded {rounded : Nat} (bound : rounded ≤ 2 ^ 53)
    (least : leastExponent ≤ exponent) :
    ((shiftToTargetExponent .binary64 rounded exponent .exact).1.mantissa,
        (shiftToTargetExponent .binary64 rounded exponent .exact).2) =
      if rounded = 2 ^ 53 then (2 ^ 52, exponent + 1) else (rounded, exponent) := by
  have shifted : shiftToTargetExponent .binary64 rounded exponent .exact =
      shiftToExponent rounded exponent .exact (target rounded exponent) := rfl
  rw [shifted, target_eq]
  split
  next carry =>
    have amount :
        (max ((rounded.log2 : Int) + exponent - 52) leastExponent - exponent).toNat = 1 := by
      have places : rounded.log2 = 53 := by rw [carry, Nat.log2_two_pow]
      omega
    simp only [shiftToExponent, amount]
    rw [carry]
    rfl
  next fits =>
    have amount :
        (max ((rounded.log2 : Int) + exponent - 52) leastExponent - exponent).toNat = 0 := by
      have places : rounded.log2 < 53 := by
        rcases Nat.eq_zero_or_pos rounded with rfl | positive
        · decide
        · exact (Nat.log2_lt positive.ne').mpr (by omega)
      omega
    simp only [shiftToExponent, amount, shiftRight_zero, mantissa_ofMantissaAndAccuracy]
    rw [Nat.cast_zero, add_zero]

/-- The first shift brings the number to the target exponent. -/
theorem exists_shiftToTargetExponent_eq
    (located : Locates (.ofMantissaAndAccuracy mantissa accuracy) number)
    (low : exponent ≤ target mantissa exponent) :
    ∃ extended, shiftToTargetExponent .binary64 mantissa exponent accuracy =
        (extended, target mantissa exponent) ∧
      Locates extended (number * 2 ^ exponent / 2 ^ target mantissa exponent) := by
  have shifted : shiftToTargetExponent .binary64 mantissa exponent accuracy =
      shiftToExponent mantissa exponent accuracy (target mantissa exponent) := rfl
  rw [shifted]
  generalize target mantissa exponent = goal at low ⊢
  have moved : number / 2 ^ (goal - exponent).toNat = number * 2 ^ exponent / 2 ^ goal := by
    rw [mul_div_assoc, ← zpow_sub₀ two_ne_zero, ← zpow_natCast, Int.toNat_of_nonneg (by omega),
      div_eq_mul_inv, ← zpow_neg, neg_sub]
  have reached : exponent + (goal - exponent).toNat = goal := by omega
  rw [shiftToExponent, reached, ← moved]
  exact ⟨_, rfl, located.shiftRight _⟩

/-- The number of a rounded mantissa; a carry into a further place moves the exponent. -/
def ofRounded (sign : UnpackedFloat.Sign) (rounded : Nat) (goal : Int) : UnpackedFloat :=
  if isZero : rounded = 0 then .zero sign
  else if rounded = 2 ^ 53 then .finite sign (2 ^ 52) (goal + 1) (by decide)
  else .finite sign rounded goal (Nat.pos_of_ne_zero isZero)

theorem isFinite_pack_ofRounded {sign : UnpackedFloat.Sign} {rounded : Nat} {goal : Int} :
    (Float.Model.pack (ofRounded sign rounded goal)).isFinite = true ↔
      rounded = 0 ∨ (if rounded = 2 ^ 53 then goal + 1 else goal) ≤ 971 := by
  unfold ofRounded
  split
  next isZero => exact iff_of_true (isFinite_pack_zero sign) (.inl isZero)
  next notZero => split <;> simp [notZero, isFinite_pack_finite]

theorem roundWithAccuracy_eq (sign : UnpackedFloat.Sign)
    (located : Locates (.ofMantissaAndAccuracy mantissa accuracy) number)
    (low : exponent ≤ target mantissa exponent) :
    ∃ extended : ExtendedMantissa,
      Locates extended (number * 2 ^ exponent / 2 ^ target mantissa exponent) ∧
      roundWithAccuracy .binary64 sign mantissa exponent accuracy =
        ofRounded sign extended.roundedMantissa (target mantissa exponent) := by
  have isUnit := isUnitExponent_target located low
  obtain ⟨extended, first, shifted⟩ := exists_shiftToTargetExponent_eq located low
  refine ⟨extended, shifted, ?_⟩
  have bound := shifted.mantissa_lt isUnit.units_lt
  have rounded : extended.roundedMantissa ≤ 2 ^ 53 := by
    have := (roundedMantissa_bounds extended).2
    omega
  have second := shiftToTargetExponent_rounded rounded isUnit.least_le
  have unfolded : roundWithAccuracy .binary64 sign mantissa exponent accuracy =
      let last := shiftToTargetExponent .binary64
        (shiftToTargetExponent .binary64 mantissa exponent accuracy).1.roundedMantissa
        (shiftToTargetExponent .binary64 mantissa exponent accuracy).2 .exact
      if isZero : last.1.mantissa = 0 then .zero sign
      else .finite sign last.1.mantissa last.2 (Nat.pos_of_ne_zero isZero) := rfl
  rw [unfolded, first, ofRounded]
  dsimp only
  generalize shiftToTargetExponent .binary64 extended.roundedMantissa (target mantissa exponent)
    .exact = last at second ⊢
  obtain ⟨⟨lastMantissa, roundBit, stickyBit⟩, lastExponent⟩ := last
  dsimp only at second ⊢
  split at second
  next carry =>
    obtain ⟨rfl, rfl⟩ := Prod.mk.inj second
    rw [dif_neg (by decide), dif_neg (by omega), if_pos carry]
  next fits =>
    obtain ⟨rfl, rfl⟩ := Prod.mk.inj second
    simp only [if_neg fits]

theorem Locates.pow_le_mantissa {extended : ExtendedMantissa} {goal : Int}
    (located : Locates extended (number / 2 ^ goal)) (normal : 2 ^ (52 + goal) ≤ number) :
    2 ^ 52 ≤ extended.mantissa := by
  rw [zpow_add₀ two_ne_zero, ← le_div_iff₀ (by positivity)] at normal
  have above : (2 ^ 52 : Nat) < (extended.mantissa + 1 : ℚ) := by
    exact_mod_cast normal.trans_lt located.lt
  have : 2 ^ 52 < extended.mantissa + 1 := by exact_mod_cast above
  omega

/-- A rounded number is finite just when it is below the end of the range. -/
theorem isFinite_roundWithAccuracy_iff (sign : UnpackedFloat.Sign)
    (located : Locates (.ofMantissaAndAccuracy mantissa accuracy) number)
    (low : exponent ≤ target mantissa exponent) :
    (Float.Model.pack (roundWithAccuracy .binary64 sign mantissa exponent accuracy)).isFinite = true ↔
      number * 2 ^ exponent < rangeEnd := by
  have isUnit := isUnitExponent_target located low
  obtain ⟨extended, shifted, rounded⟩ := roundWithAccuracy_eq sign located low
  rw [rounded]
  generalize number * 2 ^ exponent = scaled at isUnit shifted ⊢
  generalize target mantissa exponent = goal at isUnit shifted ⊢
  have bounds := roundedMantissa_bounds extended
  rw [isFinite_pack_ofRounded]
  rcases lt_trichotomy goal 971 with small | rfl | large
  · refine iff_of_true (.inr (by split <;> omega)) ?_
    calc scaled < 2 ^ (53 + goal) := isUnit.lt
      _ ≤ 2 ^ (52 + 971 : Int) := zpow_le_zpow_right₀ one_le_two (by omega)
      _ = 2 ^ (52 : Int) * 2 ^ (971 : Int) := zpow_add₀ two_ne_zero _ _
      _ ≤ rangeEnd := by
        rw [rangeEnd_eq]
        exact mul_le_mul_of_nonneg_right (by norm_num) (by positivity)
  · have normal := isUnit.le.resolve_left (by decide)
    have places := shifted.pow_le_mantissa normal
    have carry := shifted.roundedMantissa_eq_iff isUnit.units_lt
    have atEnd : (2 : ℚ) ^ 53 - 1 / 2 ≤ scaled / 2 ^ (971 : Int) ↔ rangeEnd ≤ scaled := by
      rw [le_div_iff₀ (by positivity), rangeEnd_eq]
    rw [← not_le, ← atEnd, ← carry]
    split <;> omega
  · have normal := isUnit.le.resolve_left (by rw [leastExponent]; omega)
    have places := shifted.pow_le_mantissa normal
    refine iff_of_false ?_ (not_lt.mpr ?_)
    · split <;> omega
    · calc rangeEnd ≤ 2 ^ (1024 : Int) := sub_le_self _ (by positivity)
        _ ≤ 2 ^ (52 + goal) := zpow_le_zpow_right₀ one_le_two (by omega)
        _ ≤ scaled := normal

end Rounding

end Binary64

end ThroughputCharts
