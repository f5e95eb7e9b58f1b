import ThroughputCharts.Proofs.FloatRange

/-!
# Operations that stay finite

A sum or a product of finite numbers is finite just when its exact value is below the end of the
range.  What is not finite stays so under further additions, and when it is divided by a count.
-/

namespace ThroughputCharts

namespace Binary64

open Float.Model UnpackedFloat

theorem rangeEnd_pos : 0 < rangeEnd := by
  rw [rangeEnd_eq]
  exact mul_pos (by norm_num) (by positivity)

section Shifting

variable {mantissa : Nat} {exponent : Int}

theorem cast_shiftLeft_mul_zpow (mantissa count : Nat) (exponent : Int) :
    ((mantissa <<< count : Nat) : ℚ) * 2 ^ (exponent - count) = mantissa * 2 ^ exponent := by
  rw [Nat.shiftLeft_eq, zpow_sub₀ two_ne_zero, zpow_natCast]
  push_cast
  field_simp

theorem target_shiftLeft (positive : 0 < mantissa) (count : Nat) :
    target (mantissa <<< count) (exponent - count) = target mantissa exponent := by
  have log : (mantissa <<< count).log2 = mantissa.log2 + count := by
    have nonzero := positive.ne'
    rw [Nat.shiftLeft_eq, Nat.log2_eq_iff (by positivity), pow_add, Nat.add_right_comm, pow_add]
    exact ⟨Nat.mul_le_mul_right _ (Nat.log2_self_le nonzero),
      Nat.mul_lt_mul_of_pos_right Nat.lt_log2_self (Nat.two_pow_pos count)⟩
  rw [target_eq, target_eq, log]
  congr 1
  push_cast
  ring

/-- Rounding moves a mantissa to the left first, if it needs more places. -/
theorem round_eq (sign : Sign) (positive : 0 < mantissa) (exponent : Int) :
    ∃ count : Nat,
      exponent - count ≤ target (mantissa <<< count) (exponent - count) ∧
      UnpackedFloat.round .binary64 sign mantissa exponent =
        roundWithAccuracy .binary64 sign (mantissa <<< count) (exponent - count) .exact := by
  refine ⟨(exponent - target mantissa exponent).toNat, ?_, rfl⟩
  rw [target_shiftLeft positive]
  omega

theorem isFinite_round_iff (sign : Sign) (positive : 0 < mantissa) :
    (Float.Model.pack (UnpackedFloat.round .binary64 sign mantissa exponent)).isFinite = true ↔
      mantissa * 2 ^ exponent < rangeEnd := by
  obtain ⟨count, low, rounded⟩ := round_eq sign positive exponent
  rw [rounded, ← cast_shiftLeft_mul_zpow mantissa count]
  exact isFinite_roundWithAccuracy_iff sign (locates_exact _) low

theorem isFinite_normalize_iff (mantissa : Int) (sign : Sign) :
    (Float.Model.pack (normalize .binary64 mantissa exponent sign)).isFinite = true ↔
      |(mantissa : ℚ) * 2 ^ exponent| < rangeEnd := by
  rw [abs_mul, abs_of_pos (zpow_pos two_pos exponent : (0 : ℚ) < 2 ^ exponent)]
  unfold UnpackedFloat.normalize
  rcases compared : compare mantissa 0 with _ | _ | _
  · have negative := Int.compare_eq_lt.mp compared
    have cast : |(mantissa : ℚ)| = (-mantissa).toNat := by
      rw [← Int.cast_abs, abs_of_neg negative, ← Int.cast_natCast, Int.toNat_of_nonneg (by omega)]
    rw [cast]
    exact isFinite_round_iff _ (by omega)
  · rw [Int.compare_eq_eq.mp compared, Int.cast_zero, abs_zero, zero_mul]
    exact iff_of_true (isFinite_pack_zero sign) rangeEnd_pos
  · have positive := Int.compare_eq_gt.mp compared
    have cast : |(mantissa : ℚ)| = mantissa.toNat := by
      rw [← Int.cast_abs, abs_of_pos positive, ← Int.cast_natCast, Int.toNat_of_nonneg (by omega)]
    rw [cast]
    exact isFinite_round_iff _ (by omega)

end Shifting

section Operations

variable {first second : Float}

theorem abs_apply (sign : Sign) (mantissa : Nat) :
    |((sign.apply mantissa : Int) : ℚ)| = mantissa := by
  cases sign <;> simp [Sign.apply]

theorem Magnitude.Canonical.toRat_lt_rangeEnd {magnitude : Magnitude}
    (canonical : magnitude.Canonical) : magnitude.toRat < rangeEnd := by
  have places : (magnitude.significand : ℚ) ≤ 2 ^ 53 - 1 := by
    have bound : (magnitude.significand : ℚ) + 1 ≤ 2 ^ 53 := by
      exact_mod_cast canonical.significand_lt
    linarith
  have power : (2 : ℚ) ^ magnitude.exponent ≤ 2 ^ (971 : Int) :=
    zpow_le_zpow_right₀ one_le_two canonical.exponent_le
  calc magnitude.toRat
      ≤ (2 ^ 53 - 1) * 2 ^ (971 : Int) := mul_le_mul places power (by positivity) (by norm_num)
    _ < rangeEnd := by
        rw [rangeEnd_eq]
        exact mul_lt_mul_of_pos_right (by norm_num) (by positivity)

theorem abs_value_lt_rangeEnd (finite : first.isFinite = true) : |value first| < rangeEnd := by
  rcases unpack_cases finite with ⟨isZero, -⟩ | ⟨sign, mantissa, exponent, -, canonical, isValue, -⟩
  · rw [isZero, abs_zero]
    exact rangeEnd_pos
  · rw [isValue, abs_mul, abs_apply, abs_of_pos (zpow_pos two_pos exponent : (0 : ℚ) < 2 ^ exponent)]
    exact canonical.toRat_lt_rangeEnd

theorem isFinite_pack_unpack (finite : first.isFinite = true) :
    (Float.Model.pack first.toModel.unpack).isFinite = true := by
  rcases unpack_cases finite with
    ⟨-, sign, unpacked⟩ | ⟨sign, mantissa, exponent, positive, canonical, -, unpacked⟩
  · rw [unpacked]
    exact isFinite_pack_zero sign
  · rw [unpacked, isFinite_pack_finite]
    exact canonical.exponent_le

theorem isNaN_of_isFinite (finite : first.isFinite = true) :
    first.isNaN = false := by
  have unfolded : first.isNaN = first.toModel.unpack.isNaN := rfl
  rcases unpack_cases finite with ⟨-, sign, unpacked⟩ | ⟨_, _, _, _, -, -, unpacked⟩ <;>
    rw [unfolded, unpacked] <;> rfl

theorem cast_apply_shiftLeft (sign : Sign) (mantissa : Nat) {exponent goal : Int}
    (lower : goal ≤ exponent) :
    ((sign.apply (mantissa <<< (exponent - goal).toNat : Nat) : Int) : ℚ) * 2 ^ goal =
      (sign.apply mantissa : Int) * 2 ^ exponent := by
  have reached : goal = exponent - (exponent - goal).toNat := by omega
  have shifted := cast_shiftLeft_mul_zpow mantissa (exponent - goal).toNat exponent
  rw [← reached] at shifted
  cases sign <;> simp only [Sign.apply, Int.cast_neg, Int.cast_natCast, neg_mul, shifted]

/-- A sum is finite just when its exact value is below the end of the range. -/
theorem isFinite_add_iff (finite : first.isFinite = true) (secondFinite : second.isFinite = true) :
    (first + second).isFinite = true ↔ |value first + value second| < rangeEnd := by
  have sum : (first + second).isFinite = (Float.Model.pack (UnpackedFloat.add .binary64
      first.toModel.unpack second.toModel.unpack)).isFinite := rfl
  have packed := isFinite_pack_unpack finite
  have secondPacked := isFinite_pack_unpack secondFinite
  have bound := abs_value_lt_rangeEnd finite
  have secondBound := abs_value_lt_rangeEnd secondFinite
  rw [sum]
  rcases unpack_cases finite with
    ⟨isZero, sign, unpacked⟩ | ⟨sign, mantissa, exponent, positive, -, isValue, unpacked⟩ <;>
  rcases unpack_cases secondFinite with
    ⟨secondIsZero, secondSign, secondUnpacked⟩ |
    ⟨secondSign, secondMantissa, secondExponent, secondPositive, -, secondIsValue, secondUnpacked⟩
  · rw [isZero, zero_add, unpacked, secondUnpacked, UnpackedFloat.add]
    refine iff_of_true ?_ secondBound
    split <;> exact isFinite_pack_zero _
  · rw [isZero, zero_add, unpacked]
    rw [secondUnpacked] at secondPacked ⊢
    exact iff_of_true secondPacked secondBound
  · rw [secondIsZero, add_zero, secondUnpacked]
    rw [unpacked] at packed ⊢
    exact iff_of_true packed bound
  · -- Both mantissas are moved to the smaller exponent before they are added.
    rw [isValue, secondIsValue, ← cast_apply_shiftLeft sign mantissa (min_le_left _ secondExponent),
      ← cast_apply_shiftLeft secondSign secondMantissa (min_le_right exponent _), ← add_mul,
      ← Int.cast_add, unpacked, secondUnpacked]
    exact isFinite_normalize_iff _ _

/-- The product of two significands has all places, unless both are those of the least exponent. -/
theorem add_le_target_mul {magnitude other : Magnitude} (canonical : magnitude.Canonical)
    (otherCanonical : other.Canonical) (positive : 0 < magnitude.significand)
    (otherPositive : 0 < other.significand) :
    magnitude.exponent + other.exponent ≤
      target (magnitude.significand * other.significand) (magnitude.exponent + other.exponent) := by
  have nonzero := (Nat.mul_pos positive otherPositive).ne'
  have enough (normal : 2 ^ 52 ≤ magnitude.significand * other.significand) :
      52 ≤ (magnitude.significand * other.significand).log2 := (Nat.le_log2 nonzero).mpr normal
  rw [target_eq]
  by_cases normal : 2 ^ 52 ≤ magnitude.significand
  · have := enough (normal.trans (Nat.le_mul_of_pos_right _ otherPositive))
    omega
  by_cases otherNormal : 2 ^ 52 ≤ other.significand
  · have := enough (otherNormal.trans (Nat.le_mul_of_pos_left _ positive))
    omega
  · rw [canonical.exponent_eq (not_le.mp normal), otherCanonical.exponent_eq (not_le.mp otherNormal)]
    exact le_max_of_le_right (by decide)

/-- A product is finite just when its exact value is below the end of the range. -/
theorem isFinite_mul_iff (finite : first.isFinite = true) (secondFinite : second.isFinite = true) :
    (first * second).isFinite = true ↔ |value first * value second| < rangeEnd := by
  have product : (first * second).isFinite = (Float.Model.pack (UnpackedFloat.mul .binary64
      first.toModel.unpack second.toModel.unpack)).isFinite := rfl
  rw [product]
  rcases unpack_cases finite with
    ⟨isZero, sign, unpacked⟩ | ⟨sign, mantissa, exponent, positive, canonical, isValue, unpacked⟩ <;>
  rcases unpack_cases secondFinite with
    ⟨secondIsZero, secondSign, secondUnpacked⟩ |
    ⟨secondSign, secondMantissa, secondExponent, secondPositive, secondCanonical, secondIsValue,
      secondUnpacked⟩
  · rw [isZero, zero_mul, abs_zero, unpacked, secondUnpacked]
    exact iff_of_true (isFinite_pack_zero _) rangeEnd_pos
  · rw [isZero, zero_mul, abs_zero, unpacked, secondUnpacked]
    exact iff_of_true (isFinite_pack_zero _) rangeEnd_pos
  · rw [secondIsZero, mul_zero, abs_zero, unpacked, secondUnpacked]
    exact iff_of_true (isFinite_pack_zero _) rangeEnd_pos
  · have product_eq : |value first * value second| =
        ((mantissa * secondMantissa : Nat) : ℚ) * 2 ^ (exponent + secondExponent) := by
      rw [isValue, secondIsValue, abs_mul, abs_mul, abs_mul, abs_apply, abs_apply, abs_zpow,
        abs_zpow, abs_two, zpow_add₀ two_ne_zero]
      push_cast
      ring
    have low := add_le_target_mul canonical secondCanonical positive secondPositive
    rw [product_eq, unpacked, secondUnpacked]
    exact isFinite_roundWithAccuracy_iff (sign * secondSign) (locates_exact _) low

/-- No addition brings a total back to the range. -/
theorem isFinite_add_eq_false (notFinite : first.isFinite = false) :
    (first + second).isFinite = false := by
  have unpacked : first.toModel.unpack.isFinite = false := notFinite
  apply isFinite_pack_of_isFinite_eq_false
  generalize first.toModel.unpack = unpackedFirst at unpacked
  generalize second.toModel.unpack = unpackedSecond
  cases unpackedFirst with
  | zero => contradiction
  | finite => contradiction
  | notANumber => rfl
  | infinity sign =>
      cases unpackedSecond with
      | infinity other => cases sign <;> cases other <;> rfl
      | notANumber => rfl
      | zero => rfl
      | finite => rfl

end Operations

section Counts

variable {mantissa : Nat} {exponent : Int} {number : ℚ}

/-- A positive number that is at least one, or infinity. -/
inductive AtLeastOne : UnpackedFloat → Prop
  | infinity : AtLeastOne (.infinity .positive)
  | finite {mantissa : Nat} {exponent : Int} {positive : 0 < mantissa}
      (atLeast : 1 ≤ (mantissa : ℚ) * 2 ^ exponent) :
      AtLeastOne (.finite .positive mantissa exponent positive)

theorem atLeastOne_unpack_pack {positive : 0 < mantissa} (low : 2 ^ 52 ≤ mantissa)
    (high : mantissa < 2 ^ 53) (least : -52 ≤ exponent) :
    AtLeastOne (Float.Model.pack (.finite .positive mantissa exponent positive)).unpack := by
  by_cases greatest : exponent ≤ 971
  · rw [unpack_pack_finite low high (least.trans' (by decide)) greatest]
    apply AtLeastOne.finite
    have places : (2 : ℚ) ^ 52 ≤ mantissa := by exact_mod_cast low
    calc (1 : ℚ) = 2 ^ 52 * 2 ^ (-52 : Int) := by norm_num
      _ ≤ mantissa * 2 ^ exponent :=
        mul_le_mul places (zpow_le_zpow_right₀ one_le_two least) (by positivity) (by positivity)
  · rw [pack_finite_of_lt (not_le.mp greatest)]
    exact .infinity

/-- Rounding does not bring a number from one on below one. -/
theorem atLeastOne_roundWithAccuracy
    (located : Locates (.ofMantissaAndAccuracy mantissa .exact) number)
    (low : exponent ≤ target mantissa exponent) (atLeast : 1 ≤ number * 2 ^ exponent) :
    AtLeastOne (Float.Model.pack
      (roundWithAccuracy .binary64 .positive mantissa exponent .exact)).unpack := by
  have isUnit := isUnitExponent_target located low
  obtain ⟨extended, shifted, rounded⟩ := roundWithAccuracy_eq .positive located low
  rw [rounded]
  generalize number * 2 ^ exponent = scaled at isUnit shifted atLeast ⊢
  generalize target mantissa exponent = goal at isUnit shifted ⊢
  have above : -52 ≤ goal := by
    have powers := (zpow_lt_zpow_iff_right₀ (one_lt_two (α := ℚ))).mp
      ((zpow_zero (2 : ℚ)).trans_le atLeast |>.trans_lt isUnit.lt)
    omega
  have normal := isUnit.le.resolve_left (by rw [leastExponent]; omega)
  have places := shifted.pow_le_mantissa normal
  have bounds := roundedMantissa_bounds extended
  have below := shifted.mantissa_lt isUnit.units_lt
  rw [ofRounded, dif_neg (by omega)]
  split
  · exact atLeastOne_unpack_pack le_rfl (by decide) (by omega)
  · exact atLeastOne_unpack_pack (by omega) (by omega) above

theorem atLeastOne_of_places (places : 2 ^ 52 ≤ mantissa)
    (atLeast : 1 ≤ (mantissa : ℚ) * 2 ^ exponent) :
    AtLeastOne (Float.Model.pack
      (roundWithAccuracy .binary64 .positive mantissa exponent .exact)).unpack := by
  apply atLeastOne_roundWithAccuracy (locates_exact mantissa) _ atLeast
  have log : 52 ≤ mantissa.log2 := (Nat.le_log2 (by omega)).mpr places
  rw [target_eq]
  omega

theorem atLeastOne_round (positive : 0 < mantissa) :
    AtLeastOne (Float.Model.pack (UnpackedFloat.round .binary64 .positive mantissa 0)).unpack := by
  obtain ⟨count, low, rounded⟩ := round_eq .positive positive 0
  rw [rounded]
  apply atLeastOne_roundWithAccuracy (locates_exact _) low
  rw [cast_shiftLeft_mul_zpow, zpow_zero, mul_one]
  exact_mod_cast positive

theorem atLeastOne_mul_one {unpacked : UnpackedFloat} (atLeastOne : AtLeastOne unpacked) :
    AtLeastOne (Float.Model.pack (UnpackedFloat.mul .binary64 unpacked
      (.finite .positive (2 ^ 52) (-52) (by decide)))).unpack := by
  cases atLeastOne with
  | infinity => exact .infinity
  | @finite mantissa exponent positive atLeast =>
      apply atLeastOne_of_places (Nat.le_mul_of_pos_left _ positive)
      calc (1 : ℚ) ≤ mantissa * 2 ^ exponent := atLeast
        _ = ((mantissa * 2 ^ 52 : Nat) : ℚ) * 2 ^ (exponent + -52) := by
          rw [zpow_add₀ two_ne_zero]
          push_cast
          norm_num
          ring

theorem atLeastOne_toFloat {count : UInt64} (positive : 0 < count.toNat) :
    AtLeastOne count.toFloat.toModel.unpack := by
  have unfolded : count.toFloat.toModel =
      Float.Model.pack (UnpackedFloat.normalize .binary64 (count.toNat : Int) 0 .positive) := rfl
  rw [unfolded, UnpackedFloat.normalize, Int.compare_eq_gt.mpr (by exact_mod_cast positive)]
  exact atLeastOne_round positive

theorem unpack_one : (Float.ofBits 0x3FF0000000000000).toModel.unpack =
    .finite .positive (2 ^ 52) (-52) (by decide) := by
  have isParts : parts (Float.ofBits 0x3FF0000000000000) = .finite false ⟨2 ^ 52, -52⟩ := by
    decide +kernel
  exact unpack_of_parts isParts

theorem atLeastOne_mul_ofBits {number : Float} (atLeast : AtLeastOne number.toModel.unpack) :
    AtLeastOne (number * Float.ofBits 0x3FF0000000000000).toModel.unpack := by
  have product : (number * Float.ofBits 0x3FF0000000000000).toModel =
      Float.Model.pack (UnpackedFloat.mul .binary64 number.toModel.unpack
        (Float.ofBits 0x3FF0000000000000).toModel.unpack) := rfl
  rw [product, unpack_one]
  exact atLeastOne_mul_one atLeast

theorem atLeastOne_ofScientific {count : Nat} (positive : 0 < count) :
    AtLeastOne (Float.Model.ofScientific count 0).unpack := by
  have scaled : Float.Model.ofScientific count 0 =
      Float.Model.pack
        (roundWithAccuracy .binary64 .positive ((count <<< 53) * 1) (-53 + 0) .exact) := by
    rw [Float.Model.ofScientific, UnpackedFloat.ofScientific, dif_neg positive.ne',
      if_neg (by decide), if_neg (not_lt.mpr (neg_nonpos.mpr (by positivity))), if_pos le_rfl]
    rfl
  rw [scaled]
  apply atLeastOne_of_places
  · rw [Nat.shiftLeft_eq]
    omega
  · have value := cast_shiftLeft_mul_zpow count 53 0
    rw [zpow_zero, mul_one] at value
    calc (1 : ℚ) ≤ count := by exact_mod_cast positive
      _ = (((count <<< 53) * 1 : Nat) : ℚ) * 2 ^ (-53 + 0 : Int) := by
        rw [mul_one]
        exact value.symm

theorem atLeastOne_ofNat {count : Nat} (positive : 0 < count) :
    AtLeastOne (Float.ofNat count).toModel.unpack := by
  have unfolded : Float.ofNat count = Float.ofScientific count false 0 := rfl
  rw [unfolded, Float.ofScientific]
  split
  next small =>
    have converted : count.toUInt64.toNat = count :=
      UInt64.toNat_ofNat_of_lt (small.1.trans (by decide))
    exact atLeastOne_mul_ofBits (atLeastOne_toFloat (by rwa [converted]))
  next => exact atLeastOne_ofScientific positive

/-- The quotient of two significands has all places, unless the exponent is the least one. -/
theorem le_target_div {dividend divisor shift : Nat} {dividendExponent divisorExponent goal : Int}
    (positive : 0 < dividend) (divisorPositive : 0 < divisor)
    (isShift : dividendExponent - divisorExponent - goal = shift)
    (goalLe : goal ≤ Format.binary64.targetExponent
      (totalExponent dividend dividendExponent - totalExponent divisor divisorExponent)) :
    goal ≤ target ((dividend <<< shift) / divisor) goal := by
  rw [target_eq]
  rcases le_or_gt goal leastExponent with least | normal
  · exact le_max_of_le_right least
  · have places : divisor.log2 + 53 ≤ dividend.log2 + shift := by
      have least : Format.binary64.minExponent = leastExponent := rfl
      have bits : (Format.binary64.mantissaBits : Int) = 53 := rfl
      rw [Format.targetExponent, totalExponent, totalExponent, least, bits] at goalLe
      omega
    have quotient : 2 ^ 52 ≤ (dividend <<< shift) / divisor := by
      rw [Nat.le_div_iff_mul_le divisorPositive, Nat.shiftLeft_eq]
      calc 2 ^ 52 * divisor
          ≤ 2 ^ 52 * 2 ^ (divisor.log2 + 1) := Nat.mul_le_mul_left _ Nat.lt_log2_self.le
        _ = 2 ^ (divisor.log2 + 53) := by
            rw [← pow_add]
            congr 1
            omega
        _ ≤ 2 ^ (dividend.log2 + shift) := Nat.pow_le_pow_right two_pos places
        _ = 2 ^ dividend.log2 * 2 ^ shift := pow_add _ _ _
        _ ≤ dividend * 2 ^ shift := Nat.mul_le_mul_right _ (Nat.log2_self_le positive.ne')
    have log : 52 ≤ ((dividend <<< shift) / divisor).log2 := (Nat.le_log2 (by omega)).mpr quotient
    omega

/-- The quotient of two mantissas, moved to a common exponent, with its remainder. -/
theorem cast_div_mul_zpow {dividend divisor shift : Nat} {dividendExponent divisorExponent goal : Int}
    (positive : 0 < divisor) (isShift : dividendExponent - divisorExponent - goal = shift) :
    (((dividend <<< shift) / divisor : Nat) + ((dividend <<< shift) % divisor : Nat) / divisor : ℚ) *
        2 ^ goal = dividend * 2 ^ dividendExponent / (divisor * 2 ^ divisorExponent) := by
  have castPositive : (0 : ℚ) < divisor := by exact_mod_cast positive
  have whole : (((dividend <<< shift) / divisor : Nat) : ℚ) +
      ((dividend <<< shift) % divisor : Nat) / divisor = (dividend <<< shift : Nat) / divisor := by
    rw [eq_div_iff castPositive.ne', add_mul, div_mul_cancel₀ _ castPositive.ne']
    exact_mod_cast Nat.div_add_mod' (dividend <<< shift) divisor
  have scaled : ((dividend <<< shift : Nat) : ℚ) * 2 ^ goal =
      dividend * 2 ^ (dividendExponent - divisorExponent) := by
    rw [← cast_shiftLeft_mul_zpow dividend shift, ← isShift, sub_sub_cancel]
  rw [whole, div_mul_eq_mul_div, scaled, zpow_sub₀ two_ne_zero]
  field_simp

/-- A quotient by a number from one on is in the range if the dividend is. -/
theorem isFinite_div_finite {sign divisorSign : Sign} {dividend divisor : Nat}
    {dividendExponent divisorExponent : Int} {positive : 0 < dividend}
    {divisorPositive : 0 < divisor} (inRange : dividend * 2 ^ dividendExponent < rangeEnd)
    (atLeast : 1 ≤ (divisor : ℚ) * 2 ^ divisorExponent) :
    (Float.Model.pack (UnpackedFloat.div .binary64
      (.finite sign dividend dividendExponent positive)
      (.finite divisorSign divisor divisorExponent divisorPositive))).isFinite = true := by
  have unfolded : UnpackedFloat.div .binary64
      (.finite sign dividend dividendExponent positive)
      (.finite divisorSign divisor divisorExponent divisorPositive) =
    let goal := min (dividendExponent - divisorExponent) (Format.binary64.targetExponent
      (totalExponent dividend dividendExponent - totalExponent divisor divisorExponent))
    let shifted := dividend <<< (dividendExponent - divisorExponent - goal).toNat
    roundWithAccuracy .binary64 (sign / divisorSign) (shifted / divisor) goal
      (accuracyOfFraction (shifted % divisor) divisor) := rfl
  rw [unfolded]
  extract_lets goal shifted
  have isShift : dividendExponent - divisorExponent - goal =
      (dividendExponent - divisorExponent - goal).toNat := by omega
  have low := le_target_div positive divisorPositive isShift (min_le_right _ _)
  apply (isFinite_roundWithAccuracy_iff _
    (locates_accuracyOfFraction _ (Nat.mod_lt shifted divisorPositive)) low).mpr
  calc ((shifted / divisor : Nat) + (shifted % divisor : Nat) / divisor : ℚ) * 2 ^ goal
      = dividend * 2 ^ dividendExponent / (divisor * 2 ^ divisorExponent) :=
        cast_div_mul_zpow divisorPositive isShift
    _ ≤ dividend * 2 ^ dividendExponent := div_le_self (by positivity) atLeast
    _ < rangeEnd := inRange

theorem isFinite_div_iff {dividend divisor : Float}
    (atLeastOne : AtLeastOne divisor.toModel.unpack) :
    (dividend / divisor).isFinite = true ↔ dividend.isFinite = true := by
  have quotient : (dividend / divisor).isFinite = (Float.Model.pack (UnpackedFloat.div .binary64
      dividend.toModel.unpack divisor.toModel.unpack)).isFinite := rfl
  rw [quotient]
  generalize divisor.toModel.unpack = unpackedDivisor at atLeastOne
  by_cases finite : dividend.isFinite = true
  · refine iff_of_true ?_ finite
    rcases unpack_cases finite with
      ⟨-, sign, unpacked⟩ | ⟨sign, mantissa, exponent, positive, canonical, -, unpacked⟩
    · rw [unpacked]
      cases atLeastOne <;> exact isFinite_pack_zero _
    · rw [unpacked]
      cases atLeastOne with
      | infinity => exact isFinite_pack_zero _
      | finite atLeast => exact isFinite_div_finite canonical.toRat_lt_rangeEnd atLeast
  · refine iff_of_false ?_ finite
    rw [Bool.not_eq_true] at finite ⊢
    have unpacked : dividend.toModel.unpack.isFinite = false := finite
    apply isFinite_pack_of_isFinite_eq_false
    generalize dividend.toModel.unpack = unpackedDividend at unpacked
    cases unpackedDividend with
    | zero => contradiction
    | finite => contradiction
    | notANumber => rfl
    | infinity => cases atLeastOne <;> rfl

/-- A division by a count neither leaves the range nor comes back to it. -/
theorem isFinite_div_ofNat_iff {dividend : Float} {count : Nat} (positive : 0 < count) :
    (dividend / Float.ofNat count).isFinite = true ↔ dividend.isFinite = true :=
  isFinite_div_iff (atLeastOne_ofNat positive)

end Counts

end Binary64

end ThroughputCharts
