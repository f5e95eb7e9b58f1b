import ThroughputCharts.Proofs.BinaryRounding

/-!
# The value of a binary64 number

A number that is finite stands for a significand times a power of two.  Such numbers are ordered by
their values, and a significand with an exponent is a finite number unless the exponent is too large.
-/

namespace ThroughputCharts

namespace Binary64

open Float.Model UnpackedFloat

/-- The value of a finite number, with its sign. -/
def value (number : Float) : ℚ :=
  match parts number with
  | .finite negative magnitude => if negative then -magnitude.toRat else magnitude.toRat
  | _ => 0

def signOf (negative : Bool) : Sign :=
  if negative then .negative else .positive

section Unpacking

variable {number : Float} {negative : Bool} {magnitude : Magnitude}

theorem toNat_unpackMantissa (bits : BitVec 64) :
    (@unpackMantissa .binary64 bits).toNat = bits.toNat % 2 ^ 52 := by
  simp [unpackMantissa, BitVec.extractLsb, BitVec.extractLsb'_toNat]

theorem toNat_unpackSign (bits : BitVec 64) :
    (@unpackSign .binary64 bits).toNat = bits.toNat / 2 ^ 63 := by
  have := bits.isLt
  simp [unpackSign, BitVec.extractLsb, BitVec.extractLsb'_toNat, Nat.shiftRight_eq_div_pow]
  omega

theorem ofBitVec_unpackSign (bits : BitVec 64) :
    Sign.ofBitVec (@unpackSign .binary64 bits) = signOf (decide (2 ^ 63 ≤ bits.toNat)) := by
  have positive : @unpackSign .binary64 bits = 0#1 ↔ ¬ 2 ^ 63 ≤ bits.toNat := by
    rw [← BitVec.toNat_inj, toNat_unpackSign]
    simp only [BitVec.toNat_ofNat, Nat.zero_mod]
    omega
  unfold Sign.ofBitVec signOf
  simp only [positive, decide_eq_true_eq, ite_not]

theorem toNat_append_implicit (fraction : BitVec 52) :
    (1#1 ++ fraction).toNat = 2 ^ 52 + fraction.toNat := by
  rw [BitVec.toNat_append, ← Nat.shiftLeft_add_eq_or_of_lt fraction.isLt]
  rfl

theorem Magnitude.Canonical.exponent_eq (canonical : magnitude.Canonical)
    (subnormal : magnitude.significand < 2 ^ 52) : magnitude.exponent = leastExponent := by
  by_contra notLeast
  have := canonical.normal (lt_of_le_of_ne canonical.least_le (Ne.symm notLeast))
  omega

section Fields

variable {bits : BitVec 64}

theorem unpackExponent_eq_iff (field : BitVec 11) :
    @unpackExponent .binary64 bits = field ↔ bits.toNat / 2 ^ 52 % 2048 = field.toNat := by
  rw [← BitVec.toNat_inj, toNat_unpackExponent]

theorem unpack_of_subnormal (subnormal : bits.toNat / 2 ^ 52 % 2048 = 0) :
    UnpackedFloat.unpack .binary64 bits =
      if isZero : bits.toNat % 2 ^ 52 = 0 then .zero (signOf (decide (2 ^ 63 ≤ bits.toNat)))
      else .finite (signOf (decide (2 ^ 63 ≤ bits.toNat))) (bits.toNat % 2 ^ 52) leastExponent
        (Nat.pos_of_ne_zero isZero) := by
  have exponent : @unpackExponent .binary64 bits = 0#11 := (unpackExponent_eq_iff 0#11).mpr subnormal
  have fraction : @unpackMantissa .binary64 bits = 0#52 ↔ bits.toNat % 2 ^ 52 = 0 := by
    rw [← BitVec.toNat_inj, toNat_unpackMantissa]
    rfl
  rw [UnpackedFloat.unpack]
  simp only [exponent, fraction, ofBitVec_unpackSign, toNat_unpackMantissa]
  rfl

theorem unpack_of_normal (notSpecial : bits.toNat / 2 ^ 52 % 2048 ≠ 2047)
    (normal : bits.toNat / 2 ^ 52 % 2048 ≠ 0) :
    UnpackedFloat.unpack .binary64 bits =
      .finite (signOf (decide (2 ^ 63 ≤ bits.toNat))) (2 ^ 52 + bits.toNat % 2 ^ 52)
        ((bits.toNat / 2 ^ 52 % 2048 : Nat) - 1075) (by omega) := by
  have isSpecial := mt (unpackExponent_eq_iff (-1#11)).mp notSpecial
  have isSubnormal := mt (unpackExponent_eq_iff 0#11).mp normal
  rw [UnpackedFloat.unpack]
  simp only [isSpecial, isSubnormal, if_false, ofBitVec_unpackSign, toNat_append_implicit,
    toNat_unpackMantissa, toNat_unpackExponent]
  rfl

end Fields

theorem negative_of_parts (finite : parts number = .finite negative magnitude) :
    decide (2 ^ 63 ≤ number.toBits.toNat) = negative := by
  obtain ⟨canonical, word⟩ := canonical_of_partsOfBits finite
  have bound : magnitude.pattern < 2047 * 2 ^ 52 := magnitude.pattern_lt canonical
  rw [word]
  cases negative with
  | false =>
      rw [if_neg Bool.false_ne_true]
      exact decide_eq_false (by omega)
  | true =>
      rw [if_pos rfl]
      exact decide_eq_true (by omega)

/-- The sign, the significand and the exponent of a number are those of its parts. -/
theorem unpack_of_parts (finite : parts number = .finite negative magnitude) :
    number.toModel.unpack =
      if isZero : magnitude.significand = 0 then .zero (signOf negative)
      else .finite (signOf negative) magnitude.significand magnitude.exponent
        (Nat.pos_of_ne_zero isZero) := by
  obtain ⟨canonical, word⟩ := canonical_of_partsOfBits finite
  have significand := canonical.significand_lt
  have least := canonical.least_le
  have greatest := canonical.exponent_le
  have unpacked : number.toModel.unpack = UnpackedFloat.unpack .binary64 number.toBits.toBitVec := rfl
  have bits : number.toBits.toBitVec.toNat = number.toBits.toNat := rfl
  rw [Magnitude.pattern] at word
  by_cases isSubnormal : magnitude.significand < 2 ^ 52
  · have exponent := canonical.exponent_eq isSubnormal
    rw [exponent, sub_self, Int.toNat_zero, zero_mul, zero_add] at word
    have field : number.toBits.toNat / 2 ^ 52 % 2048 = 0 := by
      split at word <;> omega
    have fraction : number.toBits.toNat % 2 ^ 52 = magnitude.significand := by
      split at word <;> omega
    rw [unpacked, unpack_of_subnormal (by rwa [bits])]
    simp only [bits, negative_of_parts finite, fraction, exponent]
  · simp only [leastExponent] at word least
    have field : number.toBits.toNat / 2 ^ 52 % 2048 = (magnitude.exponent + 1075).toNat := by
      split at word <;> omega
    have fraction : 2 ^ 52 + number.toBits.toNat % 2 ^ 52 = magnitude.significand := by
      split at word <;> omega
    have exponent : ((magnitude.exponent + 1075).toNat : Int) - 1075 = magnitude.exponent := by omega
    rw [unpacked, unpack_of_normal (by omega) (by omega), dif_neg (by omega)]
    simp only [bits, negative_of_parts finite, field, fraction, exponent]

theorem signOf_injective {first second : Bool} (same : signOf first = signOf second) :
    first = second := by
  cases first <;> cases second <;> first | rfl | contradiction

/-- The parts of a number are determined by its sign, its significand and its exponent. -/
theorem parts_of_unpack (canonical : magnitude.Canonical)
    (unpacked : number.toModel.unpack =
      if isZero : magnitude.significand = 0 then .zero (signOf negative)
      else .finite (signOf negative) magnitude.significand magnitude.exponent
        (Nat.pos_of_ne_zero isZero)) :
    parts number = .finite negative magnitude := by
  have finite : number.isFinite = true := by
    have unfolded : number.isFinite = number.toModel.unpack.isFinite := rfl
    rw [unfolded, unpacked]
    split <;> rfl
  obtain ⟨ownSign, own, ownParts⟩ := isFinite_iff.mp finite
  rw [unpack_of_parts ownParts] at unpacked
  rw [ownParts]
  obtain ⟨significand, exponent⟩ := magnitude
  obtain ⟨ownSignificand, ownExponent⟩ := own
  by_cases ownIsZero : ownSignificand = 0 <;> by_cases isZero : significand = 0 <;>
    simp only [ownIsZero, isZero, dite_true, dite_false] at unpacked
  · -- The exponent of a zero is the least one.
    have least := canonical.exponent_eq (by simp [isZero])
    have ownLeast := (canonical_of_parts ownParts).exponent_eq (by simp [ownIsZero])
    simp only at least ownLeast
    rw [ownIsZero, isZero, least, ownLeast, signOf_injective (UnpackedFloat.zero.inj unpacked)]
  · contradiction
  · contradiction
  · obtain ⟨sign, rfl, rfl⟩ := UnpackedFloat.finite.inj unpacked
    rw [signOf_injective sign]

/-- A finite number is a zero, or it has a sign, a significand and an exponent. -/
theorem unpack_cases (finite : number.isFinite = true) :
    (value number = 0 ∧ ∃ sign, number.toModel.unpack = .zero sign) ∨
      ∃ sign mantissa exponent, ∃ positive : 0 < mantissa,
        Magnitude.Canonical ⟨mantissa, exponent⟩ ∧
        value number = sign.apply mantissa * 2 ^ exponent ∧
        number.toModel.unpack = .finite sign mantissa exponent positive := by
  obtain ⟨negative, magnitude, isParts⟩ := isFinite_iff.mp finite
  have unpacked := unpack_of_parts isParts
  by_cases isZero : magnitude.significand = 0
  · left
    rw [dif_pos isZero] at unpacked
    refine ⟨?_, _, unpacked⟩
    simp [value, isParts, Magnitude.toRat, isZero]
  · right
    rw [dif_neg isZero] at unpacked
    refine ⟨_, _, _, _, canonical_of_parts isParts, ?_, unpacked⟩
    simp only [value, isParts, Magnitude.toRat]
    cases negative <;> simp [signOf, Sign.apply]

end Unpacking

section Order

variable {number other : Float} {magnitude greater : Magnitude}

theorem Magnitude.Canonical.toRat_lt_of_exponent_lt (canonical : magnitude.Canonical)
    (canonicalGreater : greater.Canonical) (less : magnitude.exponent < greater.exponent) :
    magnitude.toRat < greater.toRat := by
  have places : (magnitude.significand : ℚ) < 2 ^ 53 := by
    exact_mod_cast canonical.significand_lt
  have normal : (2 : ℚ) ^ 52 ≤ greater.significand := by
    exact_mod_cast canonicalGreater.normal (canonical.least_le.trans_lt less)
  calc magnitude.toRat
      < 2 ^ 53 * 2 ^ magnitude.exponent := mul_lt_mul_of_pos_right places (by positivity)
    _ = 2 ^ 52 * 2 ^ (magnitude.exponent + 1) := by
        rw [zpow_add_one₀ two_ne_zero]
        ring
    _ ≤ 2 ^ 52 * 2 ^ greater.exponent :=
        mul_le_mul_of_nonneg_left (zpow_le_zpow_right₀ one_le_two less) (by positivity)
    _ ≤ greater.toRat := mul_le_mul_of_nonneg_right normal (by positivity)

/-- Canonical magnitudes are ordered by their exponents first. -/
theorem Magnitude.Canonical.toRat_lt_iff (canonical : magnitude.Canonical)
    (canonicalGreater : greater.Canonical) :
    magnitude.toRat < greater.toRat ↔
      (compare magnitude.exponent greater.exponent).then
        (compare magnitude.significand greater.significand) = .lt := by
  rcases compared : compare magnitude.exponent greater.exponent with _ | _ | _
  · exact iff_of_true (canonical.toRat_lt_of_exponent_lt canonicalGreater
      (Int.compare_eq_lt.mp compared)) rfl
  · rw [Magnitude.toRat, Magnitude.toRat, Int.compare_eq_eq.mp compared,
      mul_lt_mul_iff_left₀ (by positivity), Nat.cast_lt, Ordering.then, Nat.compare_eq_lt]
  · refine iff_of_false (lt_asymm ?_) (by simp)
    exact canonicalGreater.toRat_lt_of_exponent_lt canonical (Int.compare_eq_gt.mp compared)

theorem lt_iff_compare :
    number < other ↔ UnpackedFloat.compare number.toModel.unpack other.toModel.unpack = some .lt := by
  have unfolded : (number < other) =
    (decide (UnpackedFloat.lt number.toModel.unpack other.toModel.unpack = true) = true) := rfl
  rw [unfolded, decide_eq_true_iff, UnpackedFloat.lt, beq_iff_eq]

/-- Finite numbers are ordered by their values. -/
theorem lt_iff_value_lt (finite : number.isFinite = true) (otherFinite : other.isFinite = true) :
    number < other ↔ value number < value other := by
  rw [lt_iff_compare]
  rcases unpack_cases finite with
    ⟨isZero, sign, unpacked⟩ | ⟨sign, mantissa, exponent, positive, canonical, isValue, unpacked⟩ <;>
  rcases unpack_cases otherFinite with
    ⟨otherIsZero, otherSign, otherUnpacked⟩ |
    ⟨otherSign, otherMantissa, otherExponent, otherPositive, otherCanonical, otherIsValue,
      otherUnpacked⟩
  · simp [isZero, otherIsZero, unpacked, otherUnpacked, UnpackedFloat.compare]
  · have pos : (0 : ℚ) < otherMantissa * 2 ^ otherExponent := by positivity
    rw [isZero, otherIsValue, unpacked, otherUnpacked]
    cases otherSign <;> simp [UnpackedFloat.compare, Sign.apply, pos, pos.le]
  · have pos : (0 : ℚ) < mantissa * 2 ^ exponent := by positivity
    rw [otherIsZero, isValue, unpacked, otherUnpacked]
    cases sign <;> simp [UnpackedFloat.compare, Sign.apply, pos, pos.le]
  · have pos : (0 : ℚ) < mantissa * 2 ^ exponent := by positivity
    have otherPos : (0 : ℚ) < otherMantissa * 2 ^ otherExponent := by positivity
    have order := canonical.toRat_lt_iff otherCanonical
    have reverse := otherCanonical.toRat_lt_iff canonical
    rw [isValue, otherIsValue, unpacked, otherUnpacked]
    cases sign <;> cases otherSign <;>
      simp only [UnpackedFloat.compare, Sign.apply, Option.some.injEq, reduceCtorEq, false_iff,
        true_iff, not_lt, Int.cast_neg, Int.cast_natCast, neg_mul]
    · rw [Ordering.swap_then, ← Std.OrientedOrd.eq_swap, ← Std.OrientedOrd.eq_swap, neg_lt_neg_iff]
      exact reverse.symm
    · linarith
    · linarith
    · exact order.symm

end Order

section Packing

variable {sign : Sign} {mantissa : Nat} {exponent : Int} {positive : 0 < mantissa}

theorem ofBitVec_toBitVec (sign : Sign) : Sign.ofBitVec sign.toBitVec = sign := by
  cases sign <;> rfl

theorem unpackSign_packComponents {format : Format} (sign : Sign)
    (field : BitVec format.exponentBits) (fraction : BitVec format.mantissaBitsWithoutImplicit) :
    unpackSign (packComponents format sign field fraction) = sign.toBitVec := by
  apply BitVec.eq_of_getLsbD_eq
  intro place bound
  obtain rfl : place = 0 := by omega
  simp [unpackSign, packComponents, BitVec.getLsbD_append, BitVec.getElem_append]

theorem isFinite_pack (unpacked : UnpackedFloat) :
    (Float.Model.pack unpacked).isFinite = true ↔
      @unpackExponent .binary64 (UnpackedFloat.pack .binary64 unpacked) ≠ -1#11 :=
  isFinite_unpack _

theorem isFinite_pack_zero (sign : Sign) : (Float.Model.pack (.zero sign)).isFinite = true := by
  cases sign <;> rfl

theorem isFinite_pack_of_isFinite_eq_false {unpacked : UnpackedFloat}
    (notFinite : unpacked.isFinite = false) : (Float.Model.pack unpacked).isFinite = false := by
  cases unpacked with
  | infinity sign => cases sign <;> rfl
  | notANumber => rfl
  | zero => contradiction
  | finite => contradiction

/-- A number with too large an exponent is packed like infinity. -/
theorem pack_finite_of_lt (large : 971 < exponent) :
    Float.Model.pack (.finite sign mantissa exponent positive) =
      Float.Model.pack (.infinity sign) := by
  have bias : (Format.binary64.exponentBias : Int) = 1023 := rfl
  simp only [Float.Model.pack, UnpackedFloat.pack, bias]
  congr 2
  exact if_pos (by omega)

theorem isFinite_pack_finite :
    (Float.Model.pack (.finite sign mantissa exponent positive)).isFinite = true ↔
      exponent ≤ 971 := by
  have bias : (Format.binary64.exponentBias : Int) = 1023 := rfl
  rw [isFinite_pack]
  simp only [UnpackedFloat.pack, bias]
  split
  next tooLarge =>
    refine iff_of_false ?_ (by omega)
    simp [packedInfinity]
  next fits =>
    refine iff_of_true ?_ (by omega)
    split
    · rw [unpackExponent_packComponents, Ne, ← BitVec.toNat_inj, BitVec.toNat_ofNat]
      simp only [BitVec.reduceNeg, BitVec.toNat_ofNat]
      omega
    · rw [unpackExponent_packComponents]
      decide

/-- A normal number can be packed and unpacked again. -/
theorem unpack_pack_finite (low : 2 ^ 52 ≤ mantissa) (high : mantissa < 2 ^ 53)
    (least : leastExponent ≤ exponent) (greatest : exponent ≤ 971) :
    (Float.Model.pack (.finite sign mantissa exponent positive)).unpack =
      .finite sign mantissa exponent positive := by
  have unpacked : (Float.Model.pack (.finite sign mantissa exponent positive)).unpack =
      UnpackedFloat.unpack .binary64
        (UnpackedFloat.pack .binary64 (.finite sign mantissa exponent positive)) := rfl
  have bias : (Format.binary64.exponentBias : Int) = 1023 := rfl
  have places : mantissa.log2 + 1 = Format.binary64.mantissaBits := by
    have log : mantissa.log2 = 52 := (Nat.log2_eq_iff positive.ne').mpr ⟨low, high⟩
    rw [log]
    rfl
  have packed : UnpackedFloat.pack .binary64 (.finite sign mantissa exponent positive) =
      packComponents .binary64 sign (BitVec.ofNat 11 (exponent + 1075).toNat)
        (BitVec.ofNat 52 mantissa) := by
    simp only [UnpackedFloat.pack, bias]
    simp only [leastExponent] at least
    rw [if_neg (by omega), if_pos places]
    congr 3
    omega
  simp only [leastExponent] at least
  have field : (BitVec.ofNat 11 (exponent + 1075).toNat).toNat = (exponent + 1075).toNat := by
    rw [BitVec.toNat_ofNat]
    omega
  have notSpecial : BitVec.ofNat 11 (exponent + 1075).toNat ≠ -1#11 := by
    rw [Ne, ← BitVec.toNat_inj, field]
    have : (-1#11).toNat = 2047 := rfl
    omega
  have notSubnormal : BitVec.ofNat 11 (exponent + 1075).toNat ≠ 0#11 := by
    rw [Ne, ← BitVec.toNat_inj, field]
    have : (0#11).toNat = 0 := rfl
    omega
  have restored : 2 ^ 52 + mantissa % 2 ^ 52 = mantissa := by omega
  rw [unpacked, packed, UnpackedFloat.unpack]
  simp only [unpackExponent_packComponents, unpackMantissa_packComponents,
    unpackSign_packComponents, ofBitVec_toBitVec, notSpecial, notSubnormal, if_false,
    toNat_append_implicit, BitVec.toNat_ofNat, restored, field, bias]
  congr 1
  omega

end Packing

end Binary64

end ThroughputCharts
