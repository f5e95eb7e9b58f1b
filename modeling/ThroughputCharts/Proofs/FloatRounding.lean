import ThroughputCharts.Proofs.FiniteOperations

/-!
# Correct rounding

Sums, differences, products and quotients of finite numbers are rounded to a nearest number that
binary64 can hold.  This alone makes a result exact where it can be, keeps it on its side of every
number that can be held, and bounds its error.
-/

namespace ThroughputCharts
namespace Binary64

open Float.Model UnpackedFloat

/-- The numbers that binary64 can hold, leaving aside that one of them is the greatest. -/
def Representable (number : ℚ) : Prop :=
  ∃ significand exponent : ℤ, |significand| < 2 ^ 53 ∧ leastExponent ≤ exponent ∧
    number = significand * 2 ^ exponent

/-- The whole multiples of a power of two. -/
def OnGrid (exponent : ℤ) (number : ℚ) : Prop :=
  ∃ count : ℤ, number = count * 2 ^ exponent

section Grids

variable {exponent finer : ℤ} {number other : ℚ}

theorem onGrid_intCast (fine : exponent ≤ 0) (number : ℤ) : OnGrid exponent number := by
  refine ⟨number * 2 ^ (-exponent).toNat, ?_⟩
  have unit : (2 : ℚ) ^ (-exponent).toNat * 2 ^ exponent = 1 := by
    rw [← zpow_natCast, Int.toNat_of_nonneg (by omega), ← zpow_add₀ two_ne_zero, neg_add_cancel,
      zpow_zero]
  push_cast
  rw [mul_assoc, unit, mul_one]

theorem OnGrid.refine (onGrid : OnGrid exponent number) (fine : finer ≤ exponent) :
    OnGrid finer number := by
  obtain ⟨count, rfl⟩ := onGrid
  refine ⟨count * 2 ^ (exponent - finer).toNat, ?_⟩
  push_cast
  rw [mul_assoc, ← zpow_natCast, Int.toNat_of_nonneg (by omega), ← zpow_add₀ two_ne_zero,
    sub_add_cancel]

theorem OnGrid.add (onGrid : OnGrid exponent number) (otherOnGrid : OnGrid exponent other) :
    OnGrid exponent (number + other) := by
  obtain ⟨count, rfl⟩ := onGrid
  obtain ⟨otherCount, rfl⟩ := otherOnGrid
  exact ⟨count + otherCount, by push_cast; ring⟩

theorem OnGrid.sub (onGrid : OnGrid exponent number) (otherOnGrid : OnGrid exponent other) :
    OnGrid exponent (number - other) := by
  obtain ⟨count, rfl⟩ := onGrid
  obtain ⟨otherCount, rfl⟩ := otherOnGrid
  exact ⟨count - otherCount, by push_cast; ring⟩

/-- Different numbers on a grid are at least a unit apart. -/
theorem OnGrid.unit_le (onGrid : OnGrid exponent number) (otherOnGrid : OnGrid exponent other)
    (less : number < other) : 2 ^ exponent ≤ other - number := by
  obtain ⟨count, rfl⟩ := onGrid
  obtain ⟨otherCount, rfl⟩ := otherOnGrid
  have positive : (0 : ℚ) < 2 ^ exponent := by positivity
  have counts : count + 1 ≤ otherCount := by
    have := lt_of_mul_lt_mul_right less positive.le
    exact_mod_cast this
  have castCounts : (count : ℚ) + 1 ≤ otherCount := by exact_mod_cast counts
  calc (2 : ℚ) ^ exponent = 1 * 2 ^ exponent := (one_mul _).symm
    _ ≤ (otherCount - count) * 2 ^ exponent :=
      mul_le_mul_of_nonneg_right (by linarith) positive.le
    _ = otherCount * 2 ^ exponent - count * 2 ^ exponent := sub_mul _ _ _

end Grids

section Representable

variable {significand exponent : ℤ} {number : ℚ}

theorem representable_of_abs_le (bound : |significand| ≤ 2 ^ 53) (least : leastExponent ≤ exponent) :
    Representable (significand * 2 ^ exponent) := by
  rcases bound.lt_or_eq with less | equal
  · exact ⟨significand, exponent, less, least, rfl⟩
  · -- The one significand that is too large is even.
    have split : significand = 2 * (significand / 2) := by
      rcases abs_choice significand with positive | negative <;> omega
    refine ⟨significand / 2, exponent + 1, ?_, by omega, ?_⟩
    · rw [split, abs_mul] at equal
      simp only [Nat.abs_ofNat] at equal
      omega
    · conv_lhs => rw [split]
      rw [zpow_add_one₀ two_ne_zero]
      push_cast
      ring

theorem OnGrid.representable (onGrid : OnGrid exponent number) (least : leastExponent ≤ exponent)
    (bound : |number| ≤ 2 ^ (53 + exponent)) : Representable number := by
  obtain ⟨count, rfl⟩ := onGrid
  apply representable_of_abs_le _ least
  have positive : (0 : ℚ) < 2 ^ exponent := by positivity
  rw [abs_mul, abs_of_pos positive, zpow_add₀ two_ne_zero] at bound
  have := le_of_mul_le_mul_right bound positive
  exact_mod_cast this

theorem representable_intCast {number : ℤ} (bound : |number| ≤ 2 ^ 53) :
    Representable number := by
  have whole : Representable (number * 2 ^ (0 : ℤ)) := representable_of_abs_le bound (by decide)
  rwa [zpow_zero, mul_one] at whole

theorem Representable.neg (representable : Representable number) : Representable (-number) := by
  obtain ⟨significand, exponent, bound, least, rfl⟩ := representable
  exact ⟨-significand, exponent, by rwa [abs_neg], least, by push_cast; ring⟩

/-- Large representable numbers are on coarse grids. -/
theorem Representable.onGrid (representable : Representable number)
    (large : 2 ^ (52 + exponent) ≤ |number|) : OnGrid exponent number := by
  obtain ⟨significand, own, bound, -, rfl⟩ := representable
  have positive : (0 : ℚ) < 2 ^ own := by positivity
  have castBound : |(significand : ℚ)| < 2 ^ 53 := by exact_mod_cast bound
  have powers : (2 : ℚ) ^ (52 + exponent) < 2 ^ (53 + own) := by
    calc (2 : ℚ) ^ (52 + exponent) ≤ |(significand : ℚ)| * 2 ^ own := by
          rwa [abs_mul, abs_of_pos positive] at large
      _ < 2 ^ 53 * 2 ^ own := mul_lt_mul_of_pos_right castBound positive
      _ = 2 ^ (53 + own) := by
          rw [zpow_add₀ two_ne_zero]
          rfl
  have exponents := (zpow_lt_zpow_iff_right₀ (one_lt_two (α := ℚ))).mp powers
  exact OnGrid.refine ⟨significand, rfl⟩ (by omega)

theorem representable_value {number : Float} (finite : number.isFinite = true) :
    Representable (value number) := by
  rcases unpack_cases finite with ⟨isZero, -⟩ | ⟨sign, mantissa, exponent, -, canonical, isValue, -⟩
  · rw [isZero]
    exact ⟨0, 0, by decide, by decide, by simp⟩
  · refine ⟨sign.apply mantissa, exponent, ?_, canonical.least_le, isValue⟩
    have bound := canonical.significand_lt
    cases sign <;> simp only [Sign.apply, abs_neg, Nat.abs_cast] <;> exact_mod_cast bound

/-- A representable number is by more than one part in `2 ^ 53` below the next one. -/
theorem Representable.gap_above {other : ℚ} (representable : Representable number)
    (otherRepresentable : Representable other) (positive : 0 < number) (less : number < other) :
    number * 2 ^ (-53 : ℤ) < other - number := by
  obtain ⟨place, low, high⟩ := exists_mem_Ico_zpow positive (one_lt_two (α := ℚ))
  have start : (2 : ℚ) ^ (52 + (place - 52)) = 2 ^ place := by
    congr 1
    ring
  have onGrid : OnGrid (place - 52) number := by
    apply representable.onGrid
    rwa [start, abs_of_pos positive]
  have otherOnGrid : OnGrid (place - 52) other := by
    apply otherRepresentable.onGrid
    rw [start, abs_of_pos (positive.trans less)]
    exact low.trans less.le
  calc number * 2 ^ (-53 : ℤ) < 2 ^ (place + 1) * 2 ^ (-53 : ℤ) :=
        mul_lt_mul_of_pos_right high (by positivity)
    _ = 2 ^ (place - 52) := by
        rw [← zpow_add₀ two_ne_zero]
        congr 1
        ring
    _ ≤ other - number := onGrid.unit_le otherOnGrid less

/-- A representable number is by at least one part in `2 ^ 53` above the one before. -/
theorem Representable.gap_below {other : ℚ} (representable : Representable number)
    (otherRepresentable : Representable other) (positive : 0 < number) (less : other < number) :
    number * 2 ^ (-53 : ℤ) ≤ number - other := by
  obtain ⟨place, low, high⟩ := exists_mem_Ico_zpow positive (one_lt_two (α := ℚ))
  have unit (shift : ℤ) : (2 : ℚ) ^ (place + shift) * 2 ^ (-53 : ℤ) = 2 ^ (place + shift - 53) := by
    rw [← zpow_add₀ two_ne_zero]
    congr 1
  have start (shift : ℤ) : (2 : ℚ) ^ (52 + (place + shift - 53)) = 2 ^ (place + shift - 1) := by
    congr 1
    ring
  have onGrid : OnGrid (place + 1 - 53) number := by
    apply representable.onGrid
    rwa [start, add_sub_cancel_right, abs_of_pos positive]
  rcases low.eq_or_lt with isPower | above
  · -- Below a power of two the grid is finer.
    rw [← isPower] at onGrid ⊢
    have part : (2 : ℚ) ^ place * 2 ^ (-53 : ℤ) = 2 ^ (place + 0 - 53) := by
      rw [← unit, add_zero]
    rw [part]
    rcases le_or_gt (2 ^ (place + 0 - 1)) other with near | far
    · have otherOnGrid : OnGrid (place + 0 - 53) other := by
        apply otherRepresentable.onGrid
        rw [start]
        exact near.trans (le_abs_self other)
      have fine : OnGrid (place + 0 - 53) ((2 : ℚ) ^ place) := onGrid.refine (by omega)
      exact otherOnGrid.unit_le fine (isPower ▸ less)
    · have half : (2 : ℚ) ^ place = 2 ^ (place + 0 - 1) * 2 := by
        rw [← zpow_add_one₀ two_ne_zero]
        congr 1
        ring
      have smaller : (2 : ℚ) ^ (place + 0 - 53) ≤ 2 ^ (place + 0 - 1) :=
        zpow_le_zpow_right₀ one_le_two (by omega)
      linarith
  · have part : number * 2 ^ (-53 : ℤ) ≤ 2 ^ (place + 1 - 53) := by
      rw [← unit]
      exact mul_le_mul_of_nonneg_right high.le (by positivity)
    apply part.trans
    rcases le_or_gt (2 ^ place) other with near | far
    · have otherOnGrid : OnGrid (place + 1 - 53) other := by
        apply otherRepresentable.onGrid
        rw [start, add_sub_cancel_right]
        exact near.trans (le_abs_self other)
      exact otherOnGrid.unit_le onGrid less
    · have powerOnGrid : OnGrid (place + 1 - 53) ((2 : ℚ) ^ place) :=
        OnGrid.refine ⟨1, by rw [Int.cast_one, one_mul]⟩ (by omega)
      have := powerOnGrid.unit_le onGrid above
      linarith

end Representable

/-- A result is the rounding of a number: no number that can be held is nearer. -/
structure RoundsTo (number : ℚ) (result : Float) : Prop where
  finite : result.isFinite = true
  nearest : ∀ other, Representable other → |value result - number| ≤ |other - number|

namespace RoundsTo

variable {number bound : ℚ} {result : Float} {exponent : ℤ}

theorem value_eq (rounds : RoundsTo number result) (representable : Representable number) :
    value result = number := by
  have none := rounds.nearest number representable
  rw [sub_self, abs_zero] at none
  exact sub_eq_zero.mp (abs_eq_zero.mp (none.antisymm (abs_nonneg _)))

theorem le_value (rounds : RoundsTo number result) (representable : Representable bound)
    (atLeast : bound ≤ number) : bound ≤ value result := by
  by_contra below
  have near := rounds.nearest bound representable
  rw [abs_of_neg (by linarith), abs_of_nonpos (by linarith)] at near
  linarith

theorem value_le (rounds : RoundsTo number result) (representable : Representable bound)
    (atMost : number ≤ bound) : value result ≤ bound := by
  by_contra above
  have near := rounds.nearest bound representable
  rw [abs_of_pos (by linarith), abs_of_nonneg (by linarith)] at near
  linarith

/-- Rounding does not leave a grid. -/
theorem onGrid (rounds : RoundsTo number result) (onGrid : OnGrid exponent number)
    (least : leastExponent ≤ exponent) : OnGrid exponent (value result) := by
  have place : OnGrid exponent ((2 : ℚ) ^ (53 + exponent)) :=
    OnGrid.refine ⟨1, by rw [Int.cast_one, one_mul]⟩ (by omega)
  have held : Representable ((2 : ℚ) ^ (53 + exponent)) :=
    place.representable least (abs_of_pos (by positivity)).le
  have smaller : (2 : ℚ) ^ (52 + exponent) ≤ 2 ^ (53 + exponent) :=
    zpow_le_zpow_right₀ one_le_two (by omega)
  rcases le_or_gt |number| (2 ^ (53 + exponent)) with small | large
  · rwa [rounds.value_eq (onGrid.representable least small)]
  · apply (representable_value rounds.finite).onGrid
    apply smaller.trans
    rcases lt_abs.mp large with positive | negative
    · exact (rounds.le_value held positive.le).trans (le_abs_self _)
    · have := rounds.value_le held.neg (by linarith)
      exact (le_neg.mp this).trans (neg_le_abs _)

/-- The error is at most half a unit of 53 places. -/
theorem abs_sub_le (rounds : RoundsTo number result) (least : leastExponent ≤ exponent)
    (small : |number| ≤ 2 ^ (53 + exponent)) : |value result - number| ≤ 2 ^ (exponent - 1) := by
  have positive : (0 : ℚ) < 2 ^ exponent := by positivity
  have inUnits : |number / 2 ^ exponent| ≤ 2 ^ 53 := by
    rw [abs_div, abs_of_pos positive, div_le_iff₀ positive]
    rwa [zpow_add₀ two_ne_zero] at small
  -- The nearest whole number of units can be held.
  obtain ⟨count, isCount⟩ : ∃ count, count = ⌊number / 2 ^ exponent + 1 / 2⌋ := ⟨_, rfl⟩
  obtain ⟨low, high⟩ := Int.floor_eq_iff.mp isCount.symm
  have counts : |count| ≤ 2 ^ 53 := by
    rw [abs_le] at inUnits ⊢
    have above : (-2 ^ 53 - 1 : ℚ) < count := by linarith [inUnits.1]
    have below : (count : ℚ) < 2 ^ 53 + 1 := by linarith [inUnits.2]
    have castAbove : (-2 ^ 53 - 1 : ℤ) < count := by exact_mod_cast above
    have castBelow : count < (2 ^ 53 + 1 : ℤ) := by exact_mod_cast below
    omega
  calc |value result - number|
      ≤ |count * 2 ^ exponent - number| :=
        rounds.nearest _ (representable_of_abs_le counts least)
    _ = |count - number / 2 ^ exponent| * 2 ^ exponent := by
        rw [← abs_of_pos positive, ← abs_mul, abs_of_pos positive, sub_mul,
          div_mul_cancel₀ _ positive.ne']
    _ ≤ 1 / 2 * 2 ^ exponent := by
        apply mul_le_mul_of_nonneg_right _ positive.le
        rw [abs_le]
        constructor <;> linarith
    _ = 2 ^ (exponent - 1) := by
        rw [zpow_sub_one₀ two_ne_zero]
        ring

/-- What is within one part in `2 ^ 54` of a representable number is rounded to it. -/
theorem value_eq_of_near (rounds : RoundsTo number result) (representable : Representable bound)
    (positive : 0 < bound) (above : bound - bound * 2 ^ (-54 : ℤ) < number)
    (below : number ≤ bound + bound * 2 ^ (-54 : ℤ)) : value result = bound := by
  have held := representable_value rounds.finite
  have near := rounds.nearest bound representable
  have half : bound * 2 ^ (-53 : ℤ) = 2 * (bound * 2 ^ (-54 : ℤ)) := by
    rw [show (-53 : ℤ) = -54 + 1 by rfl, zpow_add_one₀ two_ne_zero]
    ring
  rcases lt_trichotomy (value result) bound with less | equal | greater
  · have gap := representable.gap_below held positive less
    have atMost : number ≤ bound := by
      by_contra beyond
      exact absurd (rounds.le_value representable (by linarith)) (not_le.mpr less)
    rw [abs_sub_comm, abs_of_pos (by linarith), abs_of_nonneg (by linarith)] at near
    linarith
  · exact equal
  · have gap := representable.gap_above held positive greater
    have atLeast : bound ≤ number := by
      by_contra beyond
      exact absurd (rounds.value_le representable (by linarith)) (not_le.mpr greater)
    rw [abs_of_pos (by linarith), abs_of_nonpos (by linarith)] at near
    linarith

end RoundsTo

section Packing

variable {sign : Sign} {mantissa rounded : Nat} {exponent goal : ℤ} {positive : 0 < mantissa}
  {number : Float}

theorem unpack_pack_subnormal (small : mantissa < 2 ^ 52) :
    (Float.Model.pack (.finite sign mantissa leastExponent positive)).unpack =
      .finite sign mantissa leastExponent positive := by
  have unpacked : (Float.Model.pack (.finite sign mantissa leastExponent positive)).unpack =
      UnpackedFloat.unpack .binary64
        (UnpackedFloat.pack .binary64 (.finite sign mantissa leastExponent positive)) := rfl
  have bias : (Format.binary64.exponentBias : Int) = 1023 := rfl
  have places : mantissa.log2 + 1 ≠ Format.binary64.mantissaBits := by
    have log : mantissa.log2 < 52 := (Nat.log2_lt positive.ne').mpr small
    have bits : Format.binary64.mantissaBits = 53 := rfl
    omega
  have packed : UnpackedFloat.pack .binary64 (.finite sign mantissa leastExponent positive) =
      packComponents .binary64 sign (0#11) (BitVec.ofNat 52 mantissa) := by
    simp only [UnpackedFloat.pack, bias]
    rw [if_neg (by decide), if_neg places]
  have notSpecial : 0#11 ≠ -1#11 := by decide
  have fraction : (BitVec.ofNat 52 mantissa).toNat = mantissa := by
    rw [BitVec.toNat_ofNat]
    omega
  have nonzero : BitVec.ofNat 52 mantissa ≠ 0#52 := by
    rw [Ne, ← BitVec.toNat_inj, fraction]
    exact positive.ne'
  rw [unpacked, packed, UnpackedFloat.unpack]
  simp only [unpackExponent_packComponents, unpackMantissa_packComponents,
    unpackSign_packComponents, ofBitVec_toBitVec]
  rw [if_neg notSpecial, if_pos trivial, dif_neg nonzero]
  simp only [fraction, bias]
  rfl

/-- A canonical magnitude can be packed and unpacked again. -/
theorem unpack_pack_canonical (canonical : Magnitude.Canonical ⟨mantissa, exponent⟩) :
    (Float.Model.pack (.finite sign mantissa exponent positive)).unpack =
      .finite sign mantissa exponent positive := by
  by_cases normal : 2 ^ 52 ≤ mantissa
  · exact unpack_pack_finite normal canonical.significand_lt canonical.least_le canonical.exponent_le
  · obtain rfl : exponent = leastExponent := canonical.exponent_eq (not_le.mp normal)
    exact unpack_pack_subnormal (not_le.mp normal)

theorem isFinite_of_unpack (unpacked : number.toModel.unpack = .finite sign mantissa exponent positive) :
    number.isFinite = true := by
  have unfolded : number.isFinite = number.toModel.unpack.isFinite := rfl
  rw [unfolded, unpacked]
  rfl

theorem value_of_unpack (unpacked : number.toModel.unpack = .finite sign mantissa exponent positive) :
    value number = sign.apply mantissa * 2 ^ exponent := by
  rcases unpack_cases (isFinite_of_unpack unpacked) with
    ⟨-, other, isZero⟩ | ⟨ownSign, ownMantissa, ownExponent, ownPositive, -, isValue, own⟩
  · rw [unpacked] at isZero
    contradiction
  · rw [unpacked] at own
    obtain ⟨rfl, rfl, rfl⟩ := UnpackedFloat.finite.inj own
    exact isValue

theorem value_of_unpack_zero (unpacked : number.toModel.unpack = .zero sign) :
    number.isFinite = true ∧ value number = 0 := by
  have finite : number.isFinite = true := by
    have unfolded : number.isFinite = number.toModel.unpack.isFinite := rfl
    rw [unfolded, unpacked]
    rfl
  refine ⟨finite, ?_⟩
  rcases unpack_cases finite with ⟨isZero, -⟩ | ⟨_, _, _, _, -, -, own⟩
  · exact isZero
  · rw [unpacked] at own
    contradiction

theorem unpack_pack_zero (sign : Sign) : (Float.Model.pack (.zero sign)).unpack = .zero sign := by
  cases sign <;> rfl

theorem value_of_ofRounded (isNumber : number.toModel = Float.Model.pack (ofRounded sign rounded goal))
    (finite : number.isFinite = true) (bound : rounded ≤ 2 ^ 53) (least : leastExponent ≤ goal)
    (normal : leastExponent < goal → 2 ^ 52 ≤ rounded) :
    value number = sign.apply rounded * 2 ^ goal := by
  have inRange : rounded = 0 ∨ (if rounded = 2 ^ 53 then goal + 1 else goal) ≤ 971 := by
    apply isFinite_pack_ofRounded.mp
    rw [← isNumber]
    exact finite
  unfold ofRounded at isNumber
  split at isNumber
  next isZero =>
    rw [(value_of_unpack_zero (isNumber ▸ unpack_pack_zero sign)).2, isZero]
    cases sign <;> simp [Sign.apply]
  next notZero =>
    have inRange := inRange.resolve_left notZero
    split at isNumber
    next carry =>
      rw [if_pos carry] at inRange
      have canonical : Magnitude.Canonical ⟨2 ^ 52, goal + 1⟩ :=
        ⟨by norm_num, by simp only; omega, inRange, fun _ => le_rfl⟩
      rw [value_of_unpack (isNumber ▸ unpack_pack_canonical canonical), carry,
        zpow_add_one₀ two_ne_zero]
      cases sign <;> simp only [Sign.apply] <;> push_cast <;> ring
    next fits =>
      rw [if_neg fits] at inRange
      have canonical : Magnitude.Canonical ⟨rounded, goal⟩ :=
        ⟨by simp only; omega, least, inRange, normal⟩
      exact value_of_unpack (isNumber ▸ unpack_pack_canonical canonical)

end Packing

section Rounding

variable {extended : ExtendedMantissa} {number : ℚ} {goal : ℤ}

theorem Locates.abs_roundedMantissa_sub_le (located : Locates extended number) :
    |extended.roundedMantissa - number| ≤ 1 / 2 := by
  have low := located.le
  have high := located.lt
  have middle := located.roundBit_iff
  have whole := located.notSticky
  rw [abs_le]
  obtain ⟨mantissa, roundBit, stickyBit⟩ := extended
  cases roundBit <;> cases stickyBit <;>
    simp only [ExtendedMantissa.roundedMantissa, ExtendedMantissa.accuracy,
      Accuracy.roundToNearestEven, Bool.false_eq_true, false_iff, not_le, true_iff, if_true,
      if_false, reduceCtorEq, IsEmpty.forall_iff, forall_const] at low high middle whole ⊢
  · constructor <;> linarith
  · constructor <;> linarith
  · rcases Nat.mod_two_eq_zero_or_one mantissa with even | odd
    · rw [even]
      push_cast
      constructor <;> linarith
    · rw [odd]
      push_cast
      constructor <;> linarith
  · push_cast
    constructor <;> linarith

/-- Nothing that can be held is nearer to a number than its rounded mantissa. -/
theorem Locates.nearest (located : Locates extended (number / 2 ^ goal))
    (isUnit : IsUnitExponent goal number) {other : ℚ} (representable : Representable other) :
    |extended.roundedMantissa * 2 ^ goal - number| ≤ |other - number| := by
  have positive : (0 : ℚ) < 2 ^ goal := by positivity
  have half := located.abs_roundedMantissa_sub_le
  have scaled (multiple : ℚ) :
      |multiple * 2 ^ goal - number| = |multiple - number / 2 ^ goal| * 2 ^ goal := by
    rw [← abs_of_pos positive, ← abs_mul, abs_of_pos positive, sub_mul,
      div_mul_cancel₀ _ positive.ne']
  -- On the grid of the goal the rounded mantissa is nearest, since it is at most half a unit away.
  have onGrid (count : ℤ) :
      |extended.roundedMantissa * 2 ^ goal - number| ≤ |count * 2 ^ goal - number| := by
    rw [scaled, scaled]
    apply mul_le_mul_of_nonneg_right _ positive.le
    by_cases same : count = extended.roundedMantissa
    · rw [same, Int.cast_natCast]
    · have apart : (1 : ℚ) ≤ |(count : ℚ) - extended.roundedMantissa| := by
        have : 1 ≤ |count - extended.roundedMantissa| := Int.one_le_abs (sub_ne_zero.mpr same)
        exact_mod_cast this
      have triangle := abs_sub_le (count : ℚ) (number / 2 ^ goal) extended.roundedMantissa
      rw [abs_sub_comm (number / 2 ^ goal)] at triangle
      linarith
  obtain ⟨significand, exponent, bound, least, rfl⟩ := representable
  rcases le_or_gt goal exponent with coarse | fine
  · obtain ⟨count, isCount⟩ := OnGrid.refine ⟨significand, rfl⟩ coarse
    rw [isCount]
    exact onGrid count
  · -- A finer number is not above the least number of the goal, and that is on the grid.
    have normal := isUnit.le.resolve_left (by omega)
    have start : (2 : ℚ) ^ (52 + goal) = (2 ^ 52 : ℤ) * 2 ^ goal := by
      rw [zpow_add₀ two_ne_zero]
      norm_num
    have castBound : (significand : ℚ) ≤ 2 ^ 53 := by
      exact_mod_cast (le_abs_self significand).trans bound.le
    have below : (significand : ℚ) * 2 ^ exponent ≤ 2 ^ (52 + goal) := by
      calc (significand : ℚ) * 2 ^ exponent
          ≤ 2 ^ 53 * 2 ^ exponent := mul_le_mul_of_nonneg_right castBound (by positivity)
        _ = 2 ^ (53 + exponent) := by
            rw [zpow_add₀ two_ne_zero]
            rfl
        _ ≤ 2 ^ (52 + goal) := zpow_le_zpow_right₀ one_le_two (by omega)
    have nearer := onGrid (2 ^ 52)
    rw [← start] at nearer
    apply nearer.trans
    rw [abs_of_nonpos (by linarith), abs_of_nonpos (by linarith)]
    linarith

variable {sign : Sign} {mantissa : Nat} {exponent : ℤ} {accuracy : Accuracy} {result : Float}

theorem cast_apply (sign : Sign) (mantissa : Nat) :
    ((sign.apply mantissa : ℤ) : ℚ) = (sign.apply 1 : ℤ) * mantissa := by
  cases sign <;> simp [Sign.apply]

/-- The rounding with an accuracy is correct. -/
theorem roundsTo_roundWithAccuracy
    (located : Locates (.ofMantissaAndAccuracy mantissa accuracy) number)
    (low : exponent ≤ target mantissa exponent) (inRange : number * 2 ^ exponent < rangeEnd)
    (isResult : result.toModel =
      Float.Model.pack (roundWithAccuracy .binary64 sign mantissa exponent accuracy)) :
    RoundsTo ((sign.apply 1 : ℤ) * (number * 2 ^ exponent)) result := by
  have finite : result.isFinite = true := by
    have unfolded : result.isFinite = result.toModel.isFinite := rfl
    rw [unfolded, isResult, isFinite_roundWithAccuracy_iff sign located low]
    exact inRange
  have isUnit := isUnitExponent_target located low
  obtain ⟨extended, shifted, rounded⟩ := roundWithAccuracy_eq sign located low
  rw [rounded] at isResult
  have bound := shifted.mantissa_lt isUnit.units_lt
  have carry := roundedMantissa_bounds extended
  have isValue := value_of_ofRounded isResult finite (by omega) isUnit.least_le fun normal => by
    have := shifted.pow_le_mantissa (isUnit.le.resolve_left (by omega))
    omega
  refine ⟨finite, fun other representable => ?_⟩
  rw [isValue, cast_apply, mul_assoc]
  cases sign with
  | positive =>
      simp only [Sign.apply, Int.cast_one, one_mul]
      exact shifted.nearest isUnit representable
  | negative =>
      have opposite := shifted.nearest isUnit representable.neg
      rw [← abs_neg, ← abs_neg (-other - _)] at opposite
      convert opposite using 2 <;> simp only [Sign.apply, Int.cast_neg, Int.cast_one] <;> ring

theorem roundsTo_round (positive : 0 < mantissa) (inRange : mantissa * 2 ^ exponent < rangeEnd)
    (isResult : result.toModel =
      Float.Model.pack (UnpackedFloat.round .binary64 sign mantissa exponent)) :
    RoundsTo ((sign.apply mantissa : ℤ) * 2 ^ exponent) result := by
  obtain ⟨count, low, rounded⟩ := round_eq sign positive exponent
  rw [rounded] at isResult
  rw [← cast_shiftLeft_mul_zpow mantissa count] at inRange
  rw [cast_apply, mul_assoc, ← cast_shiftLeft_mul_zpow mantissa count]
  exact roundsTo_roundWithAccuracy (locates_exact _) low inRange isResult

theorem roundsTo_zero (isResult : result.toModel = Float.Model.pack (.zero sign)) :
    RoundsTo 0 result := by
  obtain ⟨finite, isValue⟩ := value_of_unpack_zero (isResult ▸ unpack_pack_zero sign)
  refine ⟨finite, fun other _ => ?_⟩
  rw [isValue, sub_zero, abs_zero]
  exact abs_nonneg _

theorem roundsTo_normalize {mantissa : ℤ} (inRange : |(mantissa : ℚ) * 2 ^ exponent| < rangeEnd)
    (isResult : result.toModel = Float.Model.pack (normalize .binary64 mantissa exponent sign)) :
    RoundsTo (mantissa * 2 ^ exponent) result := by
  rw [abs_mul, abs_of_pos (zpow_pos two_pos exponent : (0 : ℚ) < 2 ^ exponent)] at inRange
  unfold UnpackedFloat.normalize at isResult
  rcases compared : compare mantissa 0 with _ | _ | _ <;> rw [compared] at isResult
  · have negative := Int.compare_eq_lt.mp compared
    have size : ((-mantissa).toNat : ℤ) = -mantissa := Int.toNat_of_nonneg (by omega)
    have castSize : ((-mantissa).toNat : ℚ) = |(mantissa : ℚ)| := by
      rw [← Int.cast_abs, abs_of_neg negative, ← Int.cast_natCast, size]
    have rounds := roundsTo_round (by omega) (castSize ▸ inRange) isResult
    rwa [Sign.apply, size, neg_neg] at rounds
  · rw [Int.compare_eq_eq.mp compared, Int.cast_zero, zero_mul]
    exact roundsTo_zero isResult
  · have positive := Int.compare_eq_gt.mp compared
    have size : (mantissa.toNat : ℤ) = mantissa := Int.toNat_of_nonneg (by omega)
    have castSize : (mantissa.toNat : ℚ) = |(mantissa : ℚ)| := by
      rw [← Int.cast_abs, abs_of_pos positive, ← Int.cast_natCast, size]
    have rounds := roundsTo_round (by omega) (castSize ▸ inRange) isResult
    rwa [Sign.apply, size] at rounds

end Rounding

section Operations

variable {first second : Float}

/-- A finite number is made of its own parts again. -/
theorem roundsTo_of_unpack {number result : Float} (finite : number.isFinite = true)
    (isResult : result.toModel = Float.Model.pack number.toModel.unpack) :
    RoundsTo (value number) result := by
  rcases unpack_cases finite with
    ⟨isZero, sign, unpacked⟩ | ⟨sign, mantissa, exponent, positive, canonical, isValue, unpacked⟩
  · rw [unpacked] at isResult
    rw [isZero]
    exact roundsTo_zero isResult
  · rw [unpacked] at isResult
    have restored : result.toModel.unpack = .finite sign mantissa exponent positive :=
      isResult ▸ unpack_pack_canonical canonical
    refine ⟨isFinite_of_unpack restored, fun other _ => ?_⟩
    rw [value_of_unpack restored, isValue, sub_self, abs_zero]
    exact abs_nonneg _

theorem roundsTo_add (finite : first.isFinite = true) (secondFinite : second.isFinite = true)
    (inRange : |value first + value second| < rangeEnd) :
    RoundsTo (value first + value second) (first + second) := by
  have isResult : (first + second).toModel = Float.Model.pack (UnpackedFloat.add .binary64
      first.toModel.unpack second.toModel.unpack) := rfl
  rcases unpack_cases finite with
    ⟨isZero, sign, unpacked⟩ | ⟨sign, mantissa, exponent, positive, -, isValue, unpacked⟩ <;>
  rcases unpack_cases secondFinite with
    ⟨secondIsZero, secondSign, secondUnpacked⟩ |
    ⟨secondSign, secondMantissa, secondExponent, secondPositive, -, secondIsValue, secondUnpacked⟩
  · rw [unpacked, secondUnpacked, UnpackedFloat.add] at isResult
    rw [isZero, secondIsZero, add_zero]
    split at isResult <;> exact roundsTo_zero isResult
  · rw [isZero, zero_add]
    apply roundsTo_of_unpack secondFinite
    rw [isResult, unpacked, secondUnpacked]
    rfl
  · rw [secondIsZero, add_zero]
    apply roundsTo_of_unpack finite
    rw [isResult, unpacked, secondUnpacked]
    rfl
  · -- Both mantissas are moved to the smaller exponent before they are added.
    rw [unpacked, secondUnpacked] at isResult
    rw [isValue, secondIsValue, ← cast_apply_shiftLeft sign mantissa (min_le_left _ secondExponent),
      ← cast_apply_shiftLeft secondSign secondMantissa (min_le_right exponent _), ← add_mul,
      ← Int.cast_add] at inRange ⊢
    exact roundsTo_normalize inRange isResult

theorem apply_neg (sign : Sign) (mantissa : ℤ) : (-sign).apply mantissa = -sign.apply mantissa := by
  cases sign with
  | negative => exact (Int.neg_neg mantissa).symm
  | positive => rfl

theorem unpack_neg (finite : second.isFinite = true) :
    (-second).toModel.unpack = UnpackedFloat.neg second.toModel.unpack := by
  have unfolded : (-second).toModel =
      Float.Model.pack (UnpackedFloat.neg second.toModel.unpack) := rfl
  rw [unfolded]
  rcases unpack_cases finite with
    ⟨-, sign, unpacked⟩ | ⟨sign, mantissa, exponent, positive, canonical, -, unpacked⟩
  · rw [unpacked]
    exact unpack_pack_zero _
  · rw [unpacked]
    exact unpack_pack_canonical canonical

theorem value_neg (finite : second.isFinite = true) :
    (-second).isFinite = true ∧ value (-second) = -value second := by
  have negated := unpack_neg finite
  rcases unpack_cases finite with
    ⟨isZero, sign, unpacked⟩ | ⟨sign, mantissa, exponent, positive, canonical, isValue, unpacked⟩
  · rw [unpacked] at negated
    rw [isZero, neg_zero]
    exact value_of_unpack_zero negated
  · rw [unpacked] at negated
    change (-second).toModel.unpack = .finite (-sign) mantissa exponent positive at negated
    refine ⟨isFinite_of_unpack negated, ?_⟩
    rw [value_of_unpack negated, isValue, apply_neg, Int.cast_neg, neg_mul]

theorem value_abs (finite : second.isFinite = true) :
    second.abs.isFinite = true ∧ value second.abs = |value second| := by
  have unfolded : second.abs.toModel =
      Float.Model.pack (UnpackedFloat.abs second.toModel.unpack) := rfl
  rcases unpack_cases finite with
    ⟨isZero, sign, unpacked⟩ | ⟨sign, mantissa, exponent, positive, canonical, isValue, unpacked⟩
  · rw [unpacked] at unfolded
    rw [isZero, abs_zero]
    exact value_of_unpack_zero (unfolded ▸ unpack_pack_zero _)
  · rw [unpacked] at unfolded
    have absolute : second.abs.toModel.unpack = .finite .positive mantissa exponent positive :=
      unfolded ▸ unpack_pack_canonical canonical
    refine ⟨isFinite_of_unpack absolute, ?_⟩
    rw [value_of_unpack absolute, isValue, abs_mul, abs_apply, abs_zpow, abs_two]
    rfl

/-- A difference is the sum with the negated number. -/
theorem toModel_sub (finite : first.isFinite = true) (secondFinite : second.isFinite = true) :
    (first - second).toModel = (first + -second).toModel := by
  have difference : (first - second).toModel = Float.Model.pack (UnpackedFloat.sub .binary64
      first.toModel.unpack second.toModel.unpack) := rfl
  have sum : (first + -second).toModel = Float.Model.pack (UnpackedFloat.add .binary64
      first.toModel.unpack (-second).toModel.unpack) := rfl
  rw [difference, sum, unpack_neg secondFinite]
  congr 1
  rcases unpack_cases finite with
    ⟨-, sign, unpacked⟩ | ⟨sign, mantissa, exponent, positive, -, -, unpacked⟩ <;>
  rcases unpack_cases secondFinite with
    ⟨-, secondSign, secondUnpacked⟩ |
    ⟨secondSign, secondMantissa, secondExponent, secondPositive, -, -, secondUnpacked⟩ <;>
  rw [unpacked, secondUnpacked]
  · rfl
  · rfl
  · rfl
  · simp only [UnpackedFloat.sub, UnpackedFloat.neg, UnpackedFloat.add, apply_neg, Int.sub_eq_add_neg]

theorem roundsTo_sub (finite : first.isFinite = true) (secondFinite : second.isFinite = true)
    (inRange : |value first - value second| < rangeEnd) :
    RoundsTo (value first - value second) (first - second) := by
  obtain ⟨negatedFinite, isValue⟩ := value_neg secondFinite
  have same : first - second = first + -second :=
    congrArg (fun model => ({ toModel := model } : Float)) (toModel_sub finite secondFinite)
  rw [sub_eq_add_neg, ← isValue] at inRange ⊢
  rw [same]
  exact roundsTo_add finite negatedFinite inRange

theorem apply_mul (sign secondSign : Sign) :
    (sign * secondSign).apply 1 = sign.apply 1 * secondSign.apply 1 := by
  cases sign <;> cases secondSign <;> rfl

theorem abs_apply_one_mul (sign : Sign) (number : ℚ) :
    |((sign.apply 1 : ℤ) : ℚ) * number| = |number| := by
  have unit : |((sign.apply 1 : ℤ) : ℚ)| = 1 := by
    have := abs_apply sign 1
    rwa [Nat.cast_one, Nat.cast_one] at this
  rw [abs_mul, unit, one_mul]

theorem roundsTo_mul (finite : first.isFinite = true) (secondFinite : second.isFinite = true)
    (inRange : |value first * value second| < rangeEnd) :
    RoundsTo (value first * value second) (first * second) := by
  have isResult : (first * second).toModel = Float.Model.pack (UnpackedFloat.mul .binary64
      first.toModel.unpack second.toModel.unpack) := rfl
  rcases unpack_cases finite with
    ⟨isZero, sign, unpacked⟩ | ⟨sign, mantissa, exponent, positive, canonical, isValue, unpacked⟩ <;>
  rcases unpack_cases secondFinite with
    ⟨secondIsZero, secondSign, secondUnpacked⟩ |
    ⟨secondSign, secondMantissa, secondExponent, secondPositive, secondCanonical, secondIsValue,
      secondUnpacked⟩ <;>
  rw [unpacked, secondUnpacked] at isResult
  · rw [isZero, zero_mul]
    exact roundsTo_zero isResult
  · rw [isZero, zero_mul]
    exact roundsTo_zero isResult
  · rw [secondIsZero, mul_zero]
    exact roundsTo_zero isResult
  · have product : value first * value second = ((sign * secondSign).apply 1 : ℤ) *
        (((mantissa * secondMantissa : Nat) : ℚ) * 2 ^ (exponent + secondExponent)) := by
      rw [isValue, secondIsValue, cast_apply, cast_apply secondSign, zpow_add₀ two_ne_zero, apply_mul]
      push_cast
      ring
    have low := add_le_target_mul canonical secondCanonical positive secondPositive
    rw [product, abs_apply_one_mul, abs_of_nonneg (by positivity)] at inRange
    rw [product]
    exact roundsTo_roundWithAccuracy (locates_exact _) low inRange isResult

theorem apply_div (sign secondSign : Sign) :
    (sign / secondSign).apply 1 = sign.apply 1 * secondSign.apply 1 := by
  cases sign <;> cases secondSign <;> rfl

theorem roundsTo_div (finite : first.isFinite = true) (secondFinite : second.isFinite = true)
    (nonzero : value second ≠ 0) (inRange : |value first / value second| < rangeEnd) :
    RoundsTo (value first / value second) (first / second) := by
  have isResult : (first / second).toModel = Float.Model.pack (UnpackedFloat.div .binary64
      first.toModel.unpack second.toModel.unpack) := rfl
  rcases unpack_cases finite with
    ⟨isZero, sign, unpacked⟩ | ⟨sign, dividend, exponent, positive, -, isValue, unpacked⟩ <;>
  rcases unpack_cases secondFinite with
    ⟨secondIsZero, -⟩ |
    ⟨secondSign, divisor, secondExponent, secondPositive, -, secondIsValue, secondUnpacked⟩
  · exact absurd secondIsZero nonzero
  · rw [isZero, zero_div]
    rw [unpacked, secondUnpacked] at isResult
    exact roundsTo_zero isResult
  · exact absurd secondIsZero nonzero
  · rw [unpacked, secondUnpacked] at isResult
    have unfolded : UnpackedFloat.div .binary64 (.finite sign dividend exponent positive)
        (.finite secondSign divisor secondExponent secondPositive) =
      let goal := min (exponent - secondExponent) (Format.binary64.targetExponent
        (totalExponent dividend exponent - totalExponent divisor secondExponent))
      let shifted := dividend <<< (exponent - secondExponent - goal).toNat
      roundWithAccuracy .binary64 (sign / secondSign) (shifted / divisor) goal
        (accuracyOfFraction (shifted % divisor) divisor) := rfl
    rw [unfolded] at isResult
    extract_lets goal shifted at isResult
    have isShift : exponent - secondExponent - goal =
        (exponent - secondExponent - goal).toNat := by omega
    have low := le_target_div positive secondPositive isShift (min_le_right _ _)
    have located := locates_accuracyOfFraction (shifted / divisor)
      (Nat.mod_lt shifted secondPositive)
    have signs : ((secondSign.apply 1 : ℤ) : ℚ) * (secondSign.apply 1 : ℤ) = 1 := by
      cases secondSign <;> norm_num [Sign.apply]
    have quotient : value first / value second = ((sign / secondSign).apply 1 : ℤ) *
        (((shifted / divisor : Nat) + (shifted % divisor : Nat) / divisor : ℚ) * 2 ^ goal) := by
      rw [cast_div_mul_zpow secondPositive isShift, isValue, secondIsValue, cast_apply,
        cast_apply secondSign, apply_div, Int.cast_mul]
      have castPositive : (0 : ℚ) < divisor := by exact_mod_cast secondPositive
      have unitNonzero : ((secondSign.apply 1 : ℤ) : ℚ) ≠ 0 := left_ne_zero_of_mul_eq_one signs
      field_simp
      linear_combination -((sign.apply 1 : ℤ) : ℚ) * signs
    rw [quotient, abs_apply_one_mul, abs_of_nonneg (by positivity)] at inRange
    rw [quotient]
    exact roundsTo_roundWithAccuracy located low inRange isResult

end Operations

end Binary64
end ThroughputCharts
