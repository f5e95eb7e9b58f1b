import ThroughputCharts.Proofs.NearestEven
import ThroughputCharts.Proofs.OrderOfMagnitude

/-!
# Rounding errors in proportion

Rounding keeps the order of numbers, and away from the ends of the range its error is at most one part
in `2 ^ 53`.  Products, quotients and sums of a few numbers that are known up to a small proportion are
known almost as well, and so are the powers of ten.
-/

namespace ThroughputCharts
namespace Binary64

section Order

variable {number other : ℚ} {result otherResult : Float} {exact : ℚ}

/-- Rounding keeps the order of numbers. -/
theorem RoundsTo.value_le_value (rounds : RoundsTo number result)
    (otherRounds : RoundsTo other otherResult) (less : number < other) :
    value result ≤ value otherResult := by
  by_contra greater
  have inverted := not_le.mp greater
  have nearest := rounds.nearest _ (representable_value otherRounds.finite)
  have otherNearest := otherRounds.nearest _ (representable_value rounds.finite)
  rw [abs_sub_le_of_lt_iff inverted] at nearest
  rw [abs_sub_le_of_gt_iff inverted] at otherNearest
  linarith

/-- There is one number only for each positive value. -/
theorem Denotes.unique (denotes : Denotes result exact) (otherDenotes : Denotes otherResult exact)
    (positive : 0 < exact) : result = otherResult := by
  have fraction : exact = (exact.num.toNat : ℚ) / exact.den := by
    conv_lhs => rw [← Rat.num_div_den exact, ← Int.toNat_of_nonneg (Rat.num_nonneg.mpr positive.le)]
    rfl
  have isNearest {held : Float} (denotes : Denotes held exact) :
      nearest false exact.num.toNat exact.den = held := by
    obtain ⟨magnitude, isParts, isValue⟩ := denotes.exists_parts positive
    have attracts := magnitude.attracts_toRat
    rw [isValue, fraction] at attracts
    exact nearest_eq_of_attracts isParts exact.den_pos attracts
  exact (isNearest denotes).symm.trans (isNearest otherDenotes)

end Order

section Proportion

variable {number bound : ℚ} {result : Float}

/-- The error of rounding is at most one part in `2 ^ 53` of a bound on the number. -/
theorem RoundsTo.abs_sub_le_div (rounds : RoundsTo number result)
    (large : 2 ^ (-1022 : ℤ) ≤ bound) (small : |number| ≤ bound) :
    |value result - number| ≤ bound / 2 ^ 53 := by
  have positive : 0 < bound := large.trans_lt' (by positivity)
  obtain ⟨place, low, high⟩ := exists_mem_Ico_zpow positive (one_lt_two (α := ℚ))
  have least : leastExponent ≤ place - 52 := by
    have powers := large.trans_lt high
    rw [zpow_lt_zpow_iff_right₀ (one_lt_two (α := ℚ))] at powers
    simp only [leastExponent]
    omega
  have places : (2 : ℚ) ^ (53 + (place - 52)) = 2 ^ (place + 1) := by
    congr 1
    ring
  calc |value result - number| ≤ 2 ^ (place - 52 - 1) :=
        rounds.abs_sub_le least (by rw [places]; exact small.trans high.le)
    _ = 2 ^ place / 2 ^ (53 : ℤ) := by
        rw [← zpow_sub₀ two_ne_zero]
        congr 1
        ring
    _ ≤ bound / 2 ^ 53 := div_le_div_of_nonneg_right low (by positivity)

end Proportion

/-- A number differs from an exact one by at most a count of parts in `2 ^ 52`. -/
structure Near (errors : Nat) (exact number : ℚ) : Prop where
  low : exact * (1 - errors / 2 ^ 52) ≤ number
  high : number ≤ exact * (1 + errors / 2 ^ 52)

namespace Near

variable {errors others : Nat} {exact other number otherNumber : ℚ}

theorem refl (exact : ℚ) : Near 0 exact exact := by
  constructor <;> simp

theorem mono (near : Near errors exact number) (nonneg : 0 ≤ exact) (more : errors ≤ others) :
    Near others exact number := by
  have castMore : (errors : ℚ) ≤ others := by exact_mod_cast more
  have scaled := mul_le_mul_of_nonneg_left castMore nonneg
  exact ⟨by linarith [near.low], by linarith [near.high]⟩

/-- Few errors are a small proportion. -/
theorem share_le (few : errors ≤ 1000) : (errors : ℚ) / 2 ^ 52 ≤ 1 / 2 ^ 42 := by
  have castFew : (errors : ℚ) ≤ 1000 := by exact_mod_cast few
  linarith

theorem share_nonneg (errors : Nat) : 0 ≤ (errors : ℚ) / 2 ^ 52 := by
  positivity

theorem share_add_add_one (errors others : Nat) :
    ((errors + others + 1 : Nat) : ℚ) / 2 ^ 52 = errors / 2 ^ 52 + others / 2 ^ 52 + 1 / 2 ^ 52 := by
  push_cast
  ring

theorem abs_sub_le (near : Near errors exact number) (nonneg : 0 ≤ exact) (few : errors ≤ 1000) :
    |number - exact| ≤ exact / 2 ^ 42 := by
  have share := mul_le_mul_of_nonneg_left (share_le few) nonneg
  rw [abs_le]
  constructor <;> linarith [near.low, near.high]

theorem half_le (near : Near errors exact number) (nonneg : 0 ≤ exact) (few : errors ≤ 1000) :
    exact / 2 ≤ number ∧ number ≤ exact * 2 := by
  obtain ⟨low, high⟩ := abs_le.mp (near.abs_sub_le nonneg few)
  constructor <;> linarith

theorem mul (near : Near errors exact number) (otherNear : Near others other otherNumber)
    (nonneg : 0 ≤ exact) (otherNonneg : 0 ≤ other) (few : errors ≤ 1000) (otherFew : others ≤ 1000) :
    Near (errors + others + 1) (exact * other) (number * otherNumber) := by
  have share := share_le few
  have otherShare := share_le otherFew
  have errorNonneg := share_nonneg errors
  have otherErrorNonneg := share_nonneg others
  have numberNonneg : 0 ≤ number := by linarith [(near.half_le nonneg few).1]
  have otherNumberNonneg : 0 ≤ otherNumber := by
    linarith [(otherNear.half_le otherNonneg otherFew).1]
  obtain ⟨low, high⟩ := near
  obtain ⟨otherLow, otherHigh⟩ := otherNear
  have product := mul_nonneg nonneg otherNonneg
  constructor <;> rw [share_add_add_one]
  all_goals
    generalize (errors : ℚ) / 2 ^ 52 = error at *
    generalize (others : ℚ) / 2 ^ 52 = otherError at *
  · calc exact * other * (1 - (error + otherError + 1 / 2 ^ 52))
        ≤ exact * other * ((1 - error) * (1 - otherError)) :=
          mul_le_mul_of_nonneg_left (by nlinarith) product
      _ = exact * (1 - error) * (other * (1 - otherError)) := by ring
      _ ≤ number * otherNumber :=
          mul_le_mul low otherLow (mul_nonneg otherNonneg (by linarith)) numberNonneg
  · calc number * otherNumber
        ≤ exact * (1 + error) * (other * (1 + otherError)) :=
          mul_le_mul high otherHigh otherNumberNonneg (mul_nonneg nonneg (by linarith))
      _ = exact * other * ((1 + error) * (1 + otherError)) := by ring
      _ ≤ exact * other * (1 + (error + otherError + 1 / 2 ^ 52)) :=
          mul_le_mul_of_nonneg_left (by nlinarith) product

theorem div (near : Near errors exact number) (otherNear : Near others other otherNumber)
    (nonneg : 0 ≤ exact) (otherPositive : 0 < other) (few : errors ≤ 1000) (otherFew : others ≤ 1000) :
    Near (errors + others + 1) (exact / other) (number / otherNumber) := by
  have share := share_le few
  have otherShare := share_le otherFew
  have errorNonneg := share_nonneg errors
  have otherErrorNonneg := share_nonneg others
  have otherNumberPositive : 0 < otherNumber := by
    linarith [(otherNear.half_le otherPositive.le otherFew).1]
  obtain ⟨low, high⟩ := near
  obtain ⟨otherLow, otherHigh⟩ := otherNear
  have quotient := div_nonneg nonneg otherPositive.le
  constructor <;> rw [share_add_add_one]
  all_goals
    generalize (errors : ℚ) / 2 ^ 52 = error at *
    generalize (others : ℚ) / 2 ^ 52 = otherError at *
  · rw [le_div_iff₀ otherNumberPositive]
    have factor : 0 ≤ 1 - (error + otherError + 1 / 2 ^ 52) := by linarith
    calc exact / other * (1 - (error + otherError + 1 / 2 ^ 52)) * otherNumber
        ≤ exact / other * (1 - (error + otherError + 1 / 2 ^ 52)) * (other * (1 + otherError)) :=
          mul_le_mul_of_nonneg_left otherHigh (mul_nonneg quotient factor)
      _ = exact * ((1 - (error + otherError + 1 / 2 ^ 52)) * (1 + otherError)) := by
          field_simp
      _ ≤ exact * (1 - error) := mul_le_mul_of_nonneg_left (by nlinarith) nonneg
      _ ≤ number := low
  · rw [div_le_iff₀ otherNumberPositive]
    have factor : 0 ≤ 1 + (error + otherError + 1 / 2 ^ 52) := by linarith
    calc number ≤ exact * (1 + error) := high
      _ ≤ exact * ((1 + (error + otherError + 1 / 2 ^ 52)) * (1 - otherError)) :=
          mul_le_mul_of_nonneg_left (by nlinarith) nonneg
      _ = exact / other * (1 + (error + otherError + 1 / 2 ^ 52)) * (other * (1 - otherError)) := by
          field_simp
      _ ≤ exact / other * (1 + (error + otherError + 1 / 2 ^ 52)) * otherNumber :=
          mul_le_mul_of_nonneg_left otherLow (mul_nonneg quotient factor)

theorem add (near : Near errors exact number) (otherNear : Near errors other otherNumber) :
    Near errors (exact + other) (number + otherNumber) := by
  obtain ⟨low, high⟩ := near
  obtain ⟨otherLow, otherHigh⟩ := otherNear
  constructor <;> rw [add_mul] <;> linarith

end Near

/-- The positive numbers far from both ends of the range. -/
structure Central (exact : ℚ) : Prop where
  low : 2 ^ (-1000 : ℤ) ≤ exact
  high : exact ≤ 2 ^ (1010 : ℤ)

section Central

variable {exact number : ℚ}

theorem Central.pos (central : Central exact) : 0 < exact :=
  central.low.trans_lt' (by positivity)

theorem Central.least_le (central : Central exact) (atLeast : exact / 2 ≤ number) :
    2 ^ (-1022 : ℤ) ≤ number := by
  have half : (2 : ℚ) ^ (-1022 : ℤ) ≤ 2 ^ (-1000 : ℤ) / 2 := by
    rw [div_eq_mul_inv, ← zpow_sub_one₀ two_ne_zero]
    exact zpow_le_zpow_right₀ one_le_two (by decide)
  exact half.trans ((div_le_div_of_nonneg_right central.low zero_le_two).trans atLeast)

theorem Central.abs_lt_rangeEnd (central : Central exact) (nonneg : 0 ≤ number)
    (atMost : number ≤ exact * 2) : |number| < rangeEnd := by
  have double : (2 : ℚ) ^ (1010 : ℤ) * 2 ≤ 2 ^ (52 + 971 : ℤ) := by
    rw [← zpow_add_one₀ two_ne_zero]
    exact zpow_le_zpow_right₀ one_le_two (by decide)
  rw [abs_of_nonneg nonneg]
  exact ((atMost.trans (mul_le_mul_of_nonneg_right central.high zero_le_two)).trans
    double).trans_lt pow_lt_rangeEnd

end Central

/-- A finite number is known up to a count of parts in `2 ^ 52`. -/
structure Approximates (errors : Nat) (exact : ℚ) (number : Float) : Prop where
  finite : number.isFinite = true
  near : Near errors exact (value number)
  central : Central exact

section Approximation

variable {errors others : Nat} {exact other rounded : ℚ} {number second : Float}

theorem Denotes.approximates (denotes : Denotes number exact) (central : Central exact) :
    Approximates 0 exact number :=
  ⟨denotes.finite, denotes.value_eq ▸ Near.refl exact, central⟩

/-- Rounding adds one error. -/
theorem approximates_of_roundsTo (rounds : RoundsTo rounded number) (near : Near errors exact rounded)
    (central : Central exact) (few : errors ≤ 999) : Approximates (errors + 1) exact number := by
  have nonneg := central.pos.le
  have bounds := near.half_le nonneg (few.trans (by decide))
  have size : |rounded| ≤ rounded := (abs_of_nonneg (by linarith)).le
  obtain ⟨below, above⟩ :=
    abs_le.mp (rounds.abs_sub_le_div (central.least_le bounds.1) size)
  have share := mul_le_mul_of_nonneg_left (Near.share_le (few.trans (by decide))) nonneg
  have shareNonneg := mul_nonneg nonneg (Near.share_nonneg errors)
  obtain ⟨low, high⟩ := near
  refine ⟨rounds.finite, ⟨?_, ?_⟩, central⟩
  · push_cast
    linarith
  · push_cast
    linarith

namespace Approximates

theorem denotes_value (approximates : Approximates errors exact number) :
    Denotes number (value number) :=
  ⟨approximates.finite, rfl⟩

theorem mono (approximates : Approximates errors exact number) (more : errors ≤ others) :
    Approximates others exact number :=
  ⟨approximates.finite, approximates.near.mono approximates.central.pos.le more,
    approximates.central⟩

theorem value_pos (approximates : Approximates errors exact number) (few : errors ≤ 1000) :
    0 < value number := by
  have positive := approximates.central.pos
  linarith [(approximates.near.half_le positive.le few).1]

theorem mul (approximates : Approximates errors exact number)
    (secondApproximates : Approximates others other second) (central : Central (exact * other))
    (few : errors + others ≤ 900) :
    Approximates (errors + others + 2) (exact * other) (number * second) := by
  have near := approximates.near.mul secondApproximates.near approximates.central.pos.le
    secondApproximates.central.pos.le (by omega) (by omega)
  obtain ⟨low, high⟩ := near.half_le central.pos.le (by omega)
  have positive := central.pos
  exact approximates_of_roundsTo (roundsTo_mul approximates.finite secondApproximates.finite
    (central.abs_lt_rangeEnd (by linarith) high)) near central (by omega)

theorem div (approximates : Approximates errors exact number)
    (secondApproximates : Approximates others other second) (central : Central (exact / other))
    (few : errors + others ≤ 900) :
    Approximates (errors + others + 2) (exact / other) (number / second) := by
  have near := approximates.near.div secondApproximates.near approximates.central.pos.le
    secondApproximates.central.pos (by omega) (by omega)
  obtain ⟨low, high⟩ := near.half_le central.pos.le (by omega)
  have positive := central.pos
  exact approximates_of_roundsTo (roundsTo_div approximates.finite secondApproximates.finite
    (secondApproximates.value_pos (by omega)).ne' (central.abs_lt_rangeEnd (by linarith) high)) near
    central (by omega)

theorem add (approximates : Approximates errors exact number)
    (secondApproximates : Approximates errors other second) (central : Central (exact + other))
    (few : errors ≤ 900) : Approximates (errors + 1) (exact + other) (number + second) := by
  have near := approximates.near.add secondApproximates.near
  obtain ⟨low, high⟩ := near.half_le central.pos.le (by omega)
  have positive := central.pos
  exact approximates_of_roundsTo (roundsTo_add approximates.finite secondApproximates.finite
    (central.abs_lt_rangeEnd (by linarith) high)) near central (by omega)

end Approximates

end Approximation

section Exactness

variable {number other : ℚ} {count : Nat} {result : Float}

/-- Below a positive whole number there is one that can be held, by at most two parts in `2 ^ 53`. -/
theorem exists_representable_below (positive : 0 < count) (small : count < 2 ^ 53) :
    ∃ below, Representable below ∧ below < count ∧ count - below < (count : ℚ) / 2 ^ 52 := by
  have castPositive : (0 : ℚ) < count := by exact_mod_cast positive
  obtain ⟨place, low, high⟩ := exists_mem_Ico_zpow castPositive (one_lt_two (α := ℚ))
  have nonneg : 0 ≤ place := by
    have least : (2 : ℚ) ^ (0 : ℤ) < 2 ^ (place + 1) := by
      rw [zpow_zero]
      exact lt_of_le_of_lt (by exact_mod_cast positive) high
    rw [zpow_lt_zpow_iff_right₀ (one_lt_two (α := ℚ))] at least
    omega
  have bounded : place - 52 ≤ 0 := by
    have castSmall : (count : ℚ) < 2 ^ (53 : ℤ) := by exact_mod_cast small
    have powers := low.trans_lt castSmall
    rw [zpow_lt_zpow_iff_right₀ (one_lt_two (α := ℚ))] at powers
    omega
  have unit (shift : ℤ) : (2 : ℚ) ^ (place - shift) = 2 ^ place / 2 ^ shift :=
    zpow_sub₀ two_ne_zero place shift
  have powerPositive : (0 : ℚ) < 2 ^ place := by positivity
  have least : leastExponent ≤ place - 53 := by
    simp only [leastExponent]
    omega
  rcases low.eq_or_lt with isPower | above
  · -- Below a power of two the grid is finer.
    refine ⟨(2 ^ 53 - 1 : ℤ) * 2 ^ (place - 53), representable_of_abs_le (by norm_num) least, ?_, ?_⟩
    all_goals
      rw [unit, ← isPower]
      norm_num
      linarith
  · have onGrid : OnGrid (place - 52) ((count : ℤ) - (1 : ℤ) * 2 ^ (place - 52)) :=
      (onGrid_intCast bounded _).sub ⟨1, rfl⟩
    have places : (2 : ℚ) ^ (53 + (place - 52)) = 2 ^ (place + 1) := by
      congr 1
      ring
    have step : (2 : ℚ) ^ (place - 52) = 2 ^ place / 2 ^ 52 := unit 52
    refine ⟨_, onGrid.representable (by omega) ?_, ?_, ?_⟩
    all_goals
      push_cast
      rw [one_mul]
    · rw [places, step, abs_of_nonneg (by linarith)]
      linarith
    · rw [step]
      linarith
    · rw [step]
      linarith

/-- A rounded quotient reaches a whole number only if the exact one does. -/
theorem RoundsTo.quotient_lt (rounds : RoundsTo (number / other) result)
    (representable : Representable number) (multiple : Representable (count * other))
    (positive : 0 < other) (countPositive : 0 < count) (small : count < 2 ^ 53)
    (less : number < count * other) : value result < count := by
  have castPositive : (0 : ℚ) < count := by exact_mod_cast countPositive
  have gap := multiple.gap_below representable (mul_pos castPositive positive) less
  have whole : Representable count := by
    have bound : |(count : ℤ)| ≤ 2 ^ 53 := by
      rw [Nat.abs_cast]
      exact_mod_cast small.le
    have held := representable_intCast bound
    rwa [Int.cast_natCast] at held
  have quotientGap : number / other ≤ count - count / 2 ^ 53 := by
    rw [div_le_iff₀ positive, sub_mul]
    have unit : count * other * 2 ^ (-53 : ℤ) = count / 2 ^ 53 * other := by
      rw [zpow_neg, ← div_eq_mul_inv]
      norm_cast
      ring
    rw [unit] at gap
    linarith
  have shortOf : number / other ≤ count := by
    have : (0 : ℚ) ≤ count / 2 ^ 53 := by positivity
    linarith
  refine lt_of_le_of_ne (rounds.value_le whole shortOf) fun reached => ?_
  -- The number that can be held just below is nearer.
  obtain ⟨below, held, belowLess, near⟩ := exists_representable_below countPositive small
  have nearest := rounds.nearest below held
  rw [reached, abs_sub_le_of_lt_iff belowLess] at nearest
  linarith

end Exactness

section Powers

variable {numerator denominator : Nat} {power : ℤ}

theorem roundsTo_nearest (positive : 0 < denominator)
    (inRange : (numerator / denominator : ℚ) < rangeEnd) :
    RoundsTo (numerator / denominator) (nearest false numerator denominator) := by
  obtain ⟨magnitude, canonical, attracts⟩ := exists_attracts positive inRange
  obtain ⟨number, isParts⟩ := canonical.exists_parts false
  rw [nearest_eq_of_attracts isParts positive attracts]
  exact ((roundsToEven_withSign_iff isParts (by positivity)).mpr attracts).toRoundsTo

theorem powerOfTen_eq_nearest (regular : power ∉ raisedExponents) :
    powerOfTen power = nearest false (Nat.pow 10 power.toNat) (Nat.pow 10 (-power).toNat) := by
  simp only [powerOfTen, nearest, if_neg regular, Bool.false_eq_true, if_false]

theorem cast_pow_div_cast_pow (power : ℤ) :
    ((Nat.pow 10 power.toNat : Nat) : ℚ) / (Nat.pow 10 (-power).toNat : Nat) = 10 ^ power := by
  rw [zpow_eq_div (by norm_num : (10 : ℚ) ≠ 0)]
  push_cast [Nat.pow_eq]
  rfl

/-- A magnitude that is near a power of ten, in whole numbers. -/
theorem approximates_raised {exponent significand shift : Nat}
    (isParts : parts (powerOfTen exponent) = .finite false ⟨significand, shift⟩)
    (low : 10 ^ exponent * (2 ^ 52 - 2) ≤ significand * 2 ^ shift * 2 ^ 52)
    (high : significand * 2 ^ shift * 2 ^ 52 ≤ 10 ^ exponent * (2 ^ 52 + 2))
    (central : Central (10 ^ (exponent : ℤ))) :
    Approximates 2 (10 ^ (exponent : ℤ)) (powerOfTen exponent) := by
  have denotes := denotes_of_parts isParts
  refine ⟨denotes.finite, ?_, central⟩
  have isValue : Magnitude.toRat ⟨significand, shift⟩ = significand * 2 ^ shift := by
    rw [Magnitude.toRat, zpow_natCast]
  rw [denotes.value_eq, isValue, zpow_natCast]
  have castLow : (10 : ℚ) ^ exponent * ((2 ^ 52 - 2 : Nat) : ℚ) ≤ significand * 2 ^ shift * 2 ^ 52 := by
    exact_mod_cast low
  have castHigh : (significand : ℚ) * 2 ^ shift * 2 ^ 52 ≤ 10 ^ exponent * (2 ^ 52 + 2) := by
    exact_mod_cast high
  norm_num at castLow castHigh
  constructor <;> push_cast <;> linarith

theorem roundsTo_powerOfTen (regular : power ∉ raisedExponents) (inRange : 10 ^ power < rangeEnd) :
    RoundsTo (10 ^ power) (powerOfTen power) := by
  rw [powerOfTen_eq_nearest regular]
  have exact := cast_pow_div_cast_pow power
  rw [← exact] at inRange ⊢
  exact roundsTo_nearest (Nat.pow_pos (by decide)) inRange

/-- A power of ten is known up to two errors. -/
theorem approximates_powerOfTen (central : Central (10 ^ power)) :
    Approximates 2 (10 ^ power) (powerOfTen power) := by
  by_cases raised : power ∈ raisedExponents
  · simp only [raisedExponents, List.mem_cons, List.not_mem_nil, or_false] at raised
    rcases raised with rfl | rfl
    · exact @approximates_raised 23 5960464477539063 24 (by decide +kernel) (by decide +kernel)
        (by decide +kernel) central
    · exact @approximates_raised 210 6849404215651260 645 (by decide +kernel) (by decide +kernel)
        (by decide +kernel) central
  · have size := central.abs_lt_rangeEnd central.pos.le (by linarith [central.pos])
    rw [abs_of_pos central.pos] at size
    have rounds := roundsTo_powerOfTen raised size
    exact (approximates_of_roundsTo rounds (Near.refl _) central (by decide)).mono (by decide)

/-- The powers of ten up to 53 places are exact. -/
theorem denotes_powerOfTen {exponent : Nat} (small : exponent ≤ 15) :
    Denotes (powerOfTen exponent) (((10 ^ exponent : Nat) : ℤ) : ℚ) := by
  have regular : (exponent : ℤ) ∉ raisedExponents := by
    simp only [raisedExponents, List.mem_cons, List.not_mem_nil, or_false]
    omega
  have isWhole : Nat.pow 10 (-(exponent : ℤ)).toNat = 1 := by
    rw [Int.toNat_eq_zero.mpr (by omega)]
  rw [powerOfTen_eq_nearest regular, isWhole, Int.toNat_natCast]
  have places : (10 : Nat) ^ exponent < 2 ^ 53 :=
    (Nat.pow_le_pow_right (by decide) small).trans_lt (by decide)
  exact denotes_nearest false places

end Powers

end Binary64
end ThroughputCharts
