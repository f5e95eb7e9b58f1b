import ThroughputCharts.Proofs.ThroughputMultiples

/-!
# Results beyond the range

A sum or a product of positive numbers that is not less than the end of the range is infinite.  What is
added to infinity is lost, and a number less infinity is never compared as one that is not negative.
-/

namespace ThroughputCharts
namespace Binary64

open Float.Model UnpackedFloat

/-- The infinity that is above every number. -/
def infinite : Float := Float.ofBits 0x7FF0000000000000

theorem isFinite_infinite : infinite.isFinite = false := by
  decide

section Packing

variable {number : Float} {sign : Sign} {rounded : Nat} {exponent goal : ℤ}

theorem eq_of_toModel {first second : Float} (same : first.toModel = second.toModel) :
    first = second :=
  congrArg (fun model => ({ toModel := model } : Float)) same

theorem eq_infinite_of_ofRounded (notFinite : number.isFinite = false)
    (isNumber : number.toModel = Float.Model.pack (ofRounded .positive rounded goal)) :
    number = infinite := by
  apply eq_of_toModel
  have past : ¬ (Float.Model.pack (ofRounded .positive rounded goal)).isFinite = true := by
    rw [← isNumber]
    exact Bool.eq_false_iff.mp notFinite
  rw [isFinite_pack_ofRounded, not_or] at past
  obtain ⟨notZero, large⟩ := past
  rw [isNumber, ofRounded, dif_neg notZero]
  split
  next carry =>
    rw [if_pos carry] at large
    exact pack_finite_of_lt (not_le.mp large)
  next fits =>
    rw [if_neg fits] at large
    exact pack_finite_of_lt (not_le.mp large)

theorem eq_infinite_of_normalize {mantissa : ℤ} (positive : 0 < mantissa)
    (notFinite : number.isFinite = false)
    (isNumber : number.toModel = Float.Model.pack (normalize .binary64 mantissa exponent sign)) :
    number = infinite := by
  unfold UnpackedFloat.normalize at isNumber
  rw [Int.compare_eq_gt.mpr positive] at isNumber
  have natPositive : 0 < mantissa.toNat := by omega
  obtain ⟨count, low, isRounded⟩ := round_eq .positive natPositive exponent
  obtain ⟨extended, -, packed⟩ := roundWithAccuracy_eq .positive (locates_exact _) low
  exact eq_infinite_of_ofRounded notFinite (isNumber.trans (congrArg _ (isRounded.trans packed)))

end Packing

section Sums

variable {first second : Float} {exact other : ℚ}

theorem Denotes.exists_canonical (denotes : Denotes first exact) (positive : 0 < exact) :
    ∃ mantissa exponent, ∃ mantissaPositive : 0 < mantissa,
      Magnitude.Canonical ⟨mantissa, exponent⟩ ∧
        first.toModel.unpack = .finite .positive mantissa exponent mantissaPositive := by
  obtain ⟨mantissa, exponent, mantissaPositive, unpacked⟩ := denotes.exists_unpack positive
  rcases unpack_cases denotes.finite with ⟨-, sign, isZero⟩ |
    ⟨sign, own, ownExponent, ownPositive, canonical, -, own⟩
  · rw [isZero] at unpacked
    contradiction
  · rw [own] at unpacked
    obtain ⟨rfl, rfl, rfl⟩ := UnpackedFloat.finite.inj unpacked
    exact ⟨_, _, _, canonical, own⟩

/-- A sum of positive numbers beyond the range is infinite. -/
theorem add_eq_infinite (isFirst : Denotes first exact) (isSecond : Denotes second other)
    (positive : 0 < exact) (otherPositive : 0 < other) (past : rangeEnd ≤ exact + other) :
    first + second = infinite := by
  have notFinite : (first + second).isFinite = false := by
    rw [← Bool.not_eq_true, isFinite_add_iff isFirst.finite isSecond.finite, isFirst.value_eq,
      isSecond.value_eq, not_lt]
    exact past.trans (le_abs_self _)
  obtain ⟨mantissa, exponent, mantissaPositive, -, unpacked⟩ := isFirst.exists_canonical positive
  obtain ⟨secondMantissa, secondExponent, secondPositive, -, secondUnpacked⟩ :=
    isSecond.exists_canonical otherPositive
  have isSum : (first + second).toModel = Float.Model.pack (UnpackedFloat.add .binary64
      first.toModel.unpack second.toModel.unpack) := rfl
  rw [unpacked, secondUnpacked] at isSum
  have placed (mantissa shift : Nat) (positive : 0 < mantissa) :
      0 < Sign.positive.apply (mantissa <<< shift : Nat) := by
    rw [Nat.shiftLeft_eq, Sign.apply]
    positivity
  exact eq_infinite_of_normalize
    (add_pos (placed _ _ mantissaPositive) (placed _ _ secondPositive)) notFinite isSum

theorem add_cases (isFirst : Denotes first exact) (isSecond : Denotes second other)
    (nonneg : 0 ≤ exact) (positive : 0 < other) :
    first + second = infinite ∨ RoundsTo (exact + other) (first + second) := by
  rcases lt_or_ge (exact + other) rangeEnd with fits | past
  · right
    have rounds := roundsTo_add isFirst.finite isSecond.finite
      (by rw [isFirst.value_eq, isSecond.value_eq, abs_of_nonneg (by linarith)]; exact fits)
    rwa [isFirst.value_eq, isSecond.value_eq] at rounds
  · left
    have secondFits := abs_value_lt_rangeEnd isSecond.finite
    rw [isSecond.value_eq, abs_of_pos positive] at secondFits
    exact add_eq_infinite isFirst isSecond (by linarith) positive past

/-- A product of positive numbers beyond the range is infinite. -/
theorem mul_eq_infinite (isFirst : Denotes first exact) (isSecond : Denotes second other)
    (positive : 0 < exact) (otherPositive : 0 < other) (past : rangeEnd ≤ exact * other) :
    first * second = infinite := by
  have notFinite : (first * second).isFinite = false := by
    rw [← Bool.not_eq_true, isFinite_mul_iff isFirst.finite isSecond.finite, isFirst.value_eq,
      isSecond.value_eq, not_lt]
    exact past.trans (le_abs_self _)
  obtain ⟨mantissa, exponent, mantissaPositive, canonical, unpacked⟩ :=
    isFirst.exists_canonical positive
  obtain ⟨secondMantissa, secondExponent, secondPositive, secondCanonical, secondUnpacked⟩ :=
    isSecond.exists_canonical otherPositive
  have isProduct : (first * second).toModel = Float.Model.pack (UnpackedFloat.mul .binary64
      first.toModel.unpack second.toModel.unpack) := rfl
  have low := add_le_target_mul canonical secondCanonical mantissaPositive secondPositive
  obtain ⟨extended, -, rounded⟩ := roundWithAccuracy_eq .positive (locates_exact _) low
  rw [unpacked, secondUnpacked] at isProduct
  exact eq_infinite_of_ofRounded notFinite (isProduct.trans (congrArg _ rounded))

theorem mul_cases (isFirst : Denotes first exact) (isSecond : Denotes second other)
    (positive : 0 < exact) (otherPositive : 0 < other) :
    first * second = infinite ∨ RoundsTo (exact * other) (first * second) := by
  rcases lt_or_ge (exact * other) rangeEnd with fits | past
  · right
    have rounds := roundsTo_mul isFirst.finite isSecond.finite
      (by
        rw [isFirst.value_eq, isSecond.value_eq, abs_of_pos (mul_pos positive otherPositive)]
        exact fits)
    rwa [isFirst.value_eq, isSecond.value_eq] at rounds
  · exact .inl (mul_eq_infinite isFirst isSecond positive otherPositive past)

end Sums

section Infinity

variable {number : Float} {exact : ℚ}

theorem infinite_add (denotes : Denotes number exact) : infinite + number = infinite := by
  have isSum : (infinite + number).toModel = Float.Model.pack (UnpackedFloat.add .binary64
      (.infinity .positive) number.toModel.unpack) := rfl
  rcases unpack_cases denotes.finite with ⟨-, sign, unpacked⟩ | ⟨_, _, _, _, -, -, unpacked⟩ <;>
    rw [unpacked] at isSum <;> exact eq_of_toModel isSum

theorem sub_infinite (denotes : Denotes number exact) : number - infinite = -infinite := by
  have isDifference : (number - infinite).toModel = Float.Model.pack (UnpackedFloat.sub .binary64
      number.toModel.unpack (.infinity .positive)) := rfl
  rcases unpack_cases denotes.finite with ⟨-, sign, unpacked⟩ | ⟨_, _, _, _, -, -, unpacked⟩ <;>
    rw [unpacked] at isDifference <;> exact eq_of_toModel isDifference

theorem neg_infinite_sub (denotes : Denotes number exact) : -infinite - number = -infinite := by
  have isDifference : (-infinite - number).toModel = Float.Model.pack (UnpackedFloat.sub .binary64
      (.infinity .negative) number.toModel.unpack) := rfl
  rcases unpack_cases denotes.finite with ⟨-, sign, unpacked⟩ | ⟨_, _, _, _, -, -, unpacked⟩ <;>
    rw [unpacked] at isDifference <;> exact eq_of_toModel isDifference

theorem sub_neg_infinite (denotes : Denotes number exact) : number - -infinite = infinite := by
  have isDifference : (number - -infinite).toModel = Float.Model.pack (UnpackedFloat.sub .binary64
      number.toModel.unpack (.infinity .negative)) := rfl
  rcases unpack_cases denotes.finite with ⟨-, sign, unpacked⟩ | ⟨_, _, _, _, -, -, unpacked⟩ <;>
    rw [unpacked] at isDifference <;> exact eq_of_toModel isDifference

theorem infinite_div (denotes : Denotes number exact) (positive : 0 < exact) :
    infinite / number = infinite := by
  obtain ⟨mantissa, exponent, mantissaPositive, unpacked⟩ := denotes.exists_unpack positive
  have isQuotient : (infinite / number).toModel = Float.Model.pack (UnpackedFloat.div .binary64
      (.infinity .positive) number.toModel.unpack) := rfl
  rw [unpacked] at isQuotient
  exact eq_of_toModel isQuotient

/-- Less infinity there is no number, or the infinity below every number. -/
theorem sub_infinite_cases (number : Float) :
    number - infinite = 0.0 / 0.0 ∨ number - infinite = -infinite := by
  have isDifference : (number - infinite).toModel = Float.Model.pack (UnpackedFloat.sub .binary64
      number.toModel.unpack (.infinity .positive)) := rfl
  rcases unpacked : number.toModel.unpack with (_ | _) | _ | _ | _ <;> rw [unpacked] at isDifference
  · exact .inr (eq_of_toModel isDifference)
  · exact .inl (eq_of_toModel isDifference)
  · exact .inl (eq_of_toModel isDifference)
  · exact .inr (eq_of_toModel isDifference)
  · exact .inr (eq_of_toModel isDifference)

end Infinity

end Binary64
end ThroughputCharts
