import ThroughputCharts.Axis.Labels
import ThroughputCharts.Proofs.NumberText
import ThroughputCharts.Proofs.RelativeError

/-!
# Throughput labels read as numbers

A throughput label is read as the number in front of its unit.  What it shows is a whole number or one
place, rounded to the nearest with ties to even, and the units meet at their borders, so that a greater
throughput never shows a smaller number.
-/

namespace ThroughputCharts

open Binary64

namespace Decimal

/-- A whole number is nearest to a number, and the even one if two are. -/
def NearestEven (whole : ℤ) (number : ℚ) : Prop :=
  Within (Even whole) (whole - 1 / 2) number (whole + 1 / 2)

section Nearest

variable {whole other : ℤ} {number otherNumber : ℚ}

/-- The nearest whole number does not decrease. -/
theorem NearestEven.le (nearest : NearestEven whole number)
    (otherNearest : NearestEven other otherNumber) (ordered : number ≤ otherNumber) :
    whole ≤ other := by
  by_contra greater
  obtain ⟨low, -, strict⟩ := nearest
  obtain ⟨-, otherHigh, otherStrict⟩ := otherNearest
  have next : (other : ℚ) + 1 ≤ whole := by exact_mod_cast not_le.mp greater
  -- The numbers can only be the same one in the middle, and that belongs to the even neighbour.
  have isMiddle : (whole : ℚ) = other + 1 := by linarith
  have isNext : whole = other + 1 := by exact_mod_cast isMiddle
  rcases Int.even_or_odd whole with even | odd
  · have otherOdd : ¬ Even other := by
      rw [isNext, Int.even_add_one] at even
      exact even
    linarith [(otherStrict otherOdd).2]
  · linarith [(strict (Int.not_even_iff_odd.mpr odd)).1]

theorem nearestEven_intCast (whole : ℤ) : NearestEven whole whole :=
  ⟨by linarith, by linarith, fun _ => ⟨by linarith, by linarith⟩⟩

theorem NearestEven.abs_sub_le (nearest : NearestEven whole number) :
    |whole - number| ≤ 1 / 2 :=
  abs_le.mpr ⟨by linarith [nearest.2.1], by linarith [nearest.1]⟩

theorem NearestEven.neg (nearest : NearestEven whole number) : NearestEven (-whole) (-number) := by
  obtain ⟨low, high, strict⟩ := nearest
  simp only [NearestEven, Within, Int.cast_neg, even_neg]
  refine ⟨by linarith, by linarith, fun odd => ?_⟩
  obtain ⟨strictLow, strictHigh⟩ := strict odd
  exact ⟨by linarith, by linarith⟩

end Nearest

namespace Numeral

/-- The value of a numeral with its sign. -/
def signedValue (numeral : Numeral) : ℚ :=
  withSign numeral.negative numeral.toRat

end Numeral

/-- The text with a number of places reads as the nearest decimal that has no more of them. -/
theorem readNumeral?_fixedText {number : Float} (places : Nat) (finite : number.isFinite = true) :
    ∃ numeral whole, readNumeral? (fixedText places number) = some numeral ∧
      numeral.signedValue = (whole : ℤ) / 10 ^ places ∧
      NearestEven whole (Binary64.value number * 10 ^ places) := by
  obtain ⟨negative, magnitude, isParts⟩ := isFinite_iff.mp finite
  obtain ⟨numeral, read, sign, isRounded⟩ :=
    readNumeral?_positional negative (roundToPlaces places magnitude)
  have within := @within_roundDiv (magnitude.numerator * Nat.pow 10 places) _
    magnitude.denominator_pos
  have scaled : ((magnitude.numerator * Nat.pow 10 places : Nat) : ℚ) / magnitude.denominator =
      magnitude.toRat * 10 ^ places := by
    rw [magnitude.toRat_eq_div]
    push_cast [Nat.pow_eq]
    ring
  obtain ⟨whole, isWhole⟩ : ∃ whole, whole =
      roundDiv (magnitude.numerator * Nat.pow 10 places) magnitude.denominator := ⟨_, rfl⟩
  have isUnits : numeral.toRat = whole / 10 ^ places := by
    rw [isRounded, roundToPlaces, Scaled.toRat, ← isWhole, zpow_neg, zpow_natCast, div_eq_mul_inv]
  have nearest : NearestEven whole (magnitude.toRat * 10 ^ places) := by
    rw [scaled, ← isWhole, ← Nat.even_iff] at within
    simpa only [NearestEven, Int.even_coe_nat, Int.cast_natCast] using within
  rw [fixedText, isParts]
  have isValue := value_of_parts isParts
  cases negative with
  | false =>
      refine ⟨numeral, whole, read, ?_, ?_⟩
      · rw [Numeral.signedValue, sign, withSign, if_neg Bool.false_ne_true, isUnits,
          Int.cast_natCast]
      · rw [isValue, withSign, if_neg Bool.false_ne_true]
        exact nearest
  | true =>
      refine ⟨numeral, -whole, read, ?_, ?_⟩
      · rw [Numeral.signedValue, sign, withSign, if_pos rfl, isUnits, Int.cast_neg, Int.cast_natCast,
          neg_div]
      · rw [isValue, withSign, if_pos rfl, neg_mul]
        exact nearest.neg

theorem isNumberChar_of_mem_fixedText {number : Float} {places : Nat} {char : Char}
    (finite : number.isFinite = true) (member : char ∈ fixedText places number) :
    isNumberChar char = true := by
  obtain ⟨negative, magnitude, isParts⟩ := isFinite_iff.mp finite
  simp only [fixedText, isParts] at member
  rcases List.mem_append.mp member with inSign | inDigits
  · exact isNumberChar_of_mem_signText inSign
  · exact isNumberChar_of_mem_positional inDigits

end Decimal

namespace Axis

open Decimal

/-- The numeral of a label without its unit, and the unit, which is one where none is written. -/
def splitUnit (label : List Char) : List Char × ℚ :=
  match label.getLast? with
  | some 'K' => (label.dropLast, 1000)
  | some 'M' => (label.dropLast, 1000000)
  | _ => (label, 1)

/-- Reads the number that a label shows. -/
def readLabel? (label : String) : Option ℚ :=
  (readNumeral? (splitUnit label.toList).1).map fun numeral =>
    numeral.signedValue * (splitUnit label.toList).2

theorem splitUnit_of_isNumberChar {label : List Char}
    (inNumber : ∀ char ∈ label, isNumberChar char = true) : splitUnit label = (label, 1) := by
  unfold splitUnit
  split
  next isLast =>
    exact absurd (inNumber _ (List.mem_of_getLast? isLast)) (by decide)
  next isLast =>
    exact absurd (inNumber _ (List.mem_of_getLast? isLast)) (by decide)
  next => rfl

theorem splitUnit_thousands (numeral : List Char) : splitUnit (numeral ++ ['K']) = (numeral, 1000) := by
  simp [splitUnit]

theorem splitUnit_millions (numeral : List Char) :
    splitUnit (numeral ++ ['M']) = (numeral, 1000000) := by
  simp [splitUnit]

theorem readLabel?_ofList {label text : List Char} {unit : ℚ} {numeral : Numeral}
    (isUnit : splitUnit label = (text, unit)) (read : readNumeral? text = some numeral) :
    readLabel? (String.ofList label) = some (numeral.signedValue * unit) := by
  simp [readLabel?, isUnit, read]

/-- What the label of a throughput shows: whole units below a thousand, whole thousands below a million,
and tenths of millions from there on. -/
inductive Shows (throughput : Float) : ℚ → Prop
  | units {whole : ℤ} (below : value throughput < 1000)
      (nearest : NearestEven whole (value throughput)) : Shows throughput whole
  | thousands {whole : ℤ} (above : 1000 ≤ value throughput) (below : value throughput < 1000000)
      (nearest : NearestEven whole (value (throughput / thousand))) :
      Shows throughput (whole * 1000)
  | millions {tenths : ℤ} (above : 1000000 ≤ value throughput)
      (nearest : NearestEven tenths (value (throughput / million) * 10)) :
      Shows throughput (tenths * 100000)

section Units

variable {throughput other unit : Float} {whole : ℤ}

theorem denotes_thousand : Denotes thousand ((1000 : ℤ) : ℚ) :=
  denotes_literal 1000 (by decide) (by decide)

theorem denotes_million : Denotes million ((1000000 : ℤ) : ℚ) :=
  denotes_literal 1000000 (by decide) (by decide)

theorem thousand_le_iff (finite : throughput.isFinite = true) :
    thousand ≤ throughput ↔ 1000 ≤ value throughput := by
  have denotes : Denotes throughput (value throughput) := ⟨finite, rfl⟩
  rw [denotes_thousand.le_iff denotes]
  norm_num

theorem million_le_iff (finite : throughput.isFinite = true) :
    million ≤ throughput ↔ 1000000 ≤ value throughput := by
  have denotes : Denotes throughput (value throughput) := ⟨finite, rfl⟩
  rw [denotes_million.le_iff denotes]
  norm_num

/-- A finite number is rounded when it is divided by a unit. -/
theorem roundsTo_div_unit (finite : throughput.isFinite = true) (isUnit : Denotes unit whole)
    (positive : 1 ≤ whole) : RoundsTo (value throughput / whole) (throughput / unit) := by
  have castPositive : (1 : ℚ) ≤ whole := by exact_mod_cast positive
  rw [← isUnit.value_eq] at castPositive ⊢
  apply roundsTo_div finite isUnit.finite (by linarith)
  rw [abs_div, abs_of_nonneg (by linarith : 0 ≤ value unit)]
  exact (div_le_self (abs_nonneg _) castPositive).trans_lt (abs_value_lt_rangeEnd finite)

/-- Dividing by a unit keeps the order of numbers that are not zero. -/
theorem value_div_unit_le (finite : throughput.isFinite = true) (otherFinite : other.isFinite = true)
    (isUnit : Denotes unit whole) (unitPositive : 1 ≤ whole) (positive : 0 < value throughput)
    (ordered : value throughput ≤ value other) :
    value (throughput / unit) ≤ value (other / unit) := by
  rcases ordered.eq_or_lt with same | less
  · have denotes : Denotes throughput (value other) := ⟨finite, same⟩
    rw [denotes.unique ⟨otherFinite, rfl⟩ (same ▸ positive)]
  · have castPositive : (0 : ℚ) < whole := by exact_mod_cast unitPositive
    exact (roundsTo_div_unit finite isUnit unitPositive).value_le_value
      (roundsTo_div_unit otherFinite isUnit unitPositive) (div_lt_div_of_pos_right less castPositive)

theorem le_value_div_unit (finite : throughput.isFinite = true) (isUnit : Denotes unit whole)
    (positive : 1 ≤ whole) (count : ℤ) (small : |count| ≤ 2 ^ 53)
    (above : count * whole ≤ value throughput) : count ≤ value (throughput / unit) := by
  have castPositive : (0 : ℚ) < whole := by exact_mod_cast positive
  apply (roundsTo_div_unit finite isUnit positive).le_value (representable_intCast small)
  rwa [le_div_iff₀ castPositive]

theorem value_div_unit_le_count (finite : throughput.isFinite = true) (isUnit : Denotes unit whole)
    (positive : 1 ≤ whole) (count : ℤ) (small : |count| ≤ 2 ^ 53)
    (below : value throughput ≤ count * whole) : value (throughput / unit) ≤ count := by
  have castPositive : (0 : ℚ) < whole := by exact_mod_cast positive
  apply (roundsTo_div_unit finite isUnit positive).value_le (representable_intCast small)
  rwa [div_le_iff₀ castPositive]

end Units

section Order

variable {throughput other : Float} {shown otherShown : ℚ}

/-- Below a million at most a million is shown, and from there on at least that. -/
theorem Shows.le_million (finite : throughput.isFinite = true) (shows : Shows throughput shown)
    (below : value throughput < 1000000) : shown ≤ 1000000 := by
  cases shows with
  | units below nearest =>
      have bound := nearest.le (nearestEven_intCast 1000) (by norm_num; exact below.le)
      have castBound : (_ : ℚ) ≤ (1000 : ℤ) := Int.cast_le.mpr bound
      norm_num at castBound
      linarith
  | thousands _ below nearest =>
      have quotient := value_div_unit_le_count finite denotes_thousand (by decide) 1000
        (by norm_num) (by norm_num; exact below.le)
      have bound := nearest.le (nearestEven_intCast 1000) quotient
      have castBound : (_ : ℚ) ≤ (1000 : ℤ) := Int.cast_le.mpr bound
      norm_num at castBound
      linarith
  | millions above => linarith

theorem Shows.million_le (finite : throughput.isFinite = true) (shows : Shows throughput shown)
    (above : 1000000 ≤ value throughput) : 1000000 ≤ shown := by
  cases shows with
  | units below => linarith
  | thousands _ below => linarith
  | millions _ nearest =>
      have quotient := le_value_div_unit finite denotes_million (by decide) 1
        (by norm_num) (by norm_num; exact above)
      have bound := (nearestEven_intCast 10).le nearest (by norm_num at quotient ⊢; linarith)
      have castBound : ((10 : ℤ) : ℚ) ≤ _ := Int.cast_le.mpr bound
      norm_num at castBound
      linarith

/-- Below a thousand at most a thousand is shown, and from there on at least that. -/
theorem Shows.le_thousand (shows : Shows throughput shown) (below : value throughput < 1000) :
    shown ≤ 1000 := by
  cases shows with
  | units _ nearest =>
      have bound := nearest.le (nearestEven_intCast 1000) (by norm_num; exact below.le)
      have castBound : (_ : ℚ) ≤ (1000 : ℤ) := Int.cast_le.mpr bound
      norm_num at castBound
      exact castBound
  | thousands above => linarith
  | millions above => linarith

theorem Shows.thousand_le (finite : throughput.isFinite = true) (shows : Shows throughput shown)
    (above : 1000 ≤ value throughput) : 1000 ≤ shown := by
  rcases lt_or_ge (value throughput) 1000000 with below | large
  · cases shows with
    | units below => linarith
    | thousands _ _ nearest =>
        have quotient := le_value_div_unit finite denotes_thousand (by decide) 1
          (by norm_num) (by norm_num; exact above)
        have bound := (nearestEven_intCast 1).le nearest quotient
        have castBound : ((1 : ℤ) : ℚ) ≤ _ := Int.cast_le.mpr bound
        norm_num at castBound
        linarith
    | millions above => linarith
  · linarith [shows.million_le finite large]

/-- A greater throughput does not show a smaller number. -/
theorem Shows.le (finite : throughput.isFinite = true) (otherFinite : other.isFinite = true)
    (shows : Shows throughput shown) (otherShows : Shows other otherShown)
    (ordered : value throughput ≤ value other) : shown ≤ otherShown := by
  rcases lt_or_ge (value throughput) 1000000 with small | large
  · rcases lt_or_ge (value other) 1000000 with otherSmall | otherLarge
    · rcases lt_or_ge (value throughput) 1000 with few | many
      · rcases lt_or_ge (value other) 1000 with otherFew | otherMany
        · cases shows <;> cases otherShows <;> try linarith
          next nearest _ _ otherNearest =>
            exact Int.cast_le.mpr (nearest.le otherNearest ordered)
        · exact (shows.le_thousand few).trans (otherShows.thousand_le otherFinite otherMany)
      · cases shows <;> cases otherShows <;> try linarith
        next nearest _ _ _ otherNearest =>
          have quotients := value_div_unit_le finite otherFinite denotes_thousand (by decide)
            (by linarith) ordered
          have bound := nearest.le otherNearest quotients
          exact mul_le_mul_of_nonneg_right (Int.cast_le.mpr bound) (by norm_num)
    · exact (shows.le_million finite small).trans (otherShows.million_le otherFinite otherLarge)
  · cases shows <;> cases otherShows <;> try linarith
    next nearest _ _ otherNearest =>
      have quotients := value_div_unit_le finite otherFinite denotes_million (by decide)
        (by linarith) ordered
      have bound := nearest.le otherNearest (mul_le_mul_of_nonneg_right quotients (by norm_num))
      exact mul_le_mul_of_nonneg_right (Int.cast_le.mpr bound) (by norm_num)

end Order

section Labels

variable {throughput first second : Float}

/-- The label of a finite throughput can be read, and shows a number for it. -/
theorem exists_readLabel?_throughputLabel (finite : throughput.isFinite = true) :
    ∃ shown, readLabel? (throughputLabel throughput) = some shown ∧ Shows throughput shown := by
  simp only [throughputLabel, million_le_iff finite, thousand_le_iff finite]
  split
  next large =>
    have quotient := roundsTo_div_unit finite denotes_million (by decide)
    obtain ⟨numeral, tenths, read, isShown, nearest⟩ := readNumeral?_fixedText 1 quotient.finite
    rw [pow_one] at isShown nearest
    refine ⟨_, readLabel?_ofList (splitUnit_millions _) read, ?_⟩
    rw [isShown]
    convert Shows.millions large nearest using 1
    ring
  next notLarge =>
    split
    next many =>
      have quotient := roundsTo_div_unit finite denotes_thousand (by decide)
      obtain ⟨numeral, whole, read, isShown, nearest⟩ := readNumeral?_fixedText 0 quotient.finite
      rw [pow_zero] at isShown nearest
      rw [mul_one] at nearest
      refine ⟨_, readLabel?_ofList (splitUnit_thousands _) read, ?_⟩
      rw [isShown, div_one]
      exact Shows.thousands many (not_le.mp notLarge) nearest
    next few =>
      obtain ⟨numeral, whole, read, isShown, nearest⟩ := readNumeral?_fixedText 0 finite
      rw [pow_zero] at isShown nearest
      rw [mul_one] at nearest
      have plain := splitUnit_of_isNumberChar
        fun char (member : char ∈ fixedText 0 throughput) => isNumberChar_of_mem_fixedText finite member
      refine ⟨_, readLabel?_ofList plain read, ?_⟩
      rw [isShown, div_one, mul_one]
      exact Shows.units (not_le.mp few) nearest

/-- The labels of finite throughputs show numbers in the order of these throughputs. -/
theorem throughputLabel_monotone (finite : first.isFinite = true) (secondFinite : second.isFinite = true)
    (ordered : first ≤ second) :
    ∃ shown secondShown, readLabel? (throughputLabel first) = some shown ∧
      readLabel? (throughputLabel second) = some secondShown ∧ shown ≤ secondShown := by
  obtain ⟨shown, read, shows⟩ := exists_readLabel?_throughputLabel finite
  obtain ⟨secondShown, secondRead, secondShows⟩ := exists_readLabel?_throughputLabel secondFinite
  rw [le_iff_not_lt finite secondFinite, lt_iff_value_lt secondFinite finite, not_lt] at ordered
  exact ⟨shown, secondShown, read, secondRead, shows.le finite secondFinite secondShows ordered⟩

/-- A throughput that is just short of a million shows as much as a million. -/
theorem throughputLabel_monotone_border :
    (Float.isFinite 999999.6 = true ∧ Float.isFinite 1000000.0 = true ∧ (999999.6 : Float) ≤ 1000000.0) ∧
      ∃ shown secondShown, readLabel? (throughputLabel 999999.6) = some shown ∧
        readLabel? (throughputLabel 1000000.0) = some secondShown ∧ shown ≤ secondShown := by
  have finite : Float.isFinite 999999.6 = true := by decide +kernel
  have secondFinite : Float.isFinite 1000000.0 = true := by decide +kernel
  have ordered : (999999.6 : Float) ≤ 1000000.0 := by decide +kernel
  exact ⟨⟨finite, secondFinite, ordered⟩, throughputLabel_monotone finite secondFinite ordered⟩

end Labels

end Axis
end ThroughputCharts
