import ThroughputCharts.Proofs.JsonReader
import ThroughputCharts.Proofs.NumberText

/-!
# Numbers read back from JSON

The text of a number is a JSON number, however large or small it is, and its value is in the rounding
interval of the number.  As a word it is read as the number again.
-/

namespace ThroughputCharts

namespace Json

open Decimal Binary64

section Numbers

theorem head?_toDigits_ne_zero {number : Nat} (positive : 0 < number) :
    (Nat.toDigits 10 number).head? ≠ some '0' := by
  induction number using Nat.strongRecOn with
  | ind number induction =>
      rcases Nat.lt_or_ge number 10 with small | large
      · rw [Nat.toDigits_of_lt_base small]
        interval_cases number <;> decide
      · rw [Nat.toDigits_of_base_le (by decide) large, List.head?_append_of_ne_nil _ Nat.toDigits_ne_nil]
        exact induction _ (by omega) (by omega)

theorem isWholePart_of_head? {digits : List Char} (nonempty : digits ≠ [])
    (noZero : digits.head? ≠ some '0') : isWholePart digits = true := by
  simp [isWholePart, nonempty, noZero]

theorem isWholePart_toDigits (number : Nat) : isWholePart (Nat.toDigits 10 number) = true := by
  rcases Nat.eq_zero_or_pos number with rfl | positive
  · rfl
  · exact isWholePart_of_head? Nat.toDigits_ne_nil (head?_toDigits_ne_zero positive)

/-- A number begins with its whole part, and what comes next is its fraction or its exponent. -/
theorem readNumber?_append {whole rest : List Char} (negative : Bool)
    (isWhole : isWholePart whole = true) (digits : ∀ char ∈ whole, char.isDigit = true)
    (ends : rest.takeWhile Char.isDigit = [])
    (point : rest.head? = some '.' → (splitFraction rest).1 ≠ []) :
    readNumber? (signText negative ++ (whole ++ rest)) =
      (readExponent? (splitFraction rest).2).map fun exponent =>
        ⟨negative, value (whole ++ (splitFraction rest).1),
          exponent - (splitFraction rest).1.length⟩ := by
  have nonempty : whole ≠ [] := by
    rintro rfl
    contradiction
  have unsigned : (whole ++ rest).head? ≠ some '-' := by
    rw [List.head?_append_of_ne_nil _ nonempty]
    intro isMinus
    exact absurd (digits '-' (List.mem_of_head? isMinus)) (by decide)
  have behindSign :
      (if (signText negative ++ (whole ++ rest)).head? = some '-' then
        (signText negative ++ (whole ++ rest)).tail
      else
        signText negative ++ (whole ++ rest)) = whole ++ rest := by
    cases negative with
    | false => exact if_neg unsigned
    | true => rfl
  have strict : isStrict (signText negative ++ (whole ++ rest)) = true := by
    have behindWhole : rest.dropWhile Char.isDigit = rest := by
      have parts := List.takeWhile_append_dropWhile (p := Char.isDigit) (l := rest)
      rwa [ends] at parts
    simp only [isStrict, behindSign, List.takeWhile_append_of_pos digits, ends, List.append_nil,
      List.dropWhile_append_of_pos digits, behindWhole, isWhole, Bool.true_and, Bool.or_eq_true,
      bne_iff_ne, Bool.not_eq_true', List.isEmpty_eq_false_iff]
    exact imp_iff_not_or.mp point
  rw [readNumber?, if_pos strict, readNumeral?_append negative nonempty digits ends]

theorem readExponent?_signedInteger (number : Int) :
    readExponent? ('e' :: signedInteger number) = some number := by
  have digits : isDigits (Nat.toDigits 10 number.natAbs) = true := isDigits_digits number.natAbs
  have value : value (Nat.toDigits 10 number.natAbs) = number.natAbs := value_digits number.natAbs
  unfold signedInteger
  split
  next isNegative =>
    simp only [readExponent?, splitSign, digits, value, true_or, if_true, Option.some.injEq]
    omega
  next notNegative =>
    simp only [readExponent?, splitSign, digits, value, true_or, if_true, Option.some.injEq,
      Bool.false_eq_true, if_false]
    omega

/-- A single digit in front of an exponent has no point behind it, and several have. -/
theorem exists_pointAfterFirst_eq_cons {others : List Char} (rest : List Char)
    (digits : ∀ char ∈ others, char.isDigit = true) :
    ∃ behind, (∀ first, pointAfterFirst (first :: others) = first :: behind) ∧
      (behind ++ 'e' :: rest).takeWhile Char.isDigit = [] ∧
      splitFraction (behind ++ 'e' :: rest) = (others, 'e' :: rest) ∧
      ((behind ++ 'e' :: rest).head? = some '.' → others ≠ []) := by
  cases others with
  | nil => exact ⟨[], fun _ => rfl, rfl, rfl, by simp⟩
  | cons second others =>
      refine ⟨'.' :: second :: others, fun _ => rfl, rfl, ?_, fun _ => List.cons_ne_nil _ _⟩
      rw [List.cons_append, splitFraction, List.takeWhile_append_of_pos digits,
        List.dropWhile_append_of_pos digits]
      exact Prod.ext (List.append_nil _) rfl

variable {negative : Bool} {magnitude : Magnitude}

theorem coefficient_shortest_pos (canonical : magnitude.Canonical)
    (positive : 0 < magnitude.significand) : 0 < (shortest magnitude).coefficient := by
  have half := (attracts_shortest canonical positive).within_half.1
  by_contra! isZero
  rw [Scaled.toRat, Nat.le_zero.mp isZero, Nat.cast_zero, zero_mul, zero_div] at half
  have large : (1 : ℚ) ≤ magnitude.significand := by exact_mod_cast positive
  linarith

section Layouts

variable {decimal : Scaled}

theorem readNumber?_positional (negative : Bool) (positive : 0 < decimal.coefficient) :
    ∃ numeral, readNumber? (signText negative ++
        (positional decimal ++ if 0 ≤ decimal.exponent then ['.', '0'] else [])) = some numeral ∧
      numeral.negative = negative ∧ numeral.toRat = decimal.toRat := by
  have noZero := head?_toDigits_ne_zero positive
  split
  next whole =>
    have digits : ∀ char ∈ Nat.toDigits 10 decimal.coefficient ++ zeros decimal.exponent.toNat,
        char.isDigit = true := by
      rw [List.forall_mem_append]
      exact ⟨fun _ member => isDigit_of_mem_digits member,
        fun _ member => isDigit_of_mem_zeros member⟩
    have isWhole : isWholePart
        (Nat.toDigits 10 decimal.coefficient ++ zeros decimal.exponent.toNat) = true := by
      apply isWholePart_of_head? (List.append_ne_nil_of_left_ne_nil Nat.toDigits_ne_nil _)
      rwa [List.head?_append_of_ne_nil _ Nat.toDigits_ne_nil]
    rw [positional, if_pos whole, readNumber?_append negative isWhole digits rfl (by decide)]
    refine ⟨_, rfl, rfl, ?_⟩
    have coefficient : value (Nat.toDigits 10 decimal.coefficient) = decimal.coefficient :=
      value_digits decimal.coefficient
    have shifted : value (Nat.toDigits 10 decimal.coefficient ++ zeros decimal.exponent.toNat ++
        zeros 1) = decimal.coefficient * 10 ^ decimal.exponent.toNat * 10 := by
      rw [value_append_zeros, value_append_zeros, coefficient, pow_one]
    rw [Numeral.toRat, Scaled.toRat]
    conv_rhs => rw [← Int.toNat_of_nonneg whole, zpow_natCast]
    change (value (_ ++ zeros 1) : ℚ) * 10 ^ (0 - 1 : Int) = _
    rw [shifted]
    push_cast
    rw [zpow_neg_one]
    field_simp
  next fractional =>
    obtain ⟨whole, fraction, isPoint, first, digits, coefficient, exponent⟩ :=
      exists_positional_eq_point (Int.not_le.mp fractional)
    rw [List.forall_mem_append] at digits
    have isWhole : isWholePart whole = true := by
      rcases first with rfl | ⟨nonempty, isPrefix⟩
      · rfl
      · obtain ⟨more, isMore⟩ := isPrefix
        rw [← isMore, List.head?_append_of_ne_nil _ nonempty] at noZero
        exact isWholePart_of_head? nonempty noZero
    have isFraction : splitFraction ('.' :: fraction) = (fraction, []) := by
      rw [splitFraction, List.takeWhile_eq_self_iff.mpr digits.2,
        List.dropWhile_eq_nil_iff.mpr digits.2]
    have nonempty : fraction ≠ [] := by
      rintro rfl
      rw [← exponent] at fractional
      exact fractional (le_of_eq rfl)
    refine ⟨⟨negative, decimal.coefficient, decimal.exponent⟩, ?_, rfl, rfl⟩
    rw [List.append_nil, isPoint, readNumber?_append negative isWhole digits.1 rfl
      (by rw [isFraction]; exact fun _ => nonempty), isFraction]
    simp only [readExponent?, Option.map_some, coefficient, zero_sub, exponent]

theorem readNumber?_exponential (negative : Bool) (positive : 0 < decimal.coefficient) :
    ∃ numeral, readNumber? (signText negative ++
        (pointAfterFirst (Nat.toDigits 10 decimal.coefficient) ++ 'e' :: signedInteger
          (decimal.exponent + (Nat.toDigits 10 decimal.coefficient).length - 1))) = some numeral ∧
      numeral.negative = negative ∧ numeral.toRat = decimal.toRat := by
  have noZero := head?_toDigits_ne_zero positive
  have coefficient : value (Nat.toDigits 10 decimal.coefficient) = decimal.coefficient :=
    value_digits decimal.coefficient
  have digits : ∀ char ∈ Nat.toDigits 10 decimal.coefficient, char.isDigit = true :=
    fun _ member => isDigit_of_mem_digits member
  obtain ⟨first, others, isDigits⟩ :=
    List.exists_cons_of_ne_nil (@Nat.toDigits_ne_nil decimal.coefficient 10)
  rw [isDigits] at noZero coefficient digits ⊢
  obtain ⟨firstDigit, otherDigits⟩ := List.forall_mem_cons.mp digits
  obtain ⟨behind, isBehind, ends, split, point⟩ := exists_pointAfterFirst_eq_cons
    (signedInteger (decimal.exponent + (first :: others).length - 1)) otherDigits
  have isWhole : isWholePart [first] = true := isWholePart_of_head? (List.cons_ne_nil _ _) noZero
  refine ⟨⟨negative, decimal.coefficient, decimal.exponent⟩, ?_, rfl, rfl⟩
  rw [isBehind, List.cons_append]
  rw [← List.singleton_append, readNumber?_append negative isWhole
    (List.forall_mem_singleton.mpr firstDigit) ends (by rw [split]; exact point), split]
  have exponent : decimal.exponent + (first :: others).length - 1 - others.length =
      decimal.exponent := by
    rw [List.length_cons]
    omega
  rw [readExponent?_signedInteger, Option.map_some, List.singleton_append, coefficient, exponent]

end Layouts

/-- The export's text of a finite number is a JSON number from its rounding interval. -/
theorem readNumber?_exportText (negative : Bool) (canonical : magnitude.Canonical) :
    ∃ numeral, readNumber? (exportText negative magnitude) = some numeral ∧
      numeral.negative = negative ∧ magnitude.Attracts numeral.toRat := by
  unfold exportText
  split
  next isZero =>
    refine ⟨⟨negative, 0, -1⟩, ?_, rfl, ?_⟩
    · cases negative <;> decide
    · have value : Numeral.toRat ⟨negative, 0, -1⟩ = magnitude.toRat := by
        rw [Numeral.toRat, Magnitude.toRat, isZero, Nat.cast_zero, zero_mul, zero_mul]
      rw [value]
      exact magnitude.attracts_toRat
  next notZero =>
    have positive := Nat.pos_of_ne_zero notZero
    have coefficientPositive := coefficient_shortest_pos canonical positive
    have attracts := attracts_shortest canonical positive
    extract_lets decimal digits leading
    split
    · obtain ⟨numeral, read, sign, value⟩ := readNumber?_positional negative coefficientPositive
      exact ⟨numeral, read, sign, value ▸ attracts⟩
    · obtain ⟨numeral, read, sign, value⟩ := readNumber?_exponential negative coefficientPositive
      exact ⟨numeral, read, sign, value ▸ attracts⟩

end Numbers

section Words

variable {text : List Char}

theorem word?_of_readNumber? {numeral : Numeral} (read : readNumber? text = some numeral) :
    word? text = some (.number numeral) := by
  have notLiteral : literals.lookup text = none := by
    rw [List.lookup_eq_none_iff]
    intro literal isLiteral
    have refused : readNumber? literal.1 = none := by
      revert literal
      decide
    rw [bne_iff_ne]
    rintro rfl
    rw [refused] at read
    contradiction
  rw [word?, notLiteral, read]
  rfl

theorem word?_toDigits (number : Nat) :
    word? (Nat.toDigits 10 number) = some (.number ⟨false, number, 0⟩) := by
  apply word?_of_readNumber?
  have read := @readNumber?_append (Nat.toDigits 10 number) [] false (isWholePart_toDigits number)
    (fun _ member => isDigit_of_mem_digits member) rfl nofun
  rw [signText, if_neg Bool.false_ne_true, List.nil_append, List.append_nil] at read
  rw [read]
  simp only [splitFraction, readExponent?, Option.map_some, List.append_nil, List.length_nil,
    Nat.cast_zero, sub_zero, show value (Nat.toDigits 10 number) = number from value_digits number]

/-- The document of a number, as its text is read on its own. -/
def realDocument (number : Float) : Document :=
  (word? (realText number)).getD .null

/-- A finite number comes back with all its bits. -/
theorem realDocument_of_isFinite {number : Float} (isFinite : number.isFinite = true) :
    ∃ numeral, realDocument number = .number numeral ∧ numeral.toFloat = number := by
  obtain ⟨negative, magnitude, finite⟩ := isFinite_iff.mp isFinite
  obtain ⟨numeral, read, sign, attracts⟩ :=
    readNumber?_exportText negative (canonical_of_parts finite)
  refine ⟨numeral, ?_, Numeral.toFloat_eq_of_attracts finite sign attracts⟩
  rw [realDocument, realText, finite, word?_of_readNumber? read, Option.getD_some]

theorem word?_realText (number : Float) :
    word? (realText number) = some (realDocument number) := by
  have isWord : ∃ value, word? (realText number) = some value := by
    rw [realText]
    split
    next negative magnitude finite =>
      obtain ⟨numeral, read, -, -⟩ := readNumber?_exportText negative (canonical_of_parts finite)
      exact ⟨_, word?_of_readNumber? read⟩
    next => exact ⟨.null, rfl⟩
  obtain ⟨value, isValue⟩ := isWord
  rw [realDocument, isValue, Option.getD_some]

theorem isWordChar_of_isNumberChar {char : Char} (inNumber : isNumberChar char = true) :
    isWordChar char = true := by
  simp only [isNumberChar, Bool.or_eq_true] at inNumber
  simp only [isWordChar, Char.isAlphanum, Bool.or_eq_true]
  rcases inNumber with (isDigit | isPoint) | isMinus
  · exact .inl (.inl (.inl (.inr isDigit)))
  · exact .inr isPoint
  · exact .inl (.inr isMinus)

theorem isWordChar_of_mem_toDigits {number : Nat} {char : Char}
    (member : char ∈ Nat.toDigits 10 number) : isWordChar char = true := by
  apply isWordChar_of_isNumberChar
  rw [isNumberChar, isDigit_of_mem_digits member, Bool.true_or, Bool.true_or]

theorem isWordChar_of_mem_pointAfterFirst {digits : List Char} {char : Char}
    (areWordChars : ∀ char ∈ digits, isWordChar char = true)
    (member : char ∈ pointAfterFirst digits) : isWordChar char = true := by
  unfold pointAfterFirst at member
  split at member
  next first second rest =>
    rcases List.mem_cons.mp member with rfl | member
    · exact areWordChars _ List.mem_cons_self
    rcases List.mem_cons.mp member with rfl | member
    · rfl
    · exact areWordChars _ (List.mem_cons_of_mem _ member)
  next => exact areWordChars _ member

theorem isWordChar_of_mem_signedInteger {number : Int} {char : Char}
    (member : char ∈ signedInteger number) : isWordChar char = true := by
  rcases List.mem_cons.mp member with rfl | inDigits
  · split <;> rfl
  · exact isWordChar_of_mem_toDigits inDigits

theorem isWordChar_of_mem_exportText {negative : Bool} {magnitude : Magnitude} {char : Char}
    (member : char ∈ exportText negative magnitude) : isWordChar char = true := by
  have ofSign (member : char ∈ signText negative) : isWordChar char = true :=
    isWordChar_of_isNumberChar (isNumberChar_of_mem_signText member)
  unfold exportText at member
  split at member
  next =>
    rcases List.mem_append.mp member with inSign | inZero
    · exact ofSign inSign
    · have zeroChars : ∀ char ∈ ['0', '.', '0'], isWordChar char = true := by
        simp [isWordChar]
      exact zeroChars char inZero
  next =>
    rcases List.mem_append.mp member with inSign | member
    · exact ofSign inSign
    split at member
    · rcases List.mem_append.mp member with inPlaces | inFraction
      · exact isWordChar_of_isNumberChar (isNumberChar_of_mem_positional inPlaces)
      · have fractionChars : ∀ char ∈ ['.', '0'], isWordChar char = true := by
          simp [isWordChar]
        split at inFraction
        · exact fractionChars char inFraction
        · exact absurd inFraction List.not_mem_nil
    · rcases List.mem_append.mp member with inDigits | inExponent
      · exact isWordChar_of_mem_pointAfterFirst (fun _ => isWordChar_of_mem_toDigits) inDigits
      · rcases List.mem_cons.mp inExponent with rfl | inInteger
        · simp [isWordChar]
        · exact isWordChar_of_mem_signedInteger inInteger

theorem isWordChar_of_mem_realText {number : Float} {char : Char}
    (member : char ∈ realText number) : isWordChar char = true := by
  unfold realText at member
  split at member
  next => exact isWordChar_of_mem_exportText member
  next =>
    have nullChars : ∀ char ∈ "null".toList, isWordChar char = true := by
      simp [isWordChar]
    exact nullChars char member

end Words

end Json

end ThroughputCharts
