import Mathlib.Tactic.Positivity
import Mathlib.Tactic.Ring
import ThroughputCharts.Proofs.ListNameRoundTrip

/-!
# Counts read without wrapping around

The text of a count is read digit by digit.  In 64 bits, the product and the sum that take in a digit
are each checked for having wrapped around, so that the digits of any number of places are read as
their exact value or refused.
-/

namespace ThroughputCharts

namespace Decimal

/-- The number that a decimal digit stands for. -/
def digitValue (digit : Char) : Nat :=
  digit.toNat - '0'.toNat

/-- The sum of digits weighted by their places, of which the last counts units. -/
def placeValue : List Char → Nat
  | [] => 0
  | digit :: rest => digitValue digit * 10 ^ rest.length + placeValue rest

/-- Takes one more digit into a 64-bit total.  A product that has wrapped around does not give the
total back when it is divided, and a sum that has wrapped around is less than its first part. -/
def takeDigit? (total : UInt64) (digit : Char) : Option UInt64 :=
  let scaled := total * 10
  let sum := scaled + (digitValue digit).toUInt64
  if scaled / 10 = total ∧ scaled ≤ sum then some sum else none

/-- Reads digits into 64 bits, up to the first product or sum that wraps around. -/
def accumulate? (digits : List Char) : Option UInt64 :=
  digits.foldlM takeDigit? 0

section Values

variable {text : List Char} {digit : Char}

theorem isDigit_iff : digit.isDigit = true ↔ '0' ≤ digit ∧ digit ≤ '9' := by
  simp [Char.isDigit, Char.le_def]

theorem digitValue_le (isDigit : digit.isDigit = true) : digitValue digit ≤ 9 := by
  have atMost : digit.toNat ≤ '9'.toNat := UInt32.le_iff_toNat_le.mp (isDigit_iff.mp isDigit).2
  have nine : '9'.toNat = 57 := rfl
  have zero : '0'.toNat = 48 := rfl
  rw [digitValue]
  omega

theorem ofDigitChars_eq_placeValue (text : List Char) (total : Nat) :
    Nat.ofDigitChars 10 text total = total * 10 ^ text.length + placeValue text := by
  induction text generalizing total with
  | nil => simp [placeValue]
  | cons digit rest ih =>
      rw [Nat.ofDigitChars_cons, ih, placeValue, digitValue, List.length_cons, pow_succ]
      ring

/-- The value of digits does not depend on the order in which the places are added up. -/
theorem value_eq_placeValue (text : List Char) : value text = placeValue text := by
  rw [value, ofDigitChars_eq_placeValue, Nat.zero_mul, Nat.zero_add]

end Values

section Accumulation

variable {text : List Char} {digit : Char} {total next count : UInt64}

/-- One more digit is taken in exactly if the result fits in 64 bits. -/
theorem takeDigit?_eq_some_iff (isDigit : digit.isDigit = true) :
    takeDigit? total digit = some next ↔
      total.toNat * 10 + digitValue digit = next.toNat := by
  have small := digitValue_le isDigit
  have totalBound := total.toNat_lt
  have nextBound := next.toNat_lt
  have held : (digitValue digit).toUInt64.toNat = digitValue digit :=
    UInt64.toNat_ofNat_of_lt' (small.trans_lt (by decide))
  have product : (total * 10).toNat = total.toNat * 10 % 2 ^ 64 := UInt64.toNat_mul total 10
  have quotient : (total * 10 / 10).toNat = (total * 10).toNat / 10 := UInt64.toNat_div _ 10
  have sum : (total * 10 + (digitValue digit).toUInt64).toNat =
      ((total * 10).toNat + digitValue digit) % 2 ^ 64 := by
    rw [UInt64.toNat_add, held]
  have unwrapped : (total * 10 / 10 = total ∧
      total * 10 ≤ total * 10 + (digitValue digit).toUInt64) ↔
        total.toNat * 10 + digitValue digit < 2 ^ 64 := by
    rw [← UInt64.toNat_inj, UInt64.le_iff_toNat_le, quotient, sum, product]
    omega
  simp only [takeDigit?, unwrapped, Option.ite_none_right_eq_some, Option.some.injEq]
  rw [← UInt64.toNat_inj, sum, product]
  omega

/-- Digits are read to the end exactly if their value, behind the total so far, fits in 64 bits. -/
theorem foldlM_takeDigit?_eq_some_iff (digits : ∀ char ∈ text, char.isDigit = true) :
    text.foldlM takeDigit? total = some count ↔
      total.toNat * 10 ^ text.length + placeValue text = count.toNat := by
  induction text generalizing total with
  | nil => simp [placeValue, UInt64.toNat_inj]
  | cons digit rest ih =>
      rw [List.forall_mem_cons] at digits
      have split : total.toNat * 10 ^ (rest.length + 1) + placeValue (digit :: rest) =
          (total.toNat * 10 + digitValue digit) * 10 ^ rest.length + placeValue rest := by
        rw [placeValue, pow_succ]
        ring
      rw [List.foldlM_cons, List.length_cons, split, Option.bind_eq_bind, Option.bind_eq_some_iff]
      constructor
      case mp =>
        rintro ⟨next, taken, read⟩
        rw [(takeDigit?_eq_some_iff digits.1).mp taken]
        exact (ih digits.2).mp read
      case mpr =>
        intro isValue
        -- The total so far is no greater than the value it leads to, so it has not wrapped around.
        have atMost : total.toNat * 10 + digitValue digit ≤ count.toNat := by
          rw [← isValue]
          exact (Nat.le_mul_of_pos_right _ (by positivity)).trans (Nat.le_add_right _ _)
        have fits : total.toNat * 10 + digitValue digit < 2 ^ 64 :=
          atMost.trans_lt count.toNat_lt
        have held := (UInt64.toNat_ofNat_of_lt' fits).symm
        refine ⟨_, (takeDigit?_eq_some_iff digits.1).mpr held, (ih digits.2).mpr ?_⟩
        rw [← held]
        exact isValue

theorem accumulate?_eq_some_iff (digits : ∀ char ∈ text, char.isDigit = true) :
    accumulate? text = some count ↔ placeValue text = count.toNat := by
  rw [accumulate?, foldlM_takeDigit?_eq_some_iff digits, UInt64.toNat_zero, Nat.zero_mul,
    Nat.zero_add]

end Accumulation

/-- A text is a count with the given value: it has digits only, at least one of them, and they stand
for a positive number of 64 bits. -/
structure StandsFor (text : String) (number : Nat) : Prop where
  nonempty : text ≠ ""
  digits : ∀ char ∈ text.toList, '0' ≤ char ∧ char ≤ '9'
  isValue : placeValue text.toList = number
  positive : 1 ≤ number
  bounded : number ≤ 2 ^ 64 - 1

theorem standsFor_iff {text : String} {number : Nat} :
    StandsFor text number ↔ IsCount text ∧ value text.toList = number := by
  simp only [value_eq_placeValue]
  constructor
  · rintro ⟨nonempty, digits, rfl, positive, bounded⟩
    simp only [← isDigit_iff] at digits
    refine ⟨⟨nonempty, digits, ?_, ?_⟩, rfl⟩ <;> rw [value_eq_placeValue]
    · exact positive
    · exact Nat.lt_of_le_pred (by decide) bounded
  · rintro ⟨⟨nonempty, digits, positive, bounded⟩, rfl⟩
    simp only [isDigit_iff] at digits
    rw [value_eq_placeValue] at positive bounded
    exact ⟨nonempty, digits, rfl, positive, Nat.le_pred_of_lt bounded⟩

theorem readCount?_toList_eq_some_iff {text : String} {count : UInt64} :
    readCount? text.toList = some count ↔ StandsFor text count.toNat := by
  rw [readCount?_eq_some_iff, String.ofList_toList, standsFor_iff]
  refine and_congr_right fun isCount => ?_
  have held : (value text.toList).toUInt64.toNat = value text.toList :=
    Nat.mod_eq_of_lt isCount.bounded
  rw [← UInt64.toNat_inj, held, eq_comm]

end Decimal

namespace ListName

open Decimal

/-- How the text in a field of a case name is read as a count. -/
structure ReadsExactly (name : String) (field : CountField) (text : String) : Prop where
  accepts : ∀ count,
    (readCount field text.toList).mapError (NameError.mk name) = .ok count ↔
      StandsFor text count.toNat
  refuses : ∀ error,
    (readCount field text.toList).mapError (NameError.mk name) = .error error ↔
      (∀ number, ¬ StandsFor text number) ∧ error = ⟨name, .invalidCount field text⟩
  /-- Digits that are taken into 64 bits one by one come to the same count. -/
  inWords : text ≠ "" → (∀ char ∈ text.toList, '0' ≤ char ∧ char ≤ '9') →
    (readCount field text.toList).toOption = (accumulate? text.toList).filter (0 < ·)
  written : ∀ count : UInt64, 1 ≤ count → text = Nat.repr count.toNat →
    readCount field text.toList = .ok count

theorem readCount_readsExactly (name : String) (field : CountField) (text : String) :
    ReadsExactly name field text := by
  constructor
  case accepts =>
    intro count
    rw [mapError_eq_ok_iff, readCount_eq_ok_iff, readCount?_toList_eq_some_iff]
  case refuses =>
    intro error
    have refused : readCount? text.toList = none ↔ ∀ number, ¬ StandsFor text number := by
      rw [Option.eq_none_iff_forall_ne_some]
      constructor
      · intro none number standsFor
        have held : number.toUInt64.toNat = number :=
          UInt64.toNat_ofNat_of_lt (Nat.lt_of_le_pred (by decide) standsFor.bounded)
        exact none number.toUInt64 (readCount?_toList_eq_some_iff.mpr (held.symm ▸ standsFor))
      · intro none count read
        exact none count.toNat (readCount?_toList_eq_some_iff.mp read)
    rw [mapError_eq_error_iff, ← refused]
    cases read : readCount? text.toList with
    | none => simp [readCount, read, eq_comm]
    | some count => simp [readCount, read]
  case inWords =>
    intro nonempty digits
    simp only [← isDigit_iff] at digits
    apply Option.ext
    intro count
    rw [toOption_eq_some_iff, readCount_eq_ok_iff, readCount?_toList_eq_some_iff,
      Option.filter_eq_some_iff, accumulate?_eq_some_iff digits]
    simp only [decide_eq_true_eq, UInt64.lt_iff_toNat_lt, UInt64.toNat_zero]
    constructor
    · exact fun standsFor => ⟨standsFor.isValue, standsFor.positive⟩
    · rintro ⟨isValue, positive⟩
      simp only [isDigit_iff] at digits
      exact ⟨nonempty, digits, isValue, positive, Nat.le_pred_of_lt count.toNat_lt⟩
  case written =>
    rintro count positive rfl
    rw [readCount_eq_ok_iff, readCount?_toList_eq_some_iff, standsFor_iff]
    exact ⟨isCount_repr positive, value_repr count⟩

end ListName

end ThroughputCharts
