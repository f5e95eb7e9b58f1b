import Mathlib.Data.List.TakeWhile
import ThroughputCharts.Decimal.Numeral
import ThroughputCharts.Text.Blank

/-!
# The grammar of decimal numerals

A text is read as a numeral exactly when it falls into a sign, digits with at most one point and an
exponent.  None of their characters is a blank, so blanks around a numeral can be told apart from
it.
-/

namespace ThroughputCharts

namespace Text

theorem dropWhile_isBlank_append {blanks text : List Char}
    (allBlank : ∀ char ∈ blanks, isBlank char = true) (nonempty : text ≠ [])
    (noBlanks : ∀ char ∈ text, isBlank char = false) (rest : List Char) :
    (blanks ++ (text ++ rest)).dropWhile isBlank = text ++ rest := by
  obtain ⟨first, text, rfl⟩ := List.exists_cons_of_ne_nil nonempty
  rw [List.dropWhile_append_of_pos allBlank, List.cons_append, List.dropWhile_cons_of_neg]
  rw [noBlanks first List.mem_cons_self]
  exact Bool.false_ne_true

/-- Between blanks, a text without any remains. -/
theorem trim_append {front text back : List Char}
    (blankFront : ∀ char ∈ front, isBlank char = true)
    (blankBack : ∀ char ∈ back, isBlank char = true) (nonempty : text ≠ [])
    (noBlanks : ∀ char ∈ text, isBlank char = false) : trim (front ++ (text ++ back)) = text := by
  rw [trim, dropWhile_isBlank_append blankFront nonempty noBlanks, List.reverse_append]
  have reversed := @dropWhile_isBlank_append back.reverse text.reverse (by simpa using blankBack)
    (by simpa using nonempty) (by simpa using noBlanks) []
  rw [List.append_nil] at reversed
  rw [reversed, List.reverse_reverse]

theorem trim_eq_self {text : List Char} (noBlanks : ∀ char ∈ text, isBlank char = false) :
    trim text = text := by
  rcases eq_or_ne text [] with rfl | nonempty
  · rfl
  · have alone := @trim_append [] text [] nofun nofun nonempty noBlanks
    rwa [List.append_nil] at alone

/-- Trimming takes blanks away on both sides. -/
theorem exists_eq_trim (text : List Char) :
    ∃ front back, text = front ++ (trim text ++ back) ∧ (∀ char ∈ front, isBlank char = true) ∧
      ∀ char ∈ back, isBlank char = true := by
  have taken {chars : List Char} : ∀ char ∈ chars.takeWhile isBlank, isBlank char = true :=
    fun char member => List.mem_takeWhile_imp member
  refine ⟨text.takeWhile isBlank, ((text.dropWhile isBlank).reverse.takeWhile isBlank).reverse,
    ?_, taken, fun char member => taken char (List.mem_reverse.mp member)⟩
  rw [trim, ← List.reverse_append, List.takeWhile_append_dropWhile, List.reverse_reverse,
    List.takeWhile_append_dropWhile]

end Text

namespace Decimal

/-- An optional sign, and whether it is a minus. -/
inductive IsSign : List Char → Bool → Prop
  | absent : IsSign [] false
  | plus : IsSign ['+'] false
  | minus : IsSign ['-'] true

/-- Digits with at most one point among them and at least one digit. -/
structure IsSignificand (text whole fraction : List Char) : Prop where
  cut : text = whole ∧ fraction = [] ∨ text = whole ++ '.' :: fraction
  digits : ∀ char ∈ whole ++ fraction, char.isDigit = true
  nonempty : whole ++ fraction ≠ []

/-- An optional exponent: a mark, an optional sign, and at least one digit. -/
inductive IsExponent : List Char → Int → Prop
  | absent : IsExponent [] 0
  | written {mark : Char} {sign digits : List Char} {negative : Bool}
      (isMark : mark = 'e' ∨ mark = 'E') (isSign : IsSign sign negative)
      (areDigits : isDigits digits = true) :
      IsExponent (mark :: (sign ++ digits))
        (if negative then -(value digits : Int) else value digits)

/-- A text is a numeral with the given sign, digits and exponent. -/
def IsNumeral (text : List Char) (negative : Bool) (whole fraction : List Char) (exponent : Int) :
    Prop :=
  ∃ sign significand tail, text = sign ++ (significand ++ tail) ∧ IsSign sign negative ∧
    IsSignificand significand whole fraction ∧ IsExponent tail exponent

section Signs

variable {text : List Char} {negative : Bool}

theorem exists_isSign (text : List Char) :
    ∃ sign, text = sign ++ (splitSign text).2 ∧ IsSign sign (splitSign text).1 := by
  unfold splitSign
  split
  · exact ⟨['-'], rfl, .minus⟩
  · exact ⟨['+'], rfl, .plus⟩
  · exact ⟨[], rfl, .absent⟩

/-- The sign is split off a text that does not start with another one. -/
theorem IsSign.splitSign_append {sign : List Char} (isSign : IsSign sign negative)
    (unsigned : ∀ char ∈ text.head?, char ≠ '-' ∧ char ≠ '+') :
    splitSign (sign ++ text) = (negative, text) := by
  cases isSign with
  | absent =>
      rw [List.nil_append]
      unfold splitSign
      split
      · exact absurd rfl (unsigned '-' rfl).1
      · exact absurd rfl (unsigned '+' rfl).2
      · rfl
  | plus => rfl
  | minus => rfl

theorem isDigit_of_isDigits {digits : List Char} (areDigits : isDigits digits = true) :
    digits ≠ [] ∧ ∀ char ∈ digits, char.isDigit = true := by
  simpa [isDigits] using areDigits

theorem ne_of_isDigit {char other : Char} (digit : char.isDigit = true)
    (notDigit : other.isDigit = false) : char ≠ other := by
  rintro rfl
  rw [digit] at notDigit
  contradiction

end Signs

section Exponents

variable {tail : List Char} {exponent : Int}

theorem readExponent?_eq_some_iff :
    readExponent? tail = some exponent ↔ IsExponent tail exponent := by
  constructor
  · intro accepted
    cases tail with
    | nil =>
        obtain rfl := Option.some.inj accepted
        exact .absent
    | cons mark rest =>
        rw [readExponent?] at accepted
        split at accepted
        case isTrue isMark =>
          dsimp only at accepted
          split at accepted
          case isTrue areDigits =>
            obtain ⟨sign, cut, isSign⟩ := exists_isSign rest
            obtain rfl := Option.some.inj accepted
            have written := IsExponent.written isMark isSign areDigits
            rwa [← cut] at written
          case isFalse => contradiction
        case isFalse => contradiction
  · rintro (_ | ⟨isMark, isSign, areDigits⟩)
    · rfl
    · obtain ⟨-, digits⟩ := isDigit_of_isDigits areDigits
      have split := isSign.splitSign_append fun char isFirst =>
        have digit := digits char (List.mem_of_mem_head? isFirst)
        ⟨ne_of_isDigit digit rfl, ne_of_isDigit digit rfl⟩
      rw [readExponent?, if_pos isMark, split]
      exact if_pos areDigits

/-- An exponent goes on neither the digits in front of it nor the point. -/
theorem IsExponent.head? (isExponent : IsExponent tail exponent) :
    ∀ char ∈ tail.head?, char.isDigit = false ∧ char ≠ '.' := by
  cases isExponent with
  | absent => exact nofun
  | written isMark _ _ =>
      intro char isFirst
      obtain rfl := Option.some.inj isFirst
      rcases isMark with rfl | rfl <;> decide

end Exponents

section Significands

variable {significand whole fraction tail : List Char}

/-- Digits end in front of what is none. -/
theorem cut_digits {digits rest : List Char} (areDigits : ∀ char ∈ digits, char.isDigit = true)
    (ends : ∀ char ∈ rest.head?, char.isDigit = false) :
    (digits ++ rest).takeWhile Char.isDigit = digits ∧
      (digits ++ rest).dropWhile Char.isDigit = rest := by
  rw [List.takeWhile_append_of_pos areDigits, List.dropWhile_append_of_pos areDigits]
  cases rest with
  | nil => exact ⟨List.append_nil digits, rfl⟩
  | cons char rest =>
      have notDigit : ¬ char.isDigit = true := by simp [ends char rfl]
      rw [List.takeWhile_cons_of_neg notDigit, List.dropWhile_cons_of_neg notDigit, List.append_nil]
      exact ⟨rfl, rfl⟩

theorem splitFraction_of_head? (noPoint : ∀ char ∈ tail.head?, char ≠ '.') :
    splitFraction tail = ([], tail) := by
  unfold splitFraction
  split
  · exact absurd rfl (noPoint '.' rfl)
  · rfl

/-- What is neither a digit nor a point ends the digits of a numeral. -/
theorem IsSignificand.split (isSignificand : IsSignificand significand whole fraction)
    (ends : ∀ char ∈ tail.head?, char.isDigit = false ∧ char ≠ '.') :
    (significand ++ tail).takeWhile Char.isDigit = whole ∧
      splitFraction ((significand ++ tail).dropWhile Char.isDigit) = (fraction, tail) := by
  obtain ⟨cut, digits, -⟩ := isSignificand
  rw [List.forall_mem_append] at digits
  have tailEnds := fun char isFirst => (ends char isFirst).1
  rcases cut with ⟨rfl, rfl⟩ | rfl
  · obtain ⟨isWhole, isTail⟩ := cut_digits digits.1 tailEnds
    rw [isTail]
    exact ⟨isWhole, splitFraction_of_head? fun char isFirst => (ends char isFirst).2⟩
  · have pointEnds : ∀ char ∈ ('.' :: (fraction ++ tail)).head?, char.isDigit = false := by
      intro char isFirst
      obtain rfl := Option.some.inj isFirst
      rfl
    obtain ⟨isWhole, isPoint⟩ := cut_digits digits.1 pointEnds
    obtain ⟨isFraction, isTail⟩ := cut_digits digits.2 tailEnds
    rw [List.append_assoc, List.cons_append, isPoint, splitFraction, isFraction, isTail]
    exact ⟨isWhole, rfl⟩

/-- Digits, a point and further digits can be told apart. -/
theorem exists_isSignificand {unsigned : List Char}
    (split : splitFraction (unsigned.dropWhile Char.isDigit) = (fraction, tail))
    (nonempty : unsigned.takeWhile Char.isDigit ++ fraction ≠ []) :
    ∃ significand, unsigned = significand ++ tail ∧
      IsSignificand significand (unsigned.takeWhile Char.isDigit) fraction := by
  have parts : unsigned = unsigned.takeWhile Char.isDigit ++ unsigned.dropWhile Char.isDigit :=
    List.takeWhile_append_dropWhile.symm
  have digits (text : List Char) : ∀ char ∈ text.takeWhile Char.isDigit, char.isDigit = true :=
    fun char member => List.mem_takeWhile_imp member
  unfold splitFraction at split
  split at split
  next rest isRest =>
    obtain ⟨rfl, rfl⟩ := Prod.mk.inj split
    refine ⟨unsigned.takeWhile Char.isDigit ++ '.' :: rest.takeWhile Char.isDigit, ?_,
      ⟨.inr rfl, List.forall_mem_append.mpr ⟨digits unsigned, digits rest⟩, nonempty⟩⟩
    rw [List.append_assoc, List.cons_append, List.takeWhile_append_dropWhile, ← isRest]
    exact parts
  next =>
    obtain ⟨rfl, rfl⟩ := Prod.mk.inj split
    refine ⟨_, parts, ⟨.inl ⟨rfl, rfl⟩, ?_, nonempty⟩⟩
    rw [List.append_nil]
    exact digits unsigned

theorem IsSignificand.exists_isDigit (isSignificand : IsSignificand significand whole fraction) :
    ∃ char ∈ significand, char.isDigit = true := by
  obtain ⟨cut, digits, nonempty⟩ := isSignificand
  obtain ⟨digit, member⟩ := List.exists_mem_of_ne_nil _ nonempty
  refine ⟨digit, ?_, digits digit member⟩
  rcases cut with ⟨rfl, rfl⟩ | rfl
  · rwa [List.append_nil] at member
  · exact List.mem_append.mpr ((List.mem_append.mp member).imp_right (List.mem_cons_of_mem _))

/-- A significand has a character, and each of them is a digit or the point. -/
theorem IsSignificand.chars (isSignificand : IsSignificand significand whole fraction) :
    significand ≠ [] ∧ ∀ char ∈ significand, char.isDigit = true ∨ char = '.' := by
  obtain ⟨cut, digits, nonempty⟩ := isSignificand
  rcases cut with ⟨rfl, rfl⟩ | rfl
  · rw [List.append_nil] at digits nonempty
    exact ⟨nonempty, fun char member => .inl (digits char member)⟩
  · refine ⟨by simp, fun char member => ?_⟩
    rcases List.mem_append.mp member with inWhole | isPoint
    · exact .inl (digits char (List.mem_append_left _ inWhole))
    · rcases List.mem_cons.mp isPoint with rfl | inFraction
      · exact .inr rfl
      · exact .inl (digits char (List.mem_append_right _ inFraction))

/-- A significand has no sign in front of it. -/
theorem IsSignificand.head? (isSignificand : IsSignificand significand whole fraction) :
    ∀ char ∈ (significand ++ tail).head?, char ≠ '-' ∧ char ≠ '+' := by
  obtain ⟨nonempty, chars⟩ := isSignificand.chars
  obtain ⟨first, rest, rfl⟩ := List.exists_cons_of_ne_nil nonempty
  intro char isFirst
  obtain rfl := Option.some.inj isFirst
  rcases chars first List.mem_cons_self with digit | rfl
  · exact ⟨ne_of_isDigit digit rfl, ne_of_isDigit digit rfl⟩
  · decide

end Significands

/-- The numerals that are read, with their signs, digits and exponents. -/
theorem readNumeral?_eq_some_iff {text : List Char} {numeral : Numeral} :
    readNumeral? text = some numeral ↔ ∃ whole fraction exponent,
      IsNumeral text numeral.negative whole fraction exponent ∧
        numeral.coefficient = value (whole ++ fraction) ∧
          numeral.exponent = exponent - fraction.length := by
  constructor
  · intro accepted
    rw [readNumeral?] at accepted
    obtain ⟨sign, cut, isSign⟩ := exists_isSign text
    generalize splitSign text = parts at *
    obtain ⟨negative, unsigned⟩ := parts
    dsimp only at *
    obtain ⟨⟨fraction, tail⟩, split⟩ :
      ∃ parts, splitFraction (unsigned.dropWhile Char.isDigit) = parts := ⟨_, rfl⟩
    rw [split] at accepted
    dsimp only at accepted
    split at accepted
    case isTrue => contradiction
    case isFalse hasDigit =>
      obtain ⟨exponent, isExponent, rfl⟩ := Option.map_eq_some_iff.mp accepted
      obtain ⟨significand, rfl, isSignificand⟩ :=
        exists_isSignificand split (by simpa using hasDigit)
      exact ⟨_, fraction, exponent, ⟨sign, significand, tail, cut, isSign, isSignificand,
        readExponent?_eq_some_iff.mp isExponent⟩, rfl, rfl⟩
  · rintro ⟨whole, fraction, exponent, ⟨sign, significand, tail, rfl, isSign, isSignificand,
      isExponent⟩, coefficient, places⟩
    obtain ⟨isWhole, isRest⟩ := isSignificand.split isExponent.head?
    have hasDigit : ¬ (whole.isEmpty && fraction.isEmpty) = true := by
      simpa using isSignificand.nonempty
    rw [readNumeral?, isSign.splitSign_append isSignificand.head?]
    dsimp only
    rw [isWhole, isRest]
    dsimp only
    rw [if_neg hasDigit, readExponent?_eq_some_iff.mpr isExponent, ← coefficient, Option.map_some,
      ← places]

theorem IsNumeral.exists_isDigit {text whole fraction : List Char} {negative : Bool}
    {exponent : Int} (isNumeral : IsNumeral text negative whole fraction exponent) :
    ∃ char ∈ text, char.isDigit = true := by
  obtain ⟨sign, significand, tail, rfl, -, isSignificand, -⟩ := isNumeral
  obtain ⟨digit, member, isDigit⟩ := isSignificand.exists_isDigit
  exact ⟨digit, List.mem_append_right _ (List.mem_append_left _ member), isDigit⟩

section Blanks

theorem isBlank_of_isDigit {char : Char} (digit : char.isDigit = true) :
    Text.isBlank char = false := by
  have range : 48 ≤ char.toNat ∧ char.toNat ≤ 57 := Char.isDigit_iff_toNat.mp digit
  simp only [Text.isBlank, Text.blankRanges, List.any_cons, List.any_nil, Bool.or_false,
    Bool.or_eq_false_iff, Bool.and_eq_false_iff, decide_eq_false_iff_not]
  omega

theorem IsSign.isBlank_eq_false {sign : List Char} {negative : Bool}
    (isSign : IsSign sign negative) : ∀ char ∈ sign, Text.isBlank char = false := by
  cases isSign with
  | absent => exact List.forall_mem_nil _
  | plus => exact List.forall_mem_singleton.mpr rfl
  | minus => exact List.forall_mem_singleton.mpr rfl

theorem IsExponent.isBlank_eq_false {tail : List Char} {exponent : Int}
    (isExponent : IsExponent tail exponent) : ∀ char ∈ tail, Text.isBlank char = false := by
  cases isExponent with
  | absent => exact List.forall_mem_nil _
  | written isMark isSign areDigits =>
      rw [List.forall_mem_cons, List.forall_mem_append]
      refine ⟨?_, isSign.isBlank_eq_false, fun char member => ?_⟩
      · rcases isMark with rfl | rfl <;> rfl
      · exact isBlank_of_isDigit ((isDigit_of_isDigits areDigits).2 char member)

/-- A numeral has a character, and none of them is a blank. -/
theorem IsNumeral.isBlank_eq_false {text whole fraction : List Char} {negative : Bool}
    {exponent : Int} (isNumeral : IsNumeral text negative whole fraction exponent) :
    text ≠ [] ∧ ∀ char ∈ text, Text.isBlank char = false := by
  obtain ⟨sign, significand, tail, rfl, isSign, isSignificand, isExponent⟩ := isNumeral
  obtain ⟨nonempty, chars⟩ := isSignificand.chars
  refine ⟨by simp [nonempty], ?_⟩
  rw [List.forall_mem_append, List.forall_mem_append]
  refine ⟨isSign.isBlank_eq_false, fun char member => ?_, isExponent.isBlank_eq_false⟩
  rcases chars char member with digit | rfl
  · exact isBlank_of_isDigit digit
  · rfl

end Blanks

end Decimal

end ThroughputCharts
