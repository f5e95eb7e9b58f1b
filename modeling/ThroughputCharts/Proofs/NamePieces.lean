import ThroughputCharts.CaseName.ListName
import ThroughputCharts.Decimal.Count
import ThroughputCharts.Text.Split

/-!
# The pieces of a case name

Every cut that reading a case name makes is determined by the text: the pieces between all marks,
the parts around the first or the last mark, and the counts in pieces of digits.
-/

namespace ThroughputCharts

namespace Text

theorem pieces_of_notMem {mark : Char} {text : List Char} (absent : mark ∉ text) :
    pieces mark text = [text] := by
  induction text with
  | nil => rfl
  | cons char rest induction =>
      rw [List.mem_cons, not_or] at absent
      simp [pieces, Ne.symm absent.1, induction absent.2]

theorem pieces_append_mark {mark : Char} {first : List Char} (absent : mark ∉ first)
    (rest : List Char) :
    pieces mark (first ++ mark :: rest) = first :: pieces mark rest := by
  induction first with
  | nil => simp [pieces]
  | cons char first induction =>
      rw [List.mem_cons, not_or] at absent
      simp [pieces, Ne.symm absent.1, induction absent.2]

theorem notMem_of_mem_pieces {mark : Char} {text piece : List Char}
    (member : piece ∈ pieces mark text) : mark ∉ piece := by
  induction text generalizing piece with
  | nil =>
      rw [pieces, List.mem_singleton] at member
      simp [member]
  | cons char rest induction =>
      simp only [pieces] at member
      split at member
      next =>
        rcases List.mem_cons.mp member with rfl | later
        · simp
        · exact induction later
      next notMark =>
        cases found : pieces mark rest with
        | nil => exact absurd found (pieces_ne_nil mark rest)
        | cons first others =>
            rw [found] at member induction
            rcases List.mem_cons.mp member with rfl | later
            · simp [Ne.symm notMark, induction List.mem_cons_self]
            · exact induction (List.mem_cons_of_mem _ later)

/-- Pieces without the mark that are joined by it are found again. -/
theorem pieces_intercalate {mark : Char} {texts : List (List Char)} (nonempty : texts ≠ [])
    (absent : ∀ text ∈ texts, mark ∉ text) :
    pieces mark ([mark].intercalate texts) = texts := by
  induction texts with
  | nil => exact absurd rfl nonempty
  | cons text others induction =>
      have absentFirst := absent text List.mem_cons_self
      cases others with
      | nil => simpa using pieces_of_notMem absentFirst
      | cons next others =>
          have absentRest := fun later member => absent later (List.mem_cons_of_mem text member)
          rw [List.intercalate_cons_cons, List.append_assoc, List.singleton_append,
            pieces_append_mark absentFirst, induction (by simp) absentRest]

/-- What is put behind a text, if it has no mark, goes to the last piece. -/
theorem exists_pieces_append_eq {mark : Char} {ending : List Char} (absent : mark ∉ ending)
    (text : List Char) :
    ∃ before last, pieces mark text = before ++ [last] ∧
      pieces mark (text ++ ending) = before ++ [last ++ ending] := by
  induction text with
  | nil => exact ⟨[], [], rfl, pieces_of_notMem absent⟩
  | cons char text induction =>
      obtain ⟨before, last, split, longer⟩ := induction
      rw [List.cons_append, pieces, pieces]
      by_cases isMark : char = mark
      · exact ⟨[] :: before, last, by simp [isMark, split], by simp [isMark, longer]⟩
      · rw [if_neg isMark, if_neg isMark, split, longer]
        cases before with
        | nil => exact ⟨[], char :: last, rfl, rfl⟩
        | cons first before => exact ⟨(char :: first) :: before, last, rfl, rfl⟩

theorem splitAtFirst?_append {mark : Char} {before : List Char} (absent : mark ∉ before)
    (after : List Char) : splitAtFirst? mark (before ++ mark :: after) = some (before, after) := by
  induction before with
  | nil => simp [splitAtFirst?]
  | cons char before induction =>
      rw [List.mem_cons, not_or] at absent
      simp [splitAtFirst?, Ne.symm absent.1, induction absent.2]

theorem splitAtFirst?_eq_some_iff {mark : Char} {text before after : List Char} :
    splitAtFirst? mark text = some (before, after) ↔
      text = before ++ mark :: after ∧ mark ∉ before := by
  constructor
  · exact eq_of_splitAtFirst?
  · rintro ⟨rfl, absent⟩
    exact splitAtFirst?_append absent after

theorem splitAtLast?_eq_none_iff {mark : Char} {text : List Char} :
    splitAtLast? mark text = none ↔ mark ∉ text := by
  induction text with
  | nil => simp [splitAtLast?]
  | cons char rest induction =>
      cases found : splitAtLast? mark rest with
      | none =>
          have absent := induction.mp found
          simp [splitAtLast?, found, absent, eq_comm]
      | some parts =>
          have present : mark ∈ rest := by
            apply Classical.byContradiction
            intro absent
            simp [induction.mpr absent] at found
          simp [splitAtLast?, found, present]

theorem splitAtLast?_append {mark : Char} {after : List Char} (absent : mark ∉ after)
    (before : List Char) : splitAtLast? mark (before ++ mark :: after) = some (before, after) := by
  induction before with
  | nil => simp [splitAtLast?, splitAtLast?_eq_none_iff.mpr absent]
  | cons char before induction => simp [splitAtLast?, induction]

theorem splitAtLast?_eq_some_iff {mark : Char} {text before after : List Char} :
    splitAtLast? mark text = some (before, after) ↔
      text = before ++ mark :: after ∧ mark ∉ after := by
  constructor
  · intro split
    induction text generalizing before after with
    | nil => simp [splitAtLast?] at split
    | cons char rest induction =>
        cases found : splitAtLast? mark rest with
        | none =>
            simp only [splitAtLast?, found, Option.ite_none_right_eq_some, Option.some.injEq,
              Prod.mk.injEq] at split
            obtain ⟨rfl, rfl, rfl⟩ := split
            exact ⟨rfl, splitAtLast?_eq_none_iff.mp found⟩
        | some parts =>
            simp only [splitAtLast?, found, Option.some.injEq, Prod.mk.injEq] at split
            obtain ⟨rfl, rfl⟩ := split
            obtain ⟨joined, absent⟩ := induction found
            exact ⟨congrArg (char :: ·) joined, absent⟩
  · rintro ⟨rfl, absent⟩
    exact splitAtLast?_append absent before

/-- A word in front of a character that cannot belong to it is all that is taken. -/
theorem takeWhile_append_stop {inside : Char → Bool} {word : List Char} {stop : Char}
    (allInside : ∀ char ∈ word, inside char = true) (outside : inside stop = false)
    (rest : List Char) : (word ++ stop :: rest).takeWhile inside = word := by
  rw [List.takeWhile_append_of_pos allInside, List.takeWhile_cons_of_neg (by simp [outside]),
    List.append_nil]

theorem takeWhile_append_stop_eq {inside : Char → Bool} {stop : Char}
    (outside : inside stop = false) (text rest : List Char) :
    (text ++ stop :: rest).takeWhile inside = text.takeWhile inside := by
  induction text with
  | nil => simp [outside]
  | cons char text induction =>
      rw [List.cons_append, List.takeWhile_cons, List.takeWhile_cons, induction]

end Text

namespace Decimal

/-- A text that is a positive 64-bit count: decimal digits, leading zeros allowed, whose value is
neither zero nor beyond the range. -/
structure IsCount (text : String) : Prop where
  nonempty : text ≠ ""
  digits : ∀ char ∈ text.toList, char.isDigit = true
  positive : 1 ≤ value text.toList
  bounded : value text.toList < UInt64.size

/-- Reading a count accepts exactly the counts and gives their value. -/
theorem readCount?_eq_some_iff {text : List Char} {count : UInt64} :
    readCount? text = some count ↔
      IsCount (String.ofList text) ∧ count = (value text).toUInt64 := by
  simp only [readCount?, readWord?, Option.filter_eq_some_iff, Option.ite_none_right_eq_some,
    Bool.and_eq_true, decide_eq_true_eq, Option.some.injEq]
  constructor
  · rintro ⟨⟨⟨areDigits, fits⟩, rfl⟩, positive⟩
    simp only [isDigits, Bool.and_eq_true, Bool.not_eq_true', List.all_eq_true] at areDigits
    have valueEq : (value text).toUInt64.toNat = value text := Nat.mod_eq_of_lt fits
    rw [UInt64.lt_iff_toNat_lt, valueEq] at positive
    refine ⟨⟨?_, ?_, ?_, ?_⟩, rfl⟩
    · simpa using areDigits.1
    · simpa using areDigits.2
    · rw [String.toList_ofList]
      exact positive
    · rw [String.toList_ofList]
      exact fits
  · rintro ⟨⟨nonempty, digits, positive, bounded⟩, rfl⟩
    rw [String.toList_ofList] at digits positive bounded
    have valueEq : (value text).toUInt64.toNat = value text := Nat.mod_eq_of_lt bounded
    refine ⟨⟨⟨?_, bounded⟩, rfl⟩, ?_⟩
    · have hasDigit : text ≠ [] := by simpa using nonempty
      simpa [isDigits, hasDigit] using digits
    · rw [UInt64.lt_iff_toNat_lt, valueEq]
      exact positive

/-- A count stays positive when it is held in 64 bits. -/
theorem IsCount.one_le {text : String} (isCount : IsCount text) :
    1 ≤ (value text.toList).toUInt64 := by
  have valueEq : (value text.toList).toUInt64.toNat = value text.toList :=
    Nat.mod_eq_of_lt isCount.bounded
  rw [UInt64.le_iff_toNat_le, valueEq]
  exact isCount.positive

end Decimal

namespace ListName

theorem readCount_eq_ok_iff {field : CountField} {text : List Char} {count : UInt64} :
    readCount field text = .ok count ↔ Decimal.readCount? text = some count := by
  cases found : Decimal.readCount? text <;> simp [readCount, found]

end ListName

end ThroughputCharts
