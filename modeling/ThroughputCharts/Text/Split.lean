/-!
# Splitting a text at a mark

Case names are taken apart at single characters.  Each function here returns the pieces around a
mark, and together with the mark the pieces make up the whole text again.
-/

namespace ThroughputCharts
namespace Text

/-- The pieces of a text between all occurrences of a mark. -/
def pieces (mark : Char) : List Char → List (List Char)
  | [] => [[]]
  | char :: rest =>
    if char = mark then
      [] :: pieces mark rest
    else
      match pieces mark rest with
      | [] => [[char]]
      | piece :: others => (char :: piece) :: others

/-- The text before and after the first occurrence of a mark. -/
def splitAtFirst? (mark : Char) : List Char → Option (List Char × List Char)
  | [] => none
  | char :: rest =>
    if char = mark then
      some ([], rest)
    else
      (splitAtFirst? mark rest).map fun (before, after) => (char :: before, after)

/-- The text before and after the last occurrence of a mark. -/
def splitAtLast? (mark : Char) : List Char → Option (List Char × List Char)
  | [] => none
  | char :: rest =>
    match splitAtLast? mark rest with
    | some (before, after) => some (char :: before, after)
    | none => if char = mark then some ([], rest) else none

theorem pieces_ne_nil (mark : Char) (text : List Char) : pieces mark text ≠ [] := by
  cases text with
  | nil => simp [pieces]
  | cons char rest =>
      simp only [pieces]
      split
      · simp
      · split <;> simp

/-- The pieces joined by the mark are the text. -/
theorem intercalate_pieces (mark : Char) (text : List Char) :
    [mark].intercalate (pieces mark text) = text := by
  induction text with
  | nil => rfl
  | cons char rest induction =>
      simp only [pieces]
      split
      next isMark =>
        cases found : pieces mark rest with
        | nil => exact absurd found (pieces_ne_nil mark rest)
        | cons piece others =>
            rw [found] at induction
            simp [List.intercalate_cons_cons, induction, isMark]
      next notMark =>
        cases found : pieces mark rest with
        | nil => exact absurd found (pieces_ne_nil mark rest)
        | cons piece others =>
            rw [found] at induction
            cases others with
            | nil => simpa using induction
            | cons next others =>
                simp only [List.intercalate_cons_cons] at induction ⊢
                simp [induction]

theorem eq_of_splitAtFirst? {mark : Char} {text before after : List Char}
    (split : splitAtFirst? mark text = some (before, after)) :
    text = before ++ mark :: after ∧ mark ∉ before := by
  induction text generalizing before with
  | nil => simp [splitAtFirst?] at split
  | cons char rest induction =>
      by_cases isMark : char = mark
      · simp [splitAtFirst?, isMark] at split
        simp [split.1, split.2, isMark]
      · simp only [splitAtFirst?, isMark, if_false, Option.map_eq_some_iff, Prod.exists,
          Prod.mk.injEq] at split
        obtain ⟨shorter, _, found, rfl, rfl⟩ := split
        have ⟨joined, absent⟩ := induction found
        exact ⟨by simp [joined], by simp [absent, Ne.symm isMark]⟩

end Text
end ThroughputCharts
