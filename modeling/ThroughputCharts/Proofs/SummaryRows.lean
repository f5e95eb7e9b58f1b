import Mathlib.Data.List.Forall2
import ThroughputCharts.Proofs.ListNameRoundTrip
import ThroughputCharts.Proofs.NumberText
import ThroughputCharts.Summary

/-!
# The rows of the summary table

The summary has a row for each point between fixed lines and an empty line.  A cell that is wider than
its column still has a blank on both sides, so that a row falls apart into its six cells at the blanks,
and these give the configuration and the trials of the point back.
-/

namespace ThroughputCharts

namespace Text

/-- The words of a text between its blanks. -/
def words (text : List Char) : List (List Char) :=
  (text.splitOnP isBlank).filter fun word => !word.isEmpty

/-- A text that is not broken by blanks. -/
structure IsWord (text : List Char) : Prop where
  nonempty : text ≠ []
  solid : ∀ char ∈ text, isBlank char = false

theorem solid_of_all {text : List Char} (all : (text.all fun char => !isBlank char) = true) :
    ∀ char ∈ text, isBlank char = false := by
  simpa using all

section Words

variable {cell text : List Char} {char : Char}

/-- A blank divides the words in front of it from those behind it. -/
theorem words_append_blank (front : List Char) (blank : isBlank char = true) (back : List Char) :
    words (front ++ char :: back) = words front ++ words back := by
  rw [words, List.splitOnP_append_cons front back blank, List.filter_append]
  rfl

theorem words_blank_cons (text : List Char) : words (' ' :: text) = words text :=
  words_append_blank [] rfl text

theorem words_blanks_append (count : Nat) (text : List Char) :
    words (List.replicate count ' ' ++ text) = words text := by
  induction count with
  | zero => rfl
  | succ count ih => rw [List.replicate_succ, List.cons_append, words_blank_cons, ih]

theorem IsWord.words_eq (isWord : IsWord text) : words text = [text] := by
  simp [words, List.splitOnP_eq_singleton isWord.solid, isWord.nonempty]

theorem IsWord.words_cons (isWord : IsWord cell) (text : List Char) :
    words (cell ++ ' ' :: text) = cell :: words text := by
  rw [words_append_blank cell rfl text, isWord.words_eq, List.singleton_append]

/-- However wide a cell is, the blank behind its column ends it. -/
theorem IsWord.words_padRight (isWord : IsWord cell) (width : Nat) (text : List Char) :
    words (padRight width cell ++ ' ' :: text) = cell :: words text := by
  have filled : padRight width cell ++ ' ' :: text =
      cell ++ ' ' :: (List.replicate (width - cell.length) ' ' ++ text) := by
    rw [padRight, List.append_assoc, List.append_cons, ← List.replicate_succ',
      List.replicate_succ, List.cons_append]
  rw [filled, isWord.words_cons, words_blanks_append]

theorem IsWord.words_padLeft (isWord : IsWord cell) (width : Nat) (text : List Char) :
    words (padLeft width cell ++ ' ' :: text) = cell :: words text := by
  rw [padLeft, List.append_assoc, words_blanks_append, isWord.words_cons]

theorem IsWord.words_padLeft_last (isWord : IsWord cell) (width : Nat) :
    words (padLeft width cell) = [cell] := by
  rw [padLeft, words_blanks_append, isWord.words_eq]

theorem IsWord.lineFeed_notMem (isWord : IsWord cell) : '\n' ∉ cell := by
  intro member
  exact absurd (isWord.solid '\n' member) (by decide)

end Words

/-- Lines that are each ended are the first pieces between line ends. -/
theorem pieces_flatMap_append {lines : List (List Char)} (single : ∀ line ∈ lines, '\n' ∉ line)
    (rest : List Char) :
    pieces '\n' (lines.flatMap (fun line => line ++ ['\n']) ++ rest) =
      lines ++ pieces '\n' rest := by
  induction lines with
  | nil => rfl
  | cons line lines ih =>
      rw [List.forall_mem_cons] at single
      rw [List.flatMap_cons, List.append_assoc, List.append_assoc, List.singleton_append,
        pieces_append_mark single.1, ih single.2, List.cons_append]

end Text

namespace Summary

open Text

/-- The lines of the summary in front of its rows. -/
def headingLines : List String :=
  ["",
    "================================================================================",
    "Aggregated Results",
    "================================================================================",
    "",
    "  Variant                  Workload                     Size  Threads       Throughput  Trials",
    "  --------------------------------------------------------------------------------------------"]

theorem heading_eq :
    heading = (headingLines.map String.toList).flatMap line := by
  decide +kernel

section Rows

variable {variant workload size threads throughput trials : List Char}

/-- The cells of a row are its words. -/
theorem words_row (isVariant : IsWord variant) (isWorkload : IsWord workload)
    (isSize : IsWord size) (isThreads : IsWord threads) (isThroughput : IsWord throughput)
    (isTrials : IsWord trials) :
    words (row variant workload size threads throughput trials) =
      [variant, workload, size, threads, throughput, trials] := by
  simp only [row, List.append_assoc, List.cons_append, List.nil_append]
  rw [words_blank_cons, words_blank_cons, isVariant.words_padRight, isWorkload.words_padRight,
    isSize.words_padLeft, isThreads.words_padLeft, isThroughput.words_padLeft,
    isTrials.words_padLeft_last]

theorem lineFeed_notMem_row (isVariant : IsWord variant) (isWorkload : IsWord workload)
    (isSize : IsWord size) (isThreads : IsWord threads) (isThroughput : IsWord throughput)
    (isTrials : IsWord trials) :
    '\n' ∉ row variant workload size threads throughput trials := by
  simp [row, padRight, padLeft, isVariant.lineFeed_notMem, isWorkload.lineFeed_notMem,
    isSize.lineFeed_notMem, isThreads.lineFeed_notMem, isThroughput.lineFeed_notMem,
    isTrials.lineFeed_notMem]

end Rows

/-- The workload in a cell, of which a dash means that there is none. -/
def readWorkload? (cell : List Char) : Option (Option Workload) :=
  if cell = ['-'] then some none else (Workload.ofTag? (String.ofList cell)).map some

/-- The problem size in a cell, as a number behind the word for what it counts. -/
def readSize? (cell : List Char) : Option ProblemSize :=
  match splitAtFirst? '=' cell with
  | some (['s', 'i', 'z', 'e'], count) => (Decimal.readWord? count).map .elements
  | some (['o', 'p', 's'], count) => (Decimal.readWord? count).map .operations
  | _ => none

/-- The configuration and the number of trials in a row, cut into cells at its blanks. -/
def readRow? (row : List Char) : Option (Key × Nat) :=
  match words row with
  | [variant, workload, size, threads, _, trials] => do
    let workload ← readWorkload? workload
    let size ← readSize? size
    let threads ← Decimal.readWord? threads
    if Decimal.isDigits trials then
      some (⟨String.ofList variant, workload, threads, size⟩, Decimal.value trials)
    else
      none
  | _ => none

/-- A text shows a number rounded to a whole one, a tie to the even neighbour. -/
def ShowsWhole (text : List Char) (number : Float) : Prop :=
  match Binary64.parts number with
  | .notANumber => text = ['N', 'a', 'N']
  | .infinite negative => text = Decimal.signText negative ++ ['i', 'n', 'f']
  | .finite negative magnitude => ∃ whole : Nat,
      text = Decimal.signText negative ++ Nat.toDigits 10 whole ∧
      Within (Even whole) (whole - 1 / 2) magnitude.toRat (whole + 1 / 2)

section Cells

open Decimal

theorem isWord_toDigits (number : Nat) : IsWord (Nat.toDigits 10 number) :=
  ⟨Nat.toDigits_ne_nil, fun _ member => isBlank_of_isDigit (isDigit_of_mem_digits member)⟩

theorem isWord_append {front back : List Char} (solid : ∀ char ∈ front, isBlank char = false)
    (isWord : IsWord back) : IsWord (front ++ back) :=
  ⟨List.append_ne_nil_of_right_ne_nil _ isWord.nonempty,
    List.forall_mem_append.mpr ⟨solid, isWord.solid⟩⟩

theorem isWord_workload (workload : Option Workload) :
    IsWord ((workload.map Workload.tag).getD "-").toList := by
  rcases workload with _ | _ | _ | _ <;> exact ⟨by decide, solid_of_all (by decide)⟩

theorem readWorkload?_tag (workload : Option Workload) :
    readWorkload? ((workload.map Workload.tag).getD "-").toList = some workload := by
  rcases workload with _ | _ | _ | _ <;> decide

theorem toList_display_elements (count : UInt64) :
    (ProblemSize.elements count).display.toList = "size=".toList ++ digits count.toNat := by
  simp [ProblemSize.display, Nat.repr, digits]

theorem toList_display_operations (count : UInt64) :
    (ProblemSize.operations count).display.toList = "ops=".toList ++ digits count.toNat := by
  simp [ProblemSize.display, Nat.repr, digits]

theorem isWord_display (size : ProblemSize) : IsWord size.display.toList := by
  cases size with
  | elements count =>
      rw [toList_display_elements]
      exact isWord_append (solid_of_all (by decide)) (isWord_toDigits _)
  | operations count =>
      rw [toList_display_operations]
      exact isWord_append (solid_of_all (by decide)) (isWord_toDigits _)

theorem readSize?_display (size : ProblemSize) :
    readSize? size.display.toList = some size := by
  cases size with
  | elements count => simp [toList_display_elements, readSize?, splitAtFirst?, readWord?_digits]
  | operations count => simp [toList_display_operations, readSize?, splitAtFirst?, readWord?_digits]

theorem showsWhole_fixedText (number : Float) : ShowsWhole (fixedText 0 number) number := by
  unfold ShowsWhole
  split
  next isParts =>
    rw [fixedText, isParts]
    rfl
  next negative isParts =>
    rw [fixedText, isParts]
    rfl
  next negative magnitude isParts =>
    refine ⟨_, fixedText_zero isParts, ?_⟩
    rw [magnitude.toRat_eq_div, Nat.even_iff]
    exact within_roundDiv magnitude.denominator_pos

theorem isWord_fixedText (number : Float) : IsWord (fixedText 0 number) := by
  cases isParts : Binary64.parts number with
  | notANumber =>
      rw [fixedText, isParts]
      exact ⟨by decide, solid_of_all (by decide)⟩
  | infinite negative =>
      rw [fixedText, isParts]
      cases negative <;> exact ⟨by decide, solid_of_all (by decide)⟩
  | finite negative magnitude =>
      rw [fixedText_zero isParts]
      exact isWord_append (fun _ member => isBlank_of_isNumberChar (isNumberChar_of_mem_signText member))
        (isWord_toDigits _)

end Cells

/-- A row of the summary tells of a point: its cells are those of the point, and its configuration and
its trials are read back from them. -/
structure TellsOf (point : Point) (row : List Char) : Prop where
  cells : ∃ throughput, ShowsWhole throughput point.throughput ∧
    words row = [point.key.variant.toList, ((point.key.workload.map Workload.tag).getD "-").toList,
      point.key.size.display.toList, Nat.toDigits 10 point.key.threads.toNat, throughput,
      Nat.toDigits 10 point.trials]
  readBack : readRow? row = some (point.key, point.trials)

section Points

variable {point : Point} {points : List Point}

theorem words_pointRow (isVariant : IsWord point.key.variant.toList) :
    words (pointRow point) =
      [point.key.variant.toList, ((point.key.workload.map Workload.tag).getD "-").toList,
        point.key.size.display.toList, Nat.toDigits 10 point.key.threads.toNat,
        Decimal.fixedText 0 point.throughput, Nat.toDigits 10 point.trials] :=
  words_row isVariant (isWord_workload _) (isWord_display _) (isWord_toDigits _)
    (isWord_fixedText _) (isWord_toDigits _)

theorem readRow?_pointRow (isVariant : IsWord point.key.variant.toList) :
    readRow? (pointRow point) = some (point.key, point.trials) := by
  have threads := Decimal.readWord?_digits point.key.threads
  have areDigits := Decimal.isDigits_digits point.trials
  have trials := Decimal.value_digits point.trials
  rw [Decimal.digits] at threads areDigits trials
  simp [readRow?, words_pointRow isVariant, readWorkload?_tag, readSize?_display, threads,
    areDigits, trials]

theorem tellsOf_pointRow (isVariant : IsWord point.key.variant.toList) :
    TellsOf point (pointRow point) :=
  ⟨⟨_, showsWhole_fixedText _, words_pointRow isVariant⟩, readRow?_pointRow isVariant⟩

theorem pieces_text (areWords : ∀ point ∈ points, IsWord point.key.variant.toList) :
    pieces '\n' (text points).toList =
      headingLines.map String.toList ++ points.map pointRow ++ [[], []] := by
  have single : ∀ line ∈ headingLines.map String.toList ++ points.map pointRow, '\n' ∉ line := by
    rw [List.forall_mem_append]
    refine ⟨by decide +kernel, List.forall_mem_map.mpr fun point member => ?_⟩
    exact lineFeed_notMem_row (areWords point member) (isWord_workload _) (isWord_display _)
      (isWord_toDigits _) (isWord_fixedText _) (isWord_toDigits _)
  have rows : points.flatMap (fun point => line (pointRow point)) =
      (points.map pointRow).flatMap line := by
    rw [List.flatMap_map]
  rw [text, String.toList_ofList, heading_eq, rows, ← List.flatMap_append]
  exact pieces_flatMap_append single ['\n']

/-- The summary consists of its fixed lines, a row that tells of each point in order, and an empty
line. -/
theorem rows_tell_points
    (unbroken : ∀ point ∈ points, point.key.variant ≠ "" ∧
      ∀ char ∈ point.key.variant.toList, isBlank char = false) :
    ∃ rows, pieces '\n' (text points).toList =
        headingLines.map String.toList ++ rows ++ [[], []] ∧
      List.Forall₂ TellsOf points rows := by
  have areWords : ∀ point ∈ points, IsWord point.key.variant.toList := by
    intro point member
    obtain ⟨nonempty, solid⟩ := unbroken point member
    exact ⟨by simpa using nonempty, solid⟩
  refine ⟨_, pieces_text areWords, ?_⟩
  rw [List.forall₂_map_right_iff, List.forall₂_same]
  exact fun point member => tellsOf_pointRow (areWords point member)

/-- Points whose cells are all wider than their columns, or not numbers. -/
def widePoints : List Point :=
  [⟨⟨"HazardPointerReclaimingList", some .writeHeavy, 18446744073709551615,
      .operations 18446744073709551615⟩, 1.0e300, 123456789⟩,
    ⟨⟨"-", none, 0, .elements 0⟩, Float.ofBits 0x7FF8000000000000, 0⟩]

theorem rows_tell_widePoints :
    (∀ point ∈ widePoints, point.key.variant ≠ "" ∧
      ∀ char ∈ point.key.variant.toList, isBlank char = false) ∧
    ∃ rows, pieces '\n' (text widePoints).toList =
        headingLines.map String.toList ++ rows ++ [[], []] ∧
      List.Forall₂ TellsOf widePoints rows := by
  have unbroken : ∀ point ∈ widePoints, point.key.variant ≠ "" ∧
      ∀ char ∈ point.key.variant.toList, isBlank char = false := by
    simp only [widePoints, List.forall_mem_cons, List.not_mem_nil, false_imp_iff, implies_true,
      and_true]
    exact ⟨⟨by decide, solid_of_all (by decide)⟩, by decide, solid_of_all (by decide)⟩
  exact ⟨unbroken, rows_tell_points unbroken⟩

end Points

end Summary

end ThroughputCharts
