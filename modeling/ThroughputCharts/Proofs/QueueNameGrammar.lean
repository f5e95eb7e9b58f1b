import ThroughputCharts.CaseName.QueueName
import ThroughputCharts.Proofs.NamePieces
import ThroughputCharts.Proofs.Results

/-!
# The grammar of queue case names

The variant of a queue case name stands somewhere in its head: the leftmost identifier that opens a
template argument list of its own, or else the rightmost one that stands alone between brackets.  The
scan of a head is compared with these two positions, and with that the whole name with its segments.
-/

namespace ThroughputCharts
namespace QueueName

/-- A letter followed by letters, digits and underscores. -/
def IsIdentifier (word : List Char) : Prop :=
  ∃ first rest, word = first :: rest ∧ first.isAlpha = true ∧
    ∀ char ∈ rest, char.isAlphanum = true ∨ char = '_'

/-- A text starts with an opening bracket, an identifier and a given character. -/
def OpensWith (text word : List Char) (next : Char) : Prop :=
  ∃ after, text = '<' :: (word ++ next :: after) ∧ IsIdentifier word

/-- Behind some text, a head has an opening bracket, an identifier and a given character. -/
def Occurs (head before word : List Char) (next : Char) : Prop :=
  ∃ tail, head = before ++ tail ∧ OpensWith tail word next

/-- The leftmost occurrence stands behind the given text. -/
def LeftmostAt (next : Char) (head before word : List Char) : Prop :=
  Occurs head before word next ∧
    ∀ other otherWord, Occurs head other otherWord next → before.length ≤ other.length

/-- The rightmost occurrence stands behind the given text. -/
def RightmostAt (next : Char) (head before word : List Char) : Prop :=
  Occurs head before word next ∧
    ∀ other otherWord, Occurs head other otherWord next → other.length ≤ before.length

/-- The identifier of the leftmost occurrence. -/
def Leftmost (next : Char) (head word : List Char) : Prop :=
  ∃ before, LeftmostAt next head before word

/-- The identifier of the rightmost occurrence. -/
def Rightmost (next : Char) (head word : List Char) : Prop :=
  ∃ before, RightmostAt next head before word

/-- A head has no occurrence. -/
def Absent (next : Char) (head : List Char) : Prop :=
  ∀ before word, ¬ Occurs head before word next

/-- The identifier that names the queue: the leftmost one that opens a list of its own or, when there
is none, the rightmost one that stands alone. -/
def NamesQueue (head word : List Char) : Prop :=
  Leftmost '<' head word ∨ Absent '<' head ∧ Rightmost '>' head word

section Occurrences

variable {next char : Char} {rest word : List Char}

theorem occurs_cons {before : List Char} :
    Occurs (char :: rest) before word next ↔
      before = [] ∧ OpensWith (char :: rest) word next ∨
        ∃ shorter, before = char :: shorter ∧ Occurs rest shorter word next := by
  constructor
  · rintro ⟨tail, joined, opens⟩
    cases before with
    | nil =>
        rw [List.nil_append] at joined
        exact .inl ⟨rfl, joined ▸ opens⟩
    | cons first shorter =>
        rw [List.cons_append, List.cons.injEq] at joined
        exact .inr ⟨shorter, by rw [joined.1], tail, joined.2, opens⟩
  · rintro (⟨rfl, opens⟩ | ⟨shorter, rfl, tail, rfl, opens⟩)
    · exact ⟨_, rfl, opens⟩
    · exact ⟨tail, rfl, opens⟩

theorem not_occurs_nil {before : List Char} : ¬ Occurs [] before word next := by
  rintro ⟨tail, joined, after, rfl, -⟩
  simp at joined

theorem occurs_cons_self (opens : OpensWith (char :: rest) word next) :
    Occurs (char :: rest) [] word next :=
  occurs_cons.mpr (.inl ⟨rfl, opens⟩)

theorem Occurs.cons {before : List Char} (occurs : Occurs rest before word next) (char : Char) :
    Occurs (char :: rest) (char :: before) word next :=
  occurs_cons.mpr (.inr ⟨before, rfl, occurs⟩)

theorem absent_cons :
    Absent next (char :: rest) ↔
      (∀ word, ¬ OpensWith (char :: rest) word next) ∧ Absent next rest := by
  constructor
  · intro absent
    exact ⟨fun word opens => absent [] word (occurs_cons_self opens),
      fun before word occurs => absent _ word (occurs.cons char)⟩
  · rintro ⟨notHere, notLater⟩ before word occurs
    rcases occurs_cons.mp occurs with ⟨-, opens⟩ | ⟨shorter, -, later⟩
    · exact notHere word opens
    · exact notLater shorter word later

/-- The leftmost occurrence is at the front, or else it is the leftmost one behind the front. -/
theorem leftmostAt_cons {before : List Char} :
    LeftmostAt next (char :: rest) before word ↔
      before = [] ∧ OpensWith (char :: rest) word next ∨
        ∃ shorter, before = char :: shorter ∧
          (∀ other, ¬ OpensWith (char :: rest) other next) ∧ LeftmostAt next rest shorter word := by
  constructor
  · rintro ⟨occurs, isFirst⟩
    rcases occurs_cons.mp occurs with ⟨rfl, opens⟩ | ⟨shorter, rfl, later⟩
    · exact .inl ⟨rfl, opens⟩
    · have notHere (other : List Char) : ¬ OpensWith (char :: rest) other next := by
        intro opens
        simpa using isFirst [] other (occurs_cons_self opens)
      refine .inr ⟨shorter, rfl, notHere, later, ?_⟩
      intro other otherWord otherOccurs
      simpa using isFirst _ otherWord (otherOccurs.cons char)
  · rintro (⟨rfl, opens⟩ | ⟨shorter, rfl, notHere, occurs, isFirst⟩)
    · exact ⟨occurs_cons_self opens, fun _ _ _ => Nat.zero_le _⟩
    · refine ⟨occurs.cons char, ?_⟩
      intro other otherWord otherOccurs
      rcases occurs_cons.mp otherOccurs with ⟨-, opens⟩ | ⟨shorter, rfl, later⟩
      · exact absurd opens (notHere otherWord)
      · simpa using isFirst shorter otherWord later

/-- The rightmost occurrence is at the front when there is none behind the front, or else it is the
rightmost one there. -/
theorem rightmostAt_cons {before : List Char} :
    RightmostAt next (char :: rest) before word ↔
      before = [] ∧ OpensWith (char :: rest) word next ∧ Absent next rest ∨
        ∃ shorter, before = char :: shorter ∧ RightmostAt next rest shorter word := by
  constructor
  · rintro ⟨occurs, isLast⟩
    rcases occurs_cons.mp occurs with ⟨rfl, opens⟩ | ⟨shorter, rfl, later⟩
    · refine .inl ⟨rfl, opens, ?_⟩
      intro other otherWord otherOccurs
      simpa using isLast _ otherWord (otherOccurs.cons char)
    · refine .inr ⟨shorter, rfl, later, ?_⟩
      intro other otherWord otherOccurs
      simpa using isLast _ otherWord (otherOccurs.cons char)
  · rintro (⟨rfl, opens, absent⟩ | ⟨shorter, rfl, occurs, isLast⟩)
    · refine ⟨occurs_cons_self opens, ?_⟩
      intro other otherWord otherOccurs
      rcases occurs_cons.mp otherOccurs with ⟨rfl, -⟩ | ⟨shorter, -, later⟩
      · exact Nat.le_refl 0
      · exact absurd later (absent shorter otherWord)
    · refine ⟨occurs.cons char, ?_⟩
      intro other otherWord otherOccurs
      rcases occurs_cons.mp otherOccurs with ⟨rfl, -⟩ | ⟨shorter, rfl, later⟩
      · exact Nat.zero_le _
      · simpa using isLast shorter otherWord later

/-- Without an occurrence at the front, the leftmost one is found behind it. -/
theorem leftmost_cons_iff (notHere : ∀ word, ¬ OpensWith (char :: rest) word next) :
    Leftmost next (char :: rest) word ↔ Leftmost next rest word := by
  constructor
  · rintro ⟨before, isLeftmost⟩
    rcases leftmostAt_cons.mp isLeftmost with ⟨-, opens⟩ | ⟨shorter, -, -, later⟩
    · exact absurd opens (notHere word)
    · exact ⟨shorter, later⟩
  · rintro ⟨before, later⟩
    exact ⟨char :: before, leftmostAt_cons.mpr (.inr ⟨before, rfl, notHere, later⟩)⟩

/-- The rightmost occurrence is at the front only when there is none behind it. -/
theorem rightmost_cons_iff :
    Rightmost next (char :: rest) word ↔
      Rightmost next rest word ∨ Absent next rest ∧ OpensWith (char :: rest) word next := by
  constructor
  · rintro ⟨before, isRightmost⟩
    rcases rightmostAt_cons.mp isRightmost with ⟨-, opens, absent⟩ | ⟨shorter, -, later⟩
    · exact .inr ⟨absent, opens⟩
    · exact .inl ⟨shorter, later⟩
  · rintro (⟨before, later⟩ | ⟨absent, opens⟩)
    · exact ⟨char :: before, rightmostAt_cons.mpr (.inr ⟨before, rfl, later⟩)⟩
    · exact ⟨[], rightmostAt_cons.mpr (.inl ⟨rfl, opens, absent⟩)⟩

end Occurrences

theorem isIdentifier_iff {word : List Char} :
    IsIdentifier word ↔
      startsWithLetter word = true ∧ ∀ char ∈ word, isWordChar char = true := by
  cases word with
  | nil => simp [IsIdentifier, startsWithLetter]
  | cons first rest =>
      simp only [IsIdentifier, startsWithLetter, isWordChar, List.cons.injEq, Bool.or_eq_true,
        beq_iff_eq, List.mem_cons, forall_eq_or_imp]
      constructor
      · rintro ⟨_, _, ⟨rfl, rfl⟩, letter, word⟩
        exact ⟨letter, .inl (by simp [Char.isAlphanum, letter]), word⟩
      · rintro ⟨letter, -, word⟩
        exact ⟨_, _, ⟨rfl, rfl⟩, letter, word⟩

/-- The identifier behind a bracket is the whole run of word characters there. -/
theorem opensWith_iff {rest word : List Char} {next : Char} (stop : isWordChar next = false) :
    OpensWith ('<' :: rest) word next ↔
      word = rest.takeWhile isWordChar ∧ startsWithLetter word = true ∧
        (rest.dropWhile isWordChar).head? = some next := by
  constructor
  · rintro ⟨after, joined, identifier⟩
    obtain ⟨letter, wordChars⟩ := isIdentifier_iff.mp identifier
    rw [List.cons.injEq] at joined
    obtain ⟨-, rfl⟩ := joined
    refine ⟨(Text.takeWhile_append_stop wordChars stop after).symm, letter, ?_⟩
    rw [List.dropWhile_append_of_pos wordChars, List.dropWhile_cons_of_neg (by simp [stop])]
    rfl
  · rintro ⟨rfl, letter, isNext⟩
    obtain ⟨after, behind⟩ := List.head?_eq_some_iff.mp isNext
    refine ⟨after, ?_, isIdentifier_iff.mpr ⟨letter, List.all_eq_true.mp List.all_takeWhile⟩⟩
    rw [← behind, List.takeWhile_append_dropWhile]

theorem OpensWith.eq_open {text word : List Char} {next : Char}
    (opens : OpensWith text word next) : text.head? = some '<' := by
  obtain ⟨after, rfl, -⟩ := opens
  rfl

theorem OpensWith.unique {text first second : List Char} {firstNext secondNext : Char}
    (firstStop : isWordChar firstNext = false) (secondStop : isWordChar secondNext = false)
    (opensFirst : OpensWith text first firstNext) (opensSecond : OpensWith text second secondNext) :
    first = second ∧ firstNext = secondNext := by
  obtain ⟨rest, rfl⟩ := List.head?_eq_some_iff.mp opensFirst.eq_open
  obtain ⟨rfl, -, isFirst⟩ := (opensWith_iff firstStop).mp opensFirst
  obtain ⟨rfl, -, isSecond⟩ := (opensWith_iff secondStop).mp opensSecond
  exact ⟨rfl, Option.some.inj (isFirst.symm.trans isSecond)⟩

/-- The leftmost occurrence is the one at the front when there is one. -/
theorem leftmost_iff_of_opensWith {next char : Char} {rest found word : List Char}
    (stop : isWordChar next = false) (opens : OpensWith (char :: rest) found next) :
    Leftmost next (char :: rest) word ↔ word = found := by
  constructor
  · rintro ⟨before, isLeftmost⟩
    rcases leftmostAt_cons.mp isLeftmost with ⟨-, opensWord⟩ | ⟨-, -, notHere, -⟩
    · exact (opensWord.unique stop stop opens).1
    · exact absurd opens (notHere found)
  · rintro rfl
    exact ⟨[], leftmostAt_cons.mpr (.inl ⟨rfl, opens⟩)⟩

section Scan

variable {standing : Option (List Char)} {char : Char} {rest word : List Char}

/-- An identifier that opens a list of its own ends the scan. -/
theorem scanVariant_of_nested (opens : OpensWith (char :: rest) word '<') :
    scanVariant standing (char :: rest) = some word := by
  obtain rfl : char = '<' := Option.some.inj opens.eq_open
  obtain ⟨rfl, letter, isNext⟩ := (opensWith_iff (by decide)).mp opens
  simp [scanVariant, letter, isNext]

/-- An identifier that stands alone is remembered. -/
theorem scanVariant_of_standing (opens : OpensWith (char :: rest) word '>') :
    scanVariant standing (char :: rest) = scanVariant (some word) rest := by
  obtain rfl : char = '<' := Option.some.inj opens.eq_open
  obtain ⟨rfl, letter, isNext⟩ := (opensWith_iff (by decide)).mp opens
  simp [scanVariant, letter, isNext]

/-- Anything else is passed over. -/
theorem scanVariant_of_neither (notNested : ∀ word, ¬ OpensWith (char :: rest) word '<')
    (notStanding : ∀ word, ¬ OpensWith (char :: rest) word '>') :
    scanVariant standing (char :: rest) = scanVariant standing rest := by
  by_cases isOpen : char = '<'
  · subst isOpen
    by_cases letter : startsWithLetter (rest.takeWhile isWordChar) = true
    · have notNext {next : Char} (stop : isWordChar next = false)
          (notHere : ∀ word, ¬ OpensWith ('<' :: rest) word next) :
          (rest.dropWhile isWordChar).head? ≠ some next :=
        fun isNext => notHere _ ((opensWith_iff stop).mpr ⟨rfl, letter, isNext⟩)
      have notOpen := notNext (by decide) notNested
      have notClose := notNext (by decide) notStanding
      cases isNext : (rest.dropWhile isWordChar).head? with
      | none => simp [scanVariant, letter, isNext]
      | some next =>
          rw [isNext, Ne, Option.some.injEq] at notOpen notClose
          simp [scanVariant, letter, isNext, notOpen, notClose]
    · simp [scanVariant, letter]
  · simp [scanVariant, isOpen]

end Scan

/-- The scan finds the leftmost nested identifier, or else the rightmost one that stands alone, or
else the one it has started with. -/
theorem scanVariant_eq_some_iff {standing : Option (List Char)} {head word : List Char} :
    scanVariant standing head = some word ↔
      NamesQueue head word ∨ Absent '<' head ∧ Absent '>' head ∧ standing = some word := by
  induction head generalizing standing with
  | nil =>
      have absent (next : Char) : Absent next [] := fun _ _ => not_occurs_nil
      have notLeftmost : ¬ Leftmost '<' [] word := fun ⟨_, occurs, _⟩ => not_occurs_nil occurs
      have notRightmost : ¬ Rightmost '>' [] word := fun ⟨_, occurs, _⟩ => not_occurs_nil occurs
      simp [scanVariant, NamesQueue, absent, notLeftmost, notRightmost]
  | cons char rest induction =>
      by_cases nested : ∃ found, OpensWith (char :: rest) found '<'
      · obtain ⟨found, opens⟩ := nested
        have present : ¬ Absent '<' (char :: rest) :=
          fun absent => absent [] found (occurs_cons_self opens)
        rw [scanVariant_of_nested opens, NamesQueue, leftmost_iff_of_opensWith (by decide) opens]
        simp [present, eq_comm]
      · rw [not_exists] at nested
        rw [NamesQueue, leftmost_cons_iff nested, absent_cons, rightmost_cons_iff]
        by_cases alone : ∃ found, OpensWith (char :: rest) found '>'
        · obtain ⟨found, opens⟩ := alone
          have same : OpensWith (char :: rest) word '>' ↔ found = word := by
            constructor
            · intro opensWord
              exact (opens.unique (by decide) (by decide) opensWord).1
            · rintro rfl
              exact opens
          have present : ¬ Absent '>' (char :: rest) :=
            fun absent => absent [] found (occurs_cons_self opens)
          rw [scanVariant_of_standing opens, induction, NamesQueue, same]
          grind
        · rw [not_exists] at alone
          rw [scanVariant_of_neither nested alone, induction, NamesQueue, absent_cons]
          grind

theorem templatedIdentifier_eq_some_iff {head word : List Char} :
    templatedIdentifier head = some word ↔ NamesQueue head word := by
  simp [templatedIdentifier, scanVariant_eq_some_iff]

example : templatedIdentifier "BM_Run<Spin><Adapter<Ring>>".toList = some "Adapter".toList := by
  decide

example : templatedIdentifier "BM_Run<Spin><Ring>".toList = some "Ring".toList := by
  decide

theorem exists_scanVariant_eq_some (start head : List Char) :
    ∃ word, scanVariant (some start) head = some word := by
  induction head generalizing start with
  | nil => exact ⟨start, rfl⟩
  | cons char rest induction =>
      simp only [scanVariant]
      split
      · split
        · split
          · exact ⟨_, rfl⟩
          · exact induction _
          · exact induction _
        · exact induction _
      · exact induction _

/-- A head names a queue when it has an identifier in one of the two positions. -/
theorem exists_namesQueue_iff {head : List Char} :
    (∃ word, NamesQueue head word) ↔
      ∃ before word next, Occurs head before word next ∧ (next = '<' ∨ next = '>') := by
  constructor
  · rintro ⟨word, ⟨before, occurs, -⟩ | ⟨-, before, occurs, -⟩⟩
    · exact ⟨before, word, _, occurs, .inl rfl⟩
    · exact ⟨before, word, _, occurs, .inr rfl⟩
  · rintro ⟨before, word, next, occurs, isNext⟩
    -- A scan with a word to start from finds some word, and the occurrence rules its own one out.
    obtain ⟨found, scanned⟩ := exists_scanVariant_eq_some [] head
    rcases scanVariant_eq_some_iff.mp scanned with names | ⟨noneNested, noneAlone, -⟩
    · exact ⟨found, names⟩
    · rcases isNext with rfl | rfl
      · exact absurd occurs (noneNested before word)
      · exact absurd occurs (noneAlone before word)

/-- The rules for a name of at least four segments in the order in which they are checked. -/
theorem readSegments_eq {head threads last : List Char} {middle : List (List Char)}
    (nonempty : middle ≠ []) :
    readSegments (head :: (middle ++ [threads, last])) =
      if String.ofList last ≠ realTime then .error .missingRealTime
      else match ListName.readCount .threads threads with
        | .error fault => .error fault
        | .ok threads =>
          match middle.find? Decimal.isDigits with
          | none => .error .missingOperationCount
          | some operations =>
            match ListName.readCount .operations operations with
            | .error fault => .error fault
            | .ok operations =>
              match templatedIdentifier head with
              | none => .error .missingVariant
              | some variant =>
                .ok ⟨normalizeVariant (String.ofList variant), none, threads,
                  .operations operations⟩ := by
  obtain ⟨earlier, before, rfl⟩ := (List.eq_nil_or_concat middle).resolve_left nonempty
  simp only [readSegments, List.concat_eq_append, List.reverse_append, List.reverse_cons,
    List.reverse_nil, List.nil_append, List.cons_append, List.reverse_reverse]
  split
  · rfl
  · cases ListName.readCount .threads threads with
    | error fault => rfl
    | ok threads =>
        cases (earlier ++ [before]).find? Decimal.isDigits with
        | none => rfl
        | some operations =>
            simp only [bind, Except.bind]
            cases ListName.readCount .operations operations with
            | error fault => rfl
            | ok operations =>
                cases templatedIdentifier head <;> rfl

/-- An accepted name has a segment between its head and its thread count. -/
theorem eq_append_of_readSegments {segments : List (List Char)} {key : Key}
    (accepted : readSegments segments = .ok key) :
    ∃ head middle threads last, middle ≠ [] ∧ segments = head :: (middle ++ [threads, last]) := by
  cases segments with
  | nil => cases accepted
  | cons head rest =>
      simp only [readSegments] at accepted
      split at accepted
      next last threads before earlier backwards =>
        refine ⟨head, (before :: earlier).reverse, threads, last, by simp, ?_⟩
        rw [← List.reverse_reverse rest, backwards]
        simp
      next => cases accepted

/-- Reading segments asks for the final marker, for counts in their places and for a name in the
head, and nothing else. -/
theorem readSegments_eq_ok_iff {head threads last : List Char} {middle : List (List Char)}
    {key : Key} (nonempty : middle ≠ []) :
    readSegments (head :: (middle ++ [threads, last])) = .ok key ↔
      String.ofList last = realTime ∧ ∃ threadCount operations count word,
        Decimal.readCount? threads = some threadCount ∧
        middle.find? Decimal.isDigits = some operations ∧
        Decimal.readCount? operations = some count ∧ NamesQueue head word ∧
        key = ⟨normalizeVariant (String.ofList word), none, threadCount, .operations count⟩ := by
  simp only [readSegments_eq nonempty, ← templatedIdentifier_eq_some_iff]
  constructor
  · intro accepted
    split at accepted
    · cases accepted
    rename_i isLast
    split at accepted
    · cases accepted
    rename_i threadCount threadsRead
    split at accepted
    · cases accepted
    rename_i operations found
    split at accepted
    · cases accepted
    rename_i count operationsRead
    split at accepted
    · cases accepted
    rename_i word named
    cases accepted
    exact ⟨Classical.not_not.mp isLast, threadCount, operations, count, word,
      ListName.readCount_eq_ok_iff.mp threadsRead, found,
      ListName.readCount_eq_ok_iff.mp operationsRead, named, rfl⟩
  · rintro ⟨isLast, threadCount, operations, count, word, threadsRead, found, operationsRead, named,
      rfl⟩
    rw [if_neg (not_not_intro isLast), ListName.readCount_eq_ok_iff.mpr threadsRead, found]
    simp only [ListName.readCount_eq_ok_iff.mpr operationsRead, named]

theorem decode_eq_ok_iff_readSegments {name : String} {key : Key} :
    decode name = .ok key ↔ readSegments (Text.pieces '/' name.toList) = .ok key :=
  mapError_eq_ok_iff

/-- The segments that the grammar of queue case names tells apart.  The final one is always the
same, and `operations` is preceded and followed by any number of others. -/
structure Segments where
  head : String
  before : List String
  operations : String
  after : List String
  threads : String

namespace Segments

/-- All segments of the name in their order. -/
def all (segments : Segments) : List String :=
  segments.head :: (segments.before ++ segments.operations :: segments.after ++
    [segments.threads, realTime])

/-- The name made of the segments. -/
def name (segments : Segments) : String :=
  "/".intercalate segments.all

/-- The configuration that the segments stand for when the head names the queue by a word. -/
def key (segments : Segments) (word : List Char) : Key where
  variant := normalizeVariant (String.ofList word)
  workload := none
  threads := (Decimal.value segments.threads.toList).toUInt64
  size := .operations (Decimal.value segments.operations.toList).toUInt64

/-- What the grammar asks of the segments: `operations` is the leftmost one of digits only, and the
head has an identifier that opens a list or stands alone. -/
structure WellFormed (segments : Segments) : Prop where
  plain : ∀ segment ∈ segments.all, '/' ∉ segment.toList
  leftmost : ∀ segment ∈ segments.before,
    segment = "" ∨ ∃ char ∈ segment.toList, char.isDigit = false
  operations_count : Decimal.IsCount segments.operations
  threads_count : Decimal.IsCount segments.threads
  named : ∃ before word next,
    Occurs segments.head.toList before word next ∧ (next = '<' ∨ next = '>')

theorem toList_name (segments : Segments) :
    segments.name.toList = ['/'].intercalate (segments.all.map String.toList) := by
  rw [name, String.toList_intercalate]
  rfl

theorem WellFormed.pieces_name {segments : Segments} (wellFormed : segments.WellFormed) :
    Text.pieces '/' segments.name.toList = segments.all.map String.toList := by
  rw [toList_name]
  apply Text.pieces_intercalate
  · simp [all]
  · intro text member
    obtain ⟨segment, isSegment, rfl⟩ := List.mem_map.mp member
    exact wellFormed.plain segment isSegment

/-- The leftmost segment of digits only stands behind segments that are not. -/
theorem WellFormed.find?_middle {segments : Segments} (wellFormed : segments.WellFormed) :
    ((segments.before ++ segments.operations :: segments.after).map String.toList).find?
      Decimal.isDigits = some segments.operations.toList := by
  rw [List.find?_eq_some_iff_append]
  refine ⟨?_, segments.before.map String.toList, segments.after.map String.toList, by simp, ?_⟩
  · have hasDigit : segments.operations.toList ≠ [] := by
      simpa using wellFormed.operations_count.nonempty
    simpa [Decimal.isDigits, hasDigit] using wellFormed.operations_count.digits
  · intro text member
    obtain ⟨segment, isSegment, rfl⟩ := List.mem_map.mp member
    rcases wellFormed.leftmost segment isSegment with rfl | ⟨char, inside, noDigit⟩
    · rfl
    · simp only [Decimal.isDigits, Bool.not_and, Bool.or_eq_true]
      right
      rw [Bool.not_eq_true', List.all_eq_false]
      exact ⟨char, inside, by simp [noDigit]⟩

/-- The name of well-formed segments is accepted with the word that names the queue. -/
theorem WellFormed.decode_name {segments : Segments} (wellFormed : segments.WellFormed)
    {word : List Char} (names : NamesQueue segments.head.toList word) :
    decode segments.name = .ok (segments.key word) := by
  have cut : segments.all.map String.toList = segments.head.toList ::
      ((segments.before ++ segments.operations :: segments.after).map String.toList ++
        [segments.threads.toList, realTime.toList]) := by
    simp [all]
  rw [decode_eq_ok_iff_readSegments, wellFormed.pieces_name, cut, readSegments_eq_ok_iff (by simp)]
  refine ⟨String.ofList_toList, _, segments.operations.toList, _, word,
    Decimal.readCount?_eq_some_iff.mpr ⟨?_, rfl⟩, wellFormed.find?_middle,
    Decimal.readCount?_eq_some_iff.mpr ⟨?_, rfl⟩, names, rfl⟩
  · simpa using wellFormed.threads_count
  · simpa using wellFormed.operations_count

theorem exists_wellFormed_of_decode {name : String} {key : Key}
    (accepted : decode name = .ok key) :
    ∃ (segments : Segments) (word : List Char), segments.WellFormed ∧ name = segments.name ∧
      NamesQueue segments.head.toList word ∧ key = segments.key word := by
  rw [decode_eq_ok_iff_readSegments] at accepted
  obtain ⟨head, middle, threads, last, nonempty, cut⟩ := eq_append_of_readSegments accepted
  rw [cut, readSegments_eq_ok_iff nonempty] at accepted
  obtain ⟨isLast, threadCount, operations, count, word, threadsRead, found, operationsRead, names,
    rfl⟩ := accepted
  obtain ⟨threadsCount, rfl⟩ := Decimal.readCount?_eq_some_iff.mp threadsRead
  obtain ⟨operationsCount, rfl⟩ := Decimal.readCount?_eq_some_iff.mp operationsRead
  obtain ⟨-, before, after, rfl, noneBefore⟩ := List.find?_eq_some_iff_append.mp found
  let segments : Segments := ⟨String.ofList head, before.map String.ofList,
    String.ofList operations, after.map String.ofList, String.ofList threads⟩
  have allText : segments.all.map String.toList = Text.pieces '/' name.toList := by
    rw [cut]
    simp [all, segments, ← isLast, Function.comp_def]
  refine ⟨segments, word, ⟨?plain, ?leftmost, operationsCount, threadsCount, ?named⟩, ?isName,
    ?names, ?isKey⟩
  case plain =>
    intro segment member
    exact Text.notMem_of_mem_pieces (allText ▸ List.mem_map_of_mem member)
  case leftmost =>
    intro segment member
    obtain ⟨text, isText, rfl⟩ := List.mem_map.mp member
    have noDigits := noneBefore text isText
    simp only [Decimal.isDigits, Bool.not_and, Bool.not_not, Bool.or_eq_true,
      List.isEmpty_iff, Bool.not_eq_true', List.all_eq_false] at noDigits
    simpa using noDigits
  case named => exact exists_namesQueue_iff.mp ⟨word, by simpa [segments] using names⟩
  case isName =>
    rw [← String.toList_inj, toList_name, allText, Text.intercalate_pieces]
  case names => simpa [segments] using names
  case isKey => simp [key, segments]

end Segments

/-- A queue case name is accepted exactly when its segments fit the grammar, and then the
configuration is read off them and off the word that names the queue in the head. -/
theorem decode_eq_ok_iff_segments (name : String) :
    ((∃ key, decode name = .ok key) ↔
      ∃ segments : Segments, segments.WellFormed ∧ name = segments.name) ∧
    ∀ key, decode name = .ok key ↔
      ∃ (segments : Segments) (word : List Char), segments.WellFormed ∧ name = segments.name ∧
        NamesQueue segments.head.toList word ∧ key = segments.key word := by
  refine ⟨?_, ?_⟩
  · constructor
    · rintro ⟨key, accepted⟩
      obtain ⟨segments, word, wellFormed, isName, -⟩ :=
        Segments.exists_wellFormed_of_decode accepted
      exact ⟨segments, wellFormed, isName⟩
    · rintro ⟨segments, wellFormed, rfl⟩
      obtain ⟨word, names⟩ := exists_namesQueue_iff.mpr wellFormed.named
      exact ⟨segments.key word, wellFormed.decode_name names⟩
  · intro key
    constructor
    · exact Segments.exists_wellFormed_of_decode
    · rintro ⟨segments, word, wellFormed, rfl, names, rfl⟩
      exact wellFormed.decode_name names

end QueueName
end ThroughputCharts
