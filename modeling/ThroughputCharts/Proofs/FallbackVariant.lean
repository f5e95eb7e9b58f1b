import Mathlib.Data.List.TakeWhile
import ThroughputCharts.Proofs.ListNameGrammar
import ThroughputCharts.Proofs.WrappedQueues

/-!
# The variant of a head without a nested list

Where no identifier of a head opens a list of its own, the variant is the rightmost identifier that
stands alone between brackets.  It need not be an innermost one: it is one if and only if the head
never closes more lists than it opens between an earlier such identifier and it.
-/

namespace ThroughputCharts
namespace QueueName

open ListName (bracketDepth bracketDepth_append bracketDepth_cons bracketDepth_plain)

/-- The lists that are open behind the bracket that follows a text. -/
def nestingDepth (before : List Char) : Int :=
  bracketDepth (before ++ ['<'])

/-- The identifier behind the given text stands alone, and no other one that does lies deeper. -/
structure Innermost (head before word : List Char) : Prop where
  occurs : Occurs head before word '>'
  deepest : ∀ other otherWord, Occurs head other otherWord '>' →
    nestingDepth other ≤ nestingDepth before

/-- A text has an identifier that stands alone, and a gap behind it. -/
def StandsInFront (before other word gap : List Char) : Prop :=
  before = other ++ '<' :: (word ++ '>' :: gap) ∧ IsIdentifier word

section Nesting

variable {head before other word otherWord gap : List Char}

theorem IsIdentifier.notMem {char : Char} (identifier : IsIdentifier word)
    (outside : isWordChar char = false) : char ∉ word := by
  intro member
  have inside := (isIdentifier_iff.mp identifier).2 char member
  rw [outside] at inside
  contradiction

theorem IsIdentifier.bracketDepth_eq (identifier : IsIdentifier word) : bracketDepth word = 0 :=
  bracketDepth_plain (identifier.notMem (by decide)) (identifier.notMem (by decide))

/-- The depth changes between two identifiers by what is opened and closed between them. -/
theorem StandsInFront.nestingDepth_eq (inFront : StandsInFront before other word gap) :
    nestingDepth before = nestingDepth other + bracketDepth gap := by
  obtain ⟨rfl, identifier⟩ := inFront
  have opens : ListName.bracketStep '<' = 1 := rfl
  have closes : ListName.bracketStep '>' = -1 := rfl
  simp only [nestingDepth, bracketDepth_append, bracketDepth_cons, identifier.bracketDepth_eq,
    ListName.bracketDepth_nil, opens, closes]
  omega

/-- Of two identifiers that stand alone, the first one ends in front of the second one. -/
theorem Occurs.standsInFront (first : Occurs head other otherWord '>')
    (second : Occurs head before word '>') (earlier : other.length < before.length) :
    ∃ gap, StandsInFront before other otherWord gap := by
  obtain ⟨firstTail, rfl, firstAfter, rfl, identifier⟩ := first
  obtain ⟨secondTail, joined, secondAfter, rfl, -⟩ := second
  obtain ⟨between, rfl, rest⟩ := (List.append_eq_append_iff.mp joined).resolve_right <| by
    rintro ⟨between, rfl, -⟩
    rw [List.length_append] at earlier
    omega
  cases between with
  | nil => simp at earlier
  | cons char between =>
      rw [List.cons_append, List.cons.injEq] at rest
      obtain ⟨rfl, rest⟩ := rest
      -- The second bracket cannot be a part of the first identifier.
      rcases List.append_eq_append_iff.mp rest with ⟨gap, rfl, behind⟩ | ⟨inside, rfl, behind⟩
      · cases gap with
        | nil => simp at behind
        | cons char gap =>
            rw [List.cons_append, List.cons.injEq] at behind
            obtain ⟨rfl, -⟩ := behind
            exact ⟨gap, rfl, identifier⟩
      · cases inside with
        | nil => simp at behind
        | cons char inside =>
            rw [List.cons_append, List.cons.injEq] at behind
            obtain ⟨rfl, -⟩ := behind
            have noOpening : '<' ∉ between ++ '<' :: inside := identifier.notMem (by decide)
            simp at noOpening

theorem StandsInFront.occurs (inFront : StandsInFront before other otherWord gap)
    (occurs : Occurs head before word '>') : Occurs head other otherWord '>' := by
  obtain ⟨rfl, identifier⟩ := inFront
  obtain ⟨tail, rfl, -⟩ := occurs
  exact ⟨_, List.append_assoc .., gap ++ tail, by simp, identifier⟩

/-- The rightmost identifier is an innermost one when no gap in front of it leads outwards. -/
theorem innermost_iff_of_rightmostAt (rightmost : RightmostAt '>' head before word) :
    Innermost head before word ↔
      ∀ other otherWord gap, StandsInFront before other otherWord gap → 0 ≤ bracketDepth gap := by
  constructor
  · intro innermost other otherWord gap inFront
    have shallower := innermost.deepest other otherWord (inFront.occurs rightmost.1)
    have depths := inFront.nestingDepth_eq
    omega
  · intro inwards
    refine ⟨rightmost.1, fun other otherWord occurs => ?_⟩
    rcases Nat.lt_or_eq_of_le (rightmost.2 other otherWord occurs) with earlier | same
    · obtain ⟨gap, inFront⟩ := occurs.standsInFront rightmost.1 earlier
      have depths := inFront.nestingDepth_eq
      have nonneg := inwards _ _ _ inFront
      omega
    · obtain ⟨tail, rfl, -⟩ := occurs
      obtain ⟨rightmostTail, joined, -⟩ := rightmost.1
      exact Int.le_of_eq (by rw [(List.append_inj joined same).1])

/-- A head that opens no list behind its first closing bracket has one standing identifier. -/
theorem not_standsInFront (nested : '<' ∉ head.dropWhile (· != '>'))
    (occurs : Occurs head before word '>') : ¬ StandsInFront before other otherWord gap := by
  rintro ⟨rfl, -⟩
  obtain ⟨tail, rfl, after, rfl, -⟩ := occurs
  apply nested
  rw [List.dropWhile_append]
  split
  case isTrue noneLeft =>
    rw [List.isEmpty_iff, List.dropWhile_eq_nil_iff] at noneLeft
    simpa using noneLeft '>' (by simp)
  case isFalse => simp

end Nesting

section Places

variable {next : Char} {text head before word : List Char}

/-- An occurrence stands at a place of the head. -/
theorem Occurs.exists_place (occurs : Occurs head before word next) :
    ∃ place < head.length, before = head.take place ∧ OpensWith (head.drop place) word next := by
  obtain ⟨tail, rfl, opens⟩ := occurs
  refine ⟨before.length, ?_, by simp, by simpa using opens⟩
  obtain ⟨after, rfl, -⟩ := opens
  simp

/-- Whether an identifier opens a text shows in the run of word characters behind its bracket. -/
theorem OpensWith.shows (opens : OpensWith text word next) (stop : isWordChar next = false) :
    text.head? = some '<' ∧ startsWithLetter (text.tail.takeWhile isWordChar) = true ∧
      (text.tail.dropWhile isWordChar).head? = some next := by
  obtain ⟨rest, rfl⟩ := List.head?_eq_some_iff.mp opens.eq_open
  obtain ⟨rfl, letter, isNext⟩ := (opensWith_iff stop).mp opens
  exact ⟨rfl, letter, isNext⟩

/-- A head without an occurrence at any of its places has none. -/
theorem absent_of_forall_place (stop : isWordChar next = false)
    (none : ∀ place < head.length, ¬ ((head.drop place).head? = some '<' ∧
      startsWithLetter ((head.drop place).tail.takeWhile isWordChar) = true ∧
      ((head.drop place).tail.dropWhile isWordChar).head? = some next)) :
    Absent next head := by
  intro before word occurs
  obtain ⟨place, isPlace, -, opens⟩ := occurs.exists_place
  exact none place isPlace (opens.shows stop)

end Places

/-- Where no identifier opens a list of its own, the variant is the rightmost identifier that stands
alone.  It is an innermost one just when no gap between an earlier one and it closes more lists than
it opens, as in a head that opens none behind its first closing bracket. -/
theorem templatedIdentifier_rightmost {head : List Char} (noneNested : Absent '<' head)
    (someAlone : ∃ other otherWord, Occurs head other otherWord '>') :
    ∃ before word, templatedIdentifier head = some word ∧ RightmostAt '>' head before word ∧
      (Innermost head before word ↔
        ∀ other otherWord gap, StandsInFront before other otherWord gap → 0 ≤ bracketDepth gap) ∧
      ('<' ∉ head.dropWhile (· != '>') → Innermost head before word) := by
  obtain ⟨other, otherWord, occurs⟩ := someAlone
  obtain ⟨word, names⟩ := exists_namesQueue_iff.mpr ⟨other, otherWord, '>', occurs, .inr rfl⟩
  have found := templatedIdentifier_eq_some_iff.mpr names
  obtain ⟨before, ⟨nested, -⟩ | ⟨-, rightmost⟩⟩ := namesQueue_iff_exists.mp names
  · exact absurd nested (noneNested before word)
  · have innermost_iff := innermost_iff_of_rightmostAt rightmost
    refine ⟨before, word, found, rightmost, innermost_iff, fun nested => innermost_iff.mpr ?_⟩
    intro other otherWord gap inFront
    exact absurd inFront (not_standsInFront nested rightmost.1)

/-- A head in which the rightmost identifier lies outside the list of the one in front of it. -/
def siblingHead : List Char :=
  "BM_Run<std::atomic<Ring>><Spin>".toList

/-- The scan of that head does not find an innermost identifier. -/
theorem siblingHead_not_innermost :
    Absent '<' siblingHead ∧ Occurs siblingHead "BM_Run<std::atomic".toList "Ring".toList '>' ∧
      ¬ ∃ before word, templatedIdentifier siblingHead = some word ∧
        Innermost siblingHead before word := by
  have ring : Occurs siblingHead "BM_Run<std::atomic".toList "Ring".toList '>' :=
    ⟨"<Ring>><Spin>".toList, by decide, "><Spin>".toList, by decide,
      isIdentifier_iff.mpr ⟨by decide, List.all_eq_true.mp (by decide)⟩⟩
  have scanned : templatedIdentifier siblingHead = some "Spin".toList := by decide
  refine ⟨absent_of_forall_place (by decide) (by decide), ring, ?_⟩
  rintro ⟨before, word, found, innermost⟩
  obtain rfl : "Spin".toList = word := Option.some.inj (scanned.symm.trans found)
  obtain ⟨place, isPlace, rfl, after, behind, -⟩ := innermost.occurs.exists_place
  have deepest := innermost.deepest _ _ ring
  have prefixed : ('<' :: "Spin".toList).isPrefixOf (siblingHead.drop place) = true := by
    rw [behind]
    rfl
  clear behind innermost
  revert place
  decide

/-- A head of nested lists. -/
def nestedHead : List Char :=
  "BM_Run<std::atomic<Ring>>".toList

theorem nestedHead_innermost :
    Absent '<' nestedHead ∧ (∃ other otherWord, Occurs nestedHead other otherWord '>') ∧
      templatedIdentifier nestedHead = some "Ring".toList ∧
        ∃ before, Innermost nestedHead before "Ring".toList := by
  have noneNested : Absent '<' nestedHead := absent_of_forall_place (by decide) (by decide)
  have ring : Occurs nestedHead "BM_Run<std::atomic".toList "Ring".toList '>' :=
    ⟨"<Ring>>".toList, by decide, ">".toList, by decide,
      isIdentifier_iff.mpr ⟨by decide, List.all_eq_true.mp (by decide)⟩⟩
  have scanned : templatedIdentifier nestedHead = some "Ring".toList := by decide
  obtain ⟨before, word, found, -, -, ofNested⟩ :=
    templatedIdentifier_rightmost noneNested ⟨_, _, ring⟩
  obtain rfl : "Ring".toList = word := Option.some.inj (scanned.symm.trans found)
  exact ⟨noneNested, ⟨_, _, ring⟩, scanned, before, ofNested (by decide)⟩

end QueueName
end ThroughputCharts
