import ThroughputCharts.Proofs.CheckOrder
import ThroughputCharts.Proofs.ListNameGrammar

/-!
# The faults of list case names

Every rule for the segments of a case name comes with the faults of the names that break it.
Decoding a list case name checks its rules in order, those for the first segment before those for
the counts.
-/

namespace ThroughputCharts

/-- A rule of a grammar relates what breaks it to the fault that reports it. -/
abbrev Rule (Subject : Type) : Type :=
  Subject → NameFault → Prop

/-- The fault reports the first rule that is broken. -/
def FirstBroken {Subject : Type} (rules : List (Rule Subject)) (subject : Subject)
    (fault : NameFault) : Prop :=
  FirstOutcome (fun rule fault => rule subject fault) rules fault

/-- A text is cut at all of its slashes. -/
structure IsSegmented (text : List Char) (segments : List (List Char)) : Prop where
  joined : text = ['/'].intercalate segments
  noSlash : ∀ segment ∈ segments, '/' ∉ segment
  length_eq : segments.length = 1 + text.count '/'

namespace Text

theorem length_pieces (mark : Char) (text : List Char) :
    (pieces mark text).length = 1 + text.count mark := by
  induction text with
  | nil => rfl
  | cons char rest induction =>
      simp only [pieces, List.count_cons]
      split
      next isMark => simp [isMark, induction, Nat.add_comm, Nat.add_left_comm]
      next notMark =>
        cases found : pieces mark rest with
        | nil => exact absurd found (pieces_ne_nil mark rest)
        | cons piece others =>
            rw [found] at induction
            simpa [notMark] using induction

theorem splitAtFirst?_eq_none_iff {mark : Char} {text : List Char} :
    splitAtFirst? mark text = none ↔ mark ∉ text := by
  induction text with
  | nil => simp [splitAtFirst?]
  | cons char rest induction =>
      by_cases isMark : char = mark
      · simp [splitAtFirst?, isMark]
      · simp [splitAtFirst?, isMark, induction, Ne.symm isMark]

end Text

theorem isSegmented_iff {text : List Char} {segments : List (List Char)} :
    IsSegmented text segments ↔ segments = Text.pieces '/' text := by
  constructor
  · rintro ⟨rfl, noSlash, length_eq⟩
    have nonempty : segments ≠ [] := List.ne_nil_of_length_pos (by omega)
    exact (Text.pieces_intercalate nonempty noSlash).symm
  · rintro rfl
    exact ⟨(Text.intercalate_pieces '/' text).symm, fun _ => Text.notMem_of_mem_pieces,
      Text.length_pieces '/' text⟩

/-- The number of segments that a bound asks for. -/
def SegmentBound.Allows : SegmentBound → Nat → Prop
  | .exactly count, found => found = count
  | .atLeast count, found => count ≤ found

/-- The number of segments is outside the bound. -/
def Miscounted (bound : SegmentBound) : Rule (List (List Char)) := fun segments fault =>
  ¬ bound.Allows segments.length ∧ fault = .segmentCount bound segments.length

/-- A text is not a positive 64-bit count. -/
def NoCount (field : CountField) : Rule (List Char) := fun text fault =>
  ¬ Decimal.IsCount (String.ofList text) ∧ fault = .invalidCount field (String.ofList text)

namespace ListName

theorem readCount_eq_error_iff {field : CountField} {text : List Char} {fault : NameFault} :
    readCount field text = .error fault ↔ NoCount field text fault := by
  have isCount_iff : Decimal.IsCount (String.ofList text) ↔
      ∃ count, Decimal.readCount? text = some count := by
    simp [Decimal.readCount?_eq_some_iff]
  rw [NoCount, isCount_iff]
  cases found : Decimal.readCount? text <;> simp [readCount, found, eq_comm]

/-- A head has its first opening bracket between two texts. -/
structure Opens (head front argument : List Char) : Prop where
  joined : head = front ++ '<' :: argument
  isFirst : '<' ∉ front

/-- The head has no opening bracket. -/
def LacksTemplate : Rule (List Char) := fun head fault =>
  '<' ∉ head ∧ fault = .missingTemplate

/-- There is no underscore in front of the bracket, or nothing in front of the last one there. -/
def LacksLead : Rule (List Char) := fun head fault =>
  ∃ front argument, Opens head front argument ∧
    ('_' ∉ front ∨ ∃ tag, front = '_' :: tag ∧ '_' ∉ tag) ∧ fault = .missingPrefix

/-- The text between the last underscore and the bracket is the tag of no workload. -/
def HasUnknownTag : Rule (List Char) := fun head fault =>
  ∃ lead tag argument, Opens head (lead ++ '_' :: tag) argument ∧ '_' ∉ tag ∧
    (∀ workload : Workload, workload.tag ≠ String.ofList tag) ∧
      fault = .unknownWorkload (String.ofList tag)

/-- No closing bracket balances the first one, or no variant stands behind that one. -/
def LacksVariant : Rule (List Char) := fun head fault =>
  ∃ front argument, Opens head front argument ∧
    ((¬ ∃ inside trailing, argument = inside ++ '>' :: trailing ∧
        ReturnsAtEnd ('<' :: (inside ++ ['>']))) ∨
      argument.head? = some '<' ∨ argument.head? = some '>') ∧
    fault = .missingTemplate

/-- Some text follows the bracket that balances the first one. -/
def HasTrailingText : Rule (List Char) := fun head fault =>
  ∃ front inside trailing, Opens head front (inside ++ '>' :: trailing) ∧
    ReturnsAtEnd ('<' :: (inside ++ ['>'])) ∧ trailing ≠ [] ∧
      fault = .trailingText (String.ofList trailing)

/-- There are three segments, and they break a rule. -/
def AtSegments (rule : List Char → List Char → List Char → NameFault → Prop) :
    Rule (List (List Char)) := fun segments fault =>
  ∃ head threads size, segments = [head, threads, size] ∧ rule head threads size fault

def headRules : List (Rule (List Char)) :=
  [LacksTemplate, LacksLead, HasUnknownTag, LacksVariant, HasTrailingText]

/-- The rules for the segments of a list case name in the order in which they are checked. -/
def rules : List (Rule (List (List Char))) :=
  Miscounted (.exactly 3) ::
    (headRules.map (fun rule => AtSegments fun head _ _ => rule head) ++
      [AtSegments fun _ threads _ => NoCount .threads threads,
        AtSegments fun _ _ size => NoCount .problemSize size])

section Head

variable {head front argument lead tag inside trailing : List Char} {fault : NameFault}

theorem opens_iff : Opens head front argument ↔
    Text.splitAtFirst? '<' head = some (front, argument) := by
  rw [Text.splitAtFirst?_eq_some_iff]
  exact ⟨fun opens => ⟨opens.joined, opens.isFirst⟩, fun ⟨joined, isFirst⟩ => ⟨joined, isFirst⟩⟩

/-- The first bracket of a head is in one place. -/
theorem Opens.unique {otherFront otherArgument : List Char} (opens : Opens head front argument)
    (other : Opens head otherFront otherArgument) :
    otherFront = front ∧ otherArgument = argument := by
  rw [opens_iff] at opens other
  simpa [opens, eq_comm] using other

theorem splitAtClose?_zero_iff : splitAtClose? 0 argument = some (inside, trailing) ↔
    argument = inside ++ '>' :: trailing ∧ ReturnsAtEnd ('<' :: (inside ++ ['>'])) := by
  rw [splitAtClose?_eq_some_iff, returnsAtEnd_cons_open]
  rfl

theorem ofTag?_eq_none_iff {tag : String} :
    Workload.ofTag? tag = none ↔ ∀ workload : Workload, workload.tag ≠ tag := by
  constructor
  · rintro unknown workload rfl
    rw [Workload.ofTag?_tag] at unknown
    contradiction
  · intro unknown
    cases named : Workload.ofTag? tag with
    | none => rfl
    | some workload => exact absurd (Workload.tag_of_ofTag? named) (unknown workload)

theorem Opens.lacksLead_iff (opens : Opens head front argument) :
    LacksLead head fault ↔
      ('_' ∉ front ∨ ∃ tag, front = '_' :: tag ∧ '_' ∉ tag) ∧ fault = .missingPrefix := by
  constructor
  · rintro ⟨_, _, other, lacks⟩
    obtain ⟨rfl, -⟩ := opens.unique other
    exact lacks
  · exact fun lacks => ⟨front, argument, opens, lacks⟩

theorem Opens.not_lacksLead (opens : Opens head (lead ++ '_' :: tag) argument)
    (nonempty : lead ≠ []) : ¬ LacksLead head fault := by
  rw [opens.lacksLead_iff]
  rintro ⟨noUnderscore | ⟨otherTag, isFront, isLast⟩, -⟩
  · simp at noUnderscore
  · cases lead with
    | nil => contradiction
    | cons char lead =>
        rw [List.cons_append, List.cons.injEq] at isFront
        simp [← isFront.2] at isLast

theorem Opens.hasUnknownTag_iff (opens : Opens head (lead ++ '_' :: tag) argument)
    (isLast : '_' ∉ tag) :
    HasUnknownTag head fault ↔ Workload.ofTag? (String.ofList tag) = none ∧
      fault = .unknownWorkload (String.ofList tag) := by
  rw [ofTag?_eq_none_iff]
  constructor
  · rintro ⟨otherLead, otherTag, _, other, otherLast, unknown⟩
    have sameSplit := congrArg (Text.splitAtLast? '_') (opens.unique other).1
    rw [Text.splitAtLast?_append otherLast, Text.splitAtLast?_append isLast, Option.some.injEq,
      Prod.mk.injEq] at sameSplit
    exact sameSplit.2 ▸ unknown
  · exact fun unknown => ⟨lead, tag, argument, opens, isLast, unknown⟩

/-- The variant is empty when another bracket follows the first one at once. -/
theorem head?_isBracket_iff (inside trailing : List Char) :
    ((inside ++ '>' :: trailing).head? = some '<' ∨ (inside ++ '>' :: trailing).head? = some '>') ↔
      inside.takeWhile (!isBracket ·) = [] := by
  cases inside with
  | nil => simp
  | cons char inside =>
      cases bracket : isBracket char with
      | true => simpa [bracket] using isBracket_iff.mp bracket
      | false =>
          have notBracket : ¬ (char = '<' ∨ char = '>') := by simp [← isBracket_iff, bracket]
          simpa [bracket] using notBracket

theorem Opens.lacksVariant_iff (opens : Opens head front argument) :
    LacksVariant head fault ↔
      ((¬ ∃ inside trailing, splitAtClose? 0 argument = some (inside, trailing)) ∨
        argument.head? = some '<' ∨ argument.head? = some '>') ∧ fault = .missingTemplate := by
  simp only [splitAtClose?_zero_iff]
  constructor
  · rintro ⟨_, _, other, lacks⟩
    obtain ⟨-, rfl⟩ := opens.unique other
    exact lacks
  · exact fun lacks => ⟨front, argument, opens, lacks⟩

theorem Opens.hasTrailingText_iff (opens : Opens head front argument)
    (closes : splitAtClose? 0 argument = some (inside, trailing)) :
    HasTrailingText head fault ↔
      trailing ≠ [] ∧ fault = .trailingText (String.ofList trailing) := by
  obtain ⟨rfl, balanced⟩ := splitAtClose?_zero_iff.mp closes
  constructor
  · rintro ⟨_, otherInside, otherTrailing, other, otherBalanced, trails⟩
    have otherCloses := splitAtClose?_zero_iff.mpr ⟨(opens.unique other).2.symm, otherBalanced⟩
    rw [closes, Option.some.injEq, Prod.mk.injEq] at otherCloses
    exact otherCloses.2 ▸ trails
  · exact fun trails => ⟨front, inside, trailing, opens, balanced, trails⟩

/-- The rules for the template argument come last. -/
theorem Opens.failsFirst_argument (opens : Opens head front argument) (workload : Workload) :
    FailsFirst (fun rule fault => rule head fault) [LacksVariant, HasTrailingText]
      (match splitAtClose? 0 argument with
      | none => .error .missingTemplate
      | some (inside, trailing) =>
        if inside.takeWhile (!isBracket ·) = [] then .error .missingTemplate
        else if trailing = [] then
          .ok (workload, String.ofList (inside.takeWhile (!isBracket ·)))
        else .error (.trailingText (String.ofList trailing))) := by
  cases closes : splitAtClose? 0 argument with
  | none => exact failsFirst_of_broken (fun other => by simp [opens.lacksVariant_iff, closes]) _
  | some parts =>
      obtain ⟨inside, trailing⟩ := parts
      dsimp only
      have lacksVariant_iff (other : NameFault) : LacksVariant head other ↔
          inside.takeWhile (!isBracket ·) = [] ∧ other = .missingTemplate := by
        rw [opens.lacksVariant_iff, ← head?_isBracket_iff inside trailing,
          ← (splitAtClose?_zero_iff.mp closes).1]
        simp [closes]
      refine failsFirst_ite lacksVariant_iff fun _ => ?_
      split
      case isTrue noTrailing =>
        refine (failsFirst_ok _).cons fun other => ?_
        simp [opens.hasTrailingText_iff closes, noTrailing]
      case isFalse trails =>
        exact failsFirst_of_broken
          (fun other => by simp [opens.hasTrailingText_iff closes, trails]) _

/-- Reading a head checks its rules in order. -/
theorem failsFirst_readHead (head : List Char) :
    FailsFirst (fun rule fault => rule head fault) headRules (readHead head) := by
  rw [readHead_eq, headRules]
  cases first : Text.splitAtFirst? '<' head with
  | none =>
      have noTemplate := Text.splitAtFirst?_eq_none_iff.mp first
      exact failsFirst_of_broken (fun other => by simp [LacksTemplate, noTemplate]) _
  | some parts =>
      obtain ⟨front, argument⟩ := parts
      dsimp only
      have opens : Opens head front argument := opens_iff.mpr first
      have hasTemplate : '<' ∈ head := by simp [opens.joined]
      refine .cons ?_ fun other lacks => lacks.1 hasTemplate
      cases last : Text.splitAtLast? '_' front with
      | none =>
          have noLead := Text.splitAtLast?_eq_none_iff.mp last
          exact failsFirst_of_broken (fun other => by simp [opens.lacksLead_iff, noLead]) _
      | some parts =>
          obtain ⟨lead, tag⟩ := parts
          dsimp only
          obtain ⟨rfl, isLast⟩ := Text.splitAtLast?_eq_some_iff.mp last
          by_cases noLead : lead = []
          · subst noLead
            exact failsFirst_of_broken (fun other => by simp [opens.lacksLead_iff, isLast]) _
          · rw [if_neg noLead]
            refine .cons ?_ fun other => opens.not_lacksLead noLead
            cases named : Workload.ofTag? (String.ofList tag) with
            | none =>
                exact failsFirst_of_broken
                  (fun other => by simp [opens.hasUnknownTag_iff isLast, named]) _
            | some workload =>
                dsimp only
                refine .cons ?_ fun other => by simp [opens.hasUnknownTag_iff isLast, named]
                exact opens.failsFirst_argument workload

end Head

theorem atSegments_iff {rule : List Char → List Char → List Char → NameFault → Prop}
    {head threads size : List Char} {fault : NameFault} :
    AtSegments rule [head, threads, size] fault ↔ rule head threads size fault := by
  simp [AtSegments]

theorem readSegments_of_length_ne {segments : List (List Char)} (wrong : segments.length ≠ 3) :
    readSegments segments = .error (.segmentCount (.exactly 3) segments.length) := by
  unfold readSegments
  split
  · simp at wrong
  · rfl

/-- Reading segments checks their number, the first one, and then the counts. -/
theorem failsFirst_readSegments (segments : List (List Char)) :
    FailsFirst (fun rule fault => rule segments fault) rules (readSegments segments) := by
  by_cases isTriple : segments.length = 3
  · obtain ⟨head, threads, size, rfl⟩ := List.length_eq_three.mp isTriple
    refine .cons (.bind ?head fun _ _ => failsFirst_bind ?threads fun _ _ =>
      failsFirst_bind ?size fun _ _ => failsFirst_ok _) ?number
    case head =>
      intro fault
      rw [firstOutcome_map, failsFirst_readHead head fault]
      simp only [atSegments_iff]
    case threads =>
      intro fault
      rw [atSegments_iff, readCount_eq_error_iff]
    case size =>
      intro fault
      rw [atSegments_iff, readCount_eq_error_iff]
    case number => exact fun other miscounted => miscounted.1 rfl
  · rw [readSegments_of_length_ne isTriple]
    exact failsFirst_of_broken
      (fun other => by simp [Miscounted, SegmentBound.Allows, isTriple]) _

end ListName

end ThroughputCharts
