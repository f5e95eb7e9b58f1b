import ThroughputCharts.Family
import ThroughputCharts.Proofs.ListNameFaults
import ThroughputCharts.Proofs.QueueNameGrammar

/-!
# The faults of case names

Decoding a queue case name checks the rules for its last two segments, then those for the ones
between, and the head comes last.  In both families a name is refused with the fault of the first
rule that it breaks, and the error quotes the whole name.
-/

namespace ThroughputCharts

namespace QueueName

/-- There are a head and two final segments, and the segments break a rule. -/
def AtSegments
    (rule : List Char → List (List Char) → List Char → List Char → NameFault → Prop) :
    Rule (List (List Char)) := fun segments fault =>
  ∃ head middle threads last, segments = head :: (middle ++ [threads, last]) ∧
    rule head middle threads last fault

/-- No segment is a number. -/
def LacksOperations : Rule (List (List Char)) := fun middle fault =>
  (∀ segment ∈ middle, Decimal.isDigits segment = false) ∧ fault = .missingOperationCount

/-- The leftmost segment that is a number breaks a rule. -/
def InOperations (rule : Rule (List Char)) : Rule (List (List Char)) := fun middle fault =>
  ∃ before operations after, middle = before ++ operations :: after ∧
    (∀ segment ∈ before, Decimal.isDigits segment = false) ∧
      Decimal.isDigits operations = true ∧ rule operations fault

/-- No identifier opens a list or stands alone between brackets. -/
def LacksVariant : Rule (List Char) := fun head fault =>
  Absent '<' head ∧ Absent '>' head ∧ fault = .missingVariant

/-- The rules for the segments of a queue case name in the order in which they are checked. -/
def rules : List (Rule (List (List Char))) :=
  [Miscounted (.atLeast 4),
    AtSegments fun _ _ _ last fault => String.ofList last ≠ realTime ∧ fault = .missingRealTime,
    AtSegments fun _ _ threads _ => NoCount .threads threads,
    AtSegments fun _ middle _ _ => LacksOperations middle,
    AtSegments fun _ middle _ _ => InOperations (NoCount .operations) middle,
    AtSegments fun head _ _ _ => LacksVariant head]

theorem atSegments_iff
    {rule : List Char → List (List Char) → List Char → List Char → NameFault → Prop}
    {head threads last : List Char} {middle : List (List Char)} {fault : NameFault} :
    AtSegments rule (head :: (middle ++ [threads, last])) fault ↔
      rule head middle threads last fault := by
  constructor
  · rintro ⟨otherHead, otherMiddle, otherThreads, otherLast, same, breaks⟩
    obtain ⟨rfl, rest⟩ := List.cons.inj same
    obtain ⟨rfl, final⟩ := List.append_inj' rest rfl
    cases final
    exact breaks
  · exact fun breaks => ⟨head, middle, threads, last, rfl, breaks⟩

theorem lacksOperations_iff {middle : List (List Char)} {fault : NameFault} :
    LacksOperations middle fault ↔
      middle.find? Decimal.isDigits = none ∧ fault = .missingOperationCount := by
  simp [LacksOperations]

theorem inOperations_iff {rule : Rule (List Char)} {middle : List (List Char)}
    {operations : List Char} {fault : NameFault}
    (found : middle.find? Decimal.isDigits = some operations) :
    InOperations rule middle fault ↔ rule operations fault := by
  constructor
  · rintro ⟨before, other, after, split, noneBefore, digits, breaks⟩
    have otherFound : middle.find? Decimal.isDigits = some other :=
      List.find?_eq_some_iff_append.mpr ⟨digits, before, after, split, by simpa using noneBefore⟩
    rw [found, Option.some.injEq] at otherFound
    exact otherFound ▸ breaks
  · obtain ⟨digits, before, after, split, noneBefore⟩ := List.find?_eq_some_iff_append.mp found
    intro breaks
    exact ⟨before, operations, after, split, by simpa using noneBefore, digits, breaks⟩

theorem lacksVariant_iff {head : List Char} {fault : NameFault} :
    LacksVariant head fault ↔ templatedIdentifier head = none ∧ fault = .missingVariant := by
  rw [LacksVariant, ← and_assoc, and_congr_left_iff]
  intro _
  rw [Option.eq_none_iff_forall_ne_some]
  simp only [ne_eq, templatedIdentifier_eq_some_iff]
  rw [← not_exists, exists_namesQueue_iff]
  constructor
  · rintro ⟨noneNested, noneAlone⟩ ⟨before, word, next, occurs, rfl | rfl⟩
    · exact noneNested before word occurs
    · exact noneAlone before word occurs
  · intro none
    exact ⟨fun before word occurs => none ⟨before, word, '<', occurs, .inl rfl⟩,
      fun before word occurs => none ⟨before, word, '>', occurs, .inr rfl⟩⟩

theorem readSegments_of_length_lt {segments : List (List Char)} (short : segments.length < 4) :
    readSegments segments = .error (.segmentCount (.atLeast 4) segments.length) := by
  match segments with
  | [] | [_] | [_, _] | [_, _, _] => rfl
  | _ :: _ :: _ :: _ :: _ => simp at short; omega

/-- Four or more segments are a head, some segments in the middle, and two final ones. -/
theorem exists_eq_of_four_le {segments : List (List Char)} (enough : 4 ≤ segments.length) :
    ∃ head middle threads last, middle ≠ [] ∧ segments = head :: (middle ++ [threads, last]) := by
  match segments with
  | head :: rest =>
      obtain ⟨rest, last, rfl⟩ := (List.eq_nil_or_concat rest).resolve_left (by
        rintro rfl
        simp at enough)
      obtain ⟨middle, threads, rfl⟩ := (List.eq_nil_or_concat rest).resolve_left (by
        rintro rfl
        simp at enough)
      refine ⟨head, middle, threads, last, ?_, by simp⟩
      rintro rfl
      simp at enough

/-- Every check of the segments is a reading that fails with its fault. -/
theorem readSegments_eq_bind {head threads last : List Char} {middle : List (List Char)}
    (nonempty : middle ≠ []) :
    readSegments (head :: (middle ++ [threads, last])) =
      if String.ofList last ≠ realTime then .error .missingRealTime
      else do
        let threads ← ListName.readCount .threads threads
        let operations ← required .missingOperationCount (middle.find? Decimal.isDigits)
        let operations ← ListName.readCount .operations operations
        let variant ← required .missingVariant (templatedIdentifier head)
        return ⟨normalizeVariant (String.ofList variant), none, threads, .operations operations⟩ := by
  rw [readSegments_eq nonempty]
  refine if_congr Iff.rfl rfl ?_
  cases ListName.readCount .threads threads with
  | error fault => rfl
  | ok threads =>
      cases middle.find? Decimal.isDigits with
      | none => rfl
      | some operations =>
          dsimp only [required, Option.elim, bind, Except.bind]
          cases ListName.readCount .operations operations with
          | error fault => rfl
          | ok operations => cases templatedIdentifier head <;> rfl

/-- Reading segments checks the number, the final ones, those in the middle and then the head. -/
theorem failsFirst_readSegments (segments : List (List Char)) :
    FailsFirst (fun rule fault => rule segments fault) rules (readSegments segments) := by
  by_cases enough : 4 ≤ segments.length
  · obtain ⟨head, middle, threads, last, nonempty, rfl⟩ := exists_eq_of_four_le enough
    refine .cons ?_ fun other miscounted => miscounted.1 enough
    rw [readSegments_eq_bind nonempty]
    refine failsFirst_ite (fun _ => atSegments_iff) fun _ => failsFirst_bind ?threads fun _ _ =>
      failsFirst_bind ?number fun operations found => failsFirst_bind ?operations fun _ _ =>
        failsFirst_bind ?variant fun _ _ => failsFirst_ok _
    case threads =>
      intro fault
      rw [atSegments_iff, ListName.readCount_eq_error_iff]
    case number =>
      intro fault
      rw [atSegments_iff, lacksOperations_iff, required_eq_error_iff]
    case operations =>
      intro fault
      rw [atSegments_iff, inOperations_iff (required_eq_ok_iff.mp found),
        ListName.readCount_eq_error_iff]
    case variant =>
      intro fault
      rw [atSegments_iff, lacksVariant_iff, required_eq_error_iff]
  · rw [readSegments_of_length_lt (Nat.lt_of_not_le enough)]
    exact failsFirst_of_broken (fun other => by simp [Miscounted, SegmentBound.Allows, enough]) _

end QueueName

namespace Family

/-- The rules for the segments of a case name. -/
def nameRules : Family → List (Rule (List (List Char)))
  | .list => ListName.rules
  | .queue => QueueName.rules

/-- A name is refused exactly when its segments break a rule; the error has the whole name and the
fault of the first such rule. -/
theorem decode_eq_error_iff_firstBroken (family : Family) (name : String) (error : NameError) :
    family.decode name = .error error ↔
      error.name = name ∧ ∃ segments, IsSegmented name.toList segments ∧
        FirstBroken family.nameRules segments error.fault := by
  have refuses (reading : Except NameFault Key)
      (fails : FailsFirst (fun rule fault => rule (Text.pieces '/' name.toList) fault)
        family.nameRules reading) :
      reading.mapError (NameError.mk name) = .error error ↔
        error.name = name ∧
          FirstBroken family.nameRules (Text.pieces '/' name.toList) error.fault := by
    obtain ⟨quoted, fault⟩ := error
    simp [mapError_eq_error_iff, fails _, FirstBroken, and_comm, eq_comm]
  simp only [isSegmented_iff, exists_eq_left]
  cases family with
  | list => exact refuses _ (ListName.failsFirst_readSegments _)
  | queue => exact refuses _ (QueueName.failsFirst_readSegments _)

end Family

end ThroughputCharts
