import ThroughputCharts.Proofs.ListNameRoundTrip
import ThroughputCharts.Proofs.NameKinds
import ThroughputCharts.Proofs.WrappedQueues
import ThroughputCharts.Sample

/-!
# The names of sample trials

A sample names its trials the way the benchmarks do.  A queue trial is named after the type that it is
run with, which is an adapter for one of the queues.  Its name is read as what it was written for just
when the variant is an identifier that is not taken for a wrapped one and the counts are positive.
-/

namespace ThroughputCharts

namespace Sample

open QueueName

/-- The type that the trials of a queue are run with. -/
def queueType (variant : String) : String :=
  variant ++ if variant = wrappedQueue then wrapperSuffix else ""

/-- The head of the name of a queue trial. -/
def queueHead (variant : String) : String :=
  "BM_QueueThroughput" ++ "<" ++ queueType variant ++ "<int>>"

/-- The segments that the name of a queue trial is written from. -/
def queueSegments (variant : String) (operations threads : UInt64) : Segments where
  head := queueHead variant
  before := []
  operations := Nat.repr operations.toNat
  after := []
  threads := Nat.repr threads.toNat

theorem queueName_eq (variant : String) (operations threads : UInt64) :
    queueName variant operations threads = queueHead variant ++ "/" ++
      Nat.repr operations.toNat ++ "/" ++ Nat.repr threads.toNat ++ "/" ++ realTime := by
  have front : ("BM_QueueThroughput<" : String) = "BM_QueueThroughput" ++ "<" := by decide
  have back : ("<int>>/" : String) = "<int>>" ++ "/" := by decide
  unfold queueName queueHead queueType
  rw [front, back]
  simp only [String.append_assoc]

theorem name_queueSegments (variant : String) (operations threads : UInt64) :
    (queueSegments variant operations threads).name = queueName variant operations threads := by
  rw [queueName_eq]
  simp [queueSegments, Segments.name, Segments.all, String.append_assoc]

section Queues

variable {variant : String} {operations threads : UInt64}

theorem isIdentifier_queueType (identifier : IsIdentifier variant.toList) :
    IsIdentifier (queueType variant).toList := by
  rw [queueType, String.toList_append]
  apply identifier.append
  split
  · exact wordChars_wrapperSuffix
  · simp

theorem normalizeVariant_queueType_iff :
    normalizeVariant (queueType variant) = variant ↔ normalizeVariant variant = variant := by
  by_cases isWrapped : variant = wrappedQueue
  · rw [isWrapped]
    decide
  · rw [queueType, if_neg isWrapped, String.append_empty]

theorem namesQueue_queueHead (identifier : IsIdentifier (queueType variant).toList) :
    NamesQueue (queueHead variant).toList (queueType variant).toList := by
  exact namesQueue_iff_exists.mpr ⟨_, namesQueueAt_cut (by decide) identifier (by decide)⟩

theorem wellFormed_queueSegments (identifier : IsIdentifier (queueType variant).toList)
    (operationsPositive : 1 ≤ operations) (threadsPositive : 1 ≤ threads) :
    (queueSegments variant operations threads).WellFormed where
  plain := by
    have plainOf {text : List Char} {inside : Char → Bool} (outside : inside '/' = false)
        (allInside : ∀ char ∈ text, inside char = true) : '/' ∉ text := by
      intro member
      rw [allInside '/' member] at outside
      contradiction
    have plainType := plainOf (by decide) (isIdentifier_iff.mp identifier).2
    have plainHead : '/' ∉ (queueHead variant).toList :=
      slash_notMem_cut_iff.mpr ⟨by decide, plainType, by decide⟩
    have plainOperations := plainOf (by decide) (Decimal.isCount_repr operationsPositive).digits
    have plainThreads := plainOf (by decide) (Decimal.isCount_repr threadsPositive).digits
    simp only [Segments.all, queueSegments, List.nil_append, List.cons_append,
      List.forall_mem_cons, List.not_mem_nil, false_imp_iff, implies_true, and_true]
    exact ⟨plainHead, plainOperations, plainThreads, by decide⟩
  leftmost := List.forall_mem_nil _
  operations_count := Decimal.isCount_repr operationsPositive
  threads_count := Decimal.isCount_repr threadsPositive
  named := exists_namesQueue_iff.mp ⟨_, namesQueue_queueHead identifier⟩

/-- The name of a queue trial is read as the type that the trial is run with, normalized. -/
theorem decode_queueName (identifier : IsIdentifier variant.toList)
    (operationsPositive : 1 ≤ operations) (threadsPositive : 1 ≤ threads) :
    decode (queueName variant operations threads) =
      .ok ⟨normalizeVariant (queueType variant), none, threads, .operations operations⟩ := by
  have isType := isIdentifier_queueType identifier
  have wellFormed := wellFormed_queueSegments isType operationsPositive threadsPositive
  rw [← name_queueSegments, wellFormed.decode_name (namesQueue_queueHead isType)]
  simp only [Segments.key, queueSegments, Decimal.value_repr, Nat.toUInt64_eq, UInt64.ofNat_toNat,
    String.ofList_toList]

end Queues

/-- The name of a queue trial is read as what it was written for exactly when the variant is an
identifier that stays as it is under normalization and both counts are positive. -/
theorem decode_queueName_eq_ok_iff (variant : String) (operations threads : UInt64) :
    decode (queueName variant operations threads) =
        .ok ⟨variant, none, threads, .operations operations⟩ ↔
      IsIdentifier variant.toList ∧ normalizeVariant variant = variant ∧
        1 ≤ operations ∧ 1 ≤ threads := by
  constructor
  · intro accepted
    -- An accepted name has an identifier as variant, so the name must be of the known form.
    obtain ⟨identifier, -, threadsPositive, count, isSize, operationsPositive⟩ :=
      shape_of_decode accepted
    cases isSize
    have decoded := decode_queueName identifier operationsPositive threadsPositive
    rw [accepted, Except.ok.injEq, Key.mk.injEq] at decoded
    exact ⟨identifier, normalizeVariant_queueType_iff.mp decoded.1.symm, operationsPositive,
      threadsPositive⟩
  · rintro ⟨identifier, isNormal, operationsPositive, threadsPositive⟩
    rw [decode_queueName identifier operationsPositive threadsPositive,
      normalizeVariant_queueType_iff.mpr isNormal]

/-- The wrapped queue is written with its adapter and read without it. -/
example : queueName wrappedQueue 10000 4 =
      "BM_QueueThroughput<BoundedQueueWrapper<int>>/10000/4/real_time" ∧
    normalizeVariant wrappedQueue = wrappedQueue := by
  decide

end Sample
end ThroughputCharts
