import ThroughputCharts.Proofs.ListNameGrammar

/-!
# Writing and reading list case names

A written name fits the grammar of list case names just when its variant is plain text and its counts
are positive.  Every configuration that reading can give is of that kind, so writing it gives a name of
its own, which stands for all names of the configuration.
-/

namespace ThroughputCharts
namespace ListName

structure Encodable (variant : String) (threads size : UInt64) : Prop where
  variant_nonempty : variant ≠ ""
  variant_plain : ∀ mark ∈ ['<', '>', '/'], mark ∉ variant.toList
  threads_pos : 1 ≤ threads
  size_pos : 1 ≤ size

/-- The name that a configuration is written with, if it is one of a list benchmark. -/
def encodeKey? (key : Key) : Option String :=
  match key.workload, key.size with
  | some workload, .elements size => some (encode workload key.variant key.threads size)
  | _, _ => none

/-- The pieces that a name is written from. -/
def encodedPieces (workload : Workload) (variant : String) (threads size : UInt64) : Pieces where
  lead := benchmark
  workload := workload
  variant := variant
  rest := "<" ++ elementType ++ ">>"
  threads := Nat.repr threads.toNat
  size := Nat.repr size.toNat

end ListName

namespace Decimal

theorem value_repr (count : UInt64) : value (Nat.repr count.toNat).toList = count.toNat := by
  have digitsOf : (Nat.repr count.toNat).toList = digits count.toNat := by simp [Nat.repr, digits]
  rw [digitsOf, value_digits]

/-- The digits of a positive 64-bit number are a count. -/
theorem isCount_repr {count : UInt64} (positive : 1 ≤ count) :
    IsCount (Nat.repr count.toNat) := by
  have areDigits := isDigits_digits count.toNat
  have digitsOf : (Nat.repr count.toNat).toList = digits count.toNat := by simp [Nat.repr, digits]
  simp only [isDigits, Bool.and_eq_true, Bool.not_eq_true', List.all_eq_true] at areDigits
  constructor
  case nonempty =>
    intro isEmpty
    rw [isEmpty] at digitsOf
    simp [← digitsOf] at areDigits
  case digits =>
    rw [digitsOf]
    exact areDigits.2
  case positive =>
    rw [value_repr]
    exact UInt64.le_iff_toNat_le.mp positive
  case bounded =>
    rw [value_repr]
    exact count.toNat_lt_size

end Decimal

namespace ListName

section Written

variable {workload : Workload} {variant : String} {threads size : UInt64}

theorem name_encodedPieces :
    (encodedPieces workload variant threads size).name = encode workload variant threads size := by
  simp [encodedPieces, Pieces.name, encode, String.append_assoc]

theorem key_encodedPieces :
    (encodedPieces workload variant threads size).key =
      ⟨variant, some workload, threads, .elements size⟩ := by
  simp only [encodedPieces, Pieces.key, Decimal.value_repr, Nat.toUInt64_eq, UInt64.ofNat_toNat]

/-- The element type closes both brackets that are open behind the variant. -/
theorem closesAtEnd_elementType : ClosesAtEnd 1 ("<" ++ elementType ++ ">>").toList := by
  have closes : splitAtClose? 0 ("<" ++ elementType ++ ">>").toList =
      some (("<" ++ elementType ++ ">").toList, []) := by decide
  obtain ⟨joined, closesAtEnd⟩ := splitAtClose?_eq_some_iff.mp closes
  rw [joined]
  exact closesAtEnd

theorem Encodable.wellFormed (encodable : Encodable variant threads size) (workload : Workload) :
    (encodedPieces workload variant threads size).WellFormed where
  lead_nonempty := show benchmark ≠ "" by decide
  lead_plain := by
    rw [List.forall_mem_cons, List.forall_mem_singleton]
    exact show '<' ∉ benchmark.toList ∧ '/' ∉ benchmark.toList by decide
  variant_nonempty := encodable.variant_nonempty
  variant_plain := encodable.variant_plain
  rest_plain := show '/' ∉ ("<" ++ elementType ++ ">>").toList by decide
  rest_start := .inr (show ("<" ++ elementType ++ ">>").toList.head? = some '<' by decide)
  balanced := by
    have noOpen := encodable.variant_plain '<' (by simp)
    have noClose := encodable.variant_plain '>' (by simp)
    have argument : ReturnsAtEnd ('<' :: (variant.toList ++ ("<" ++ elementType ++ ">>").toList)) := by
      rw [returnsAtEnd_cons_open, closesAtEnd_plain_append (by decide) noOpen noClose]
      exact closesAtEnd_elementType
    simpa [encodedPieces] using argument
  threads_count := Decimal.isCount_repr encodable.threads_pos
  size_count := Decimal.isCount_repr encodable.size_pos

theorem decode_encode (encodable : Encodable variant threads size) (workload : Workload) :
    decode (encode workload variant threads size) =
      .ok ⟨variant, some workload, threads, .elements size⟩ := by
  rw [← name_encodedPieces, ← key_encodedPieces]
  exact (encodable.wellFormed workload).decode_name

end Written

/-- Reading gives configurations that can be written, whatever the name looked like. -/
theorem encodable_of_decode {name : String} {key : Key} (accepted : decode name = .ok key) :
    ∃ workload size, key = ⟨key.variant, some workload, key.threads, .elements size⟩ ∧
      Encodable key.variant key.threads size := by
  obtain ⟨pieces, wellFormed, -, rfl⟩ := Pieces.exists_wellFormed_of_decode accepted
  refine ⟨pieces.workload, _, rfl, ?_⟩
  constructor
  case variant_nonempty => exact wellFormed.variant_nonempty
  case variant_plain => exact wellFormed.variant_plain
  case threads_pos => exact wellFormed.threads_count.one_le
  case size_pos => exact wellFormed.size_count.one_le

theorem exists_encodeKey?_of_decode {name : String} {key : Key} (accepted : decode name = .ok key) :
    ∃ written, encodeKey? key = some written ∧ decode written = .ok key := by
  obtain ⟨workload, size, shape, encodable⟩ := encodable_of_decode accepted
  refine ⟨encode workload key.variant key.threads size, ?_, ?_⟩
  · rw [shape]
    rfl
  · rw [decode_encode encodable workload, ← shape]

/-- Writing and reading are inverse on plain variants with positive counts and on no others, and the
written name of what a name stands for decides which names stand for the same. -/
theorem decode_encode_eq_ok_iff_plain :
    (∀ workload variant threads size,
      decode (encode workload variant threads size) =
          .ok ⟨variant, some workload, threads, .elements size⟩ ↔
        variant ≠ "" ∧ (∀ mark ∈ ['<', '>', '/'], mark ∉ variant.toList) ∧
          1 ≤ threads ∧ 1 ≤ size) ∧
    (∀ name key, decode name = .ok key →
      ∃ written, encodeKey? key = some written ∧ decode written = .ok key) ∧
    ∀ first second firstKey secondKey,
      decode first = .ok firstKey → decode second = .ok secondKey →
        (firstKey = secondKey ↔ encodeKey? firstKey = encodeKey? secondKey) := by
  refine ⟨?_, ?_, ?_⟩
  · intro workload variant threads size
    constructor
    · intro accepted
      obtain ⟨_, _, shape, encodable⟩ := encodable_of_decode accepted
      rw [Key.mk.injEq, ProblemSize.elements.injEq] at shape
      obtain ⟨-, -, -, rfl⟩ := shape
      exact ⟨encodable.variant_nonempty, encodable.variant_plain, encodable.threads_pos,
        encodable.size_pos⟩
    · rintro ⟨nonempty, plain, threadsPositive, sizePositive⟩
      exact decode_encode ⟨nonempty, plain, threadsPositive, sizePositive⟩ workload
  · intro name key accepted
    exact exists_encodeKey?_of_decode accepted
  · intro first second firstKey secondKey firstAccepted secondAccepted
    constructor
    · rintro rfl
      rfl
    · intro sameWritten
      obtain ⟨written, isWritten, rereads⟩ := exists_encodeKey?_of_decode firstAccepted
      obtain ⟨other, isOther, otherRereads⟩ := exists_encodeKey?_of_decode secondAccepted
      have sameName : written = other := by
        rw [← Option.some.injEq, ← isWritten, ← isOther, sameWritten]
      rw [sameName, otherRereads] at rereads
      exact (Except.ok.inj rereads).symm

/-- A name with underscores, a nested argument and leading zeros. -/
def windingName : String := "BM_x_BalancedWorkload<Über_list,2<Node<int>>>/007/01000"

def windingKey : Key := ⟨"Über_list,2", some .balanced, 7, .elements 1000⟩

theorem decode_encode_windingName :
    decode windingName = .ok windingKey ∧
      ∃ written, encodeKey? windingKey = some written ∧ decode written = .ok windingKey := by
  have accepted : decode windingName = .ok windingKey :=
    toOption_eq_some_iff.mp (by decide +kernel)
  exact ⟨accepted, decode_encode_eq_ok_iff_plain.2.1 windingName windingKey accepted⟩

end ListName
end ThroughputCharts
