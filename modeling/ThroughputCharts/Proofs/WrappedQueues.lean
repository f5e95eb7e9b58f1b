import ThroughputCharts.Proofs.QueueNameGrammar

/-!
# Wrapped queues

A queue and the adapter type that wraps it share a variant.  The wrapper marker behind the identifier
that names the queue in a head makes a longer identifier in the same place, and it still is the one
that names the queue.  So the wrapped name is accepted as well, and it stands for what was wrapped.
-/

namespace ThroughputCharts

namespace Text

/-- What follows a word does not depend on the text behind a character that cannot belong to it. -/
theorem head?_dropWhile_append_stop {inside : Char → Bool} {stop : Char}
    (outside : inside stop = false) (text rest : List Char) :
    ((text ++ stop :: rest).dropWhile inside).head? = ((text ++ [stop]).dropWhile inside).head? := by
  induction text with
  | nil => simp [outside]
  | cons char text induction =>
      rw [List.cons_append, List.cons_append, List.dropWhile_cons, List.dropWhile_cons]
      split
      · exact induction
      · rfl

end Text

namespace QueueName

/-- The identifier that names the queue stands behind the given text. -/
def NamesQueueAt (head before word : List Char) : Prop :=
  LeftmostAt '<' head before word ∨ Absent '<' head ∧ RightmostAt '>' head before word

/-- The text of a name in front of its first slash. -/
def headOf (name : String) : List Char :=
  name.toList.takeWhile (· != '/')

/-- A name is cut around the identifier that names the queue in its head. -/
structure Picks (name before word after : String) : Prop where
  joined : name = before ++ "<" ++ word ++ after
  names : NamesQueueAt (headOf name) before.toList word.toList

theorem namesQueue_iff_exists {head word : List Char} :
    NamesQueue head word ↔ ∃ before, NamesQueueAt head before word := by
  simp only [NamesQueueAt, exists_or, exists_and_left]
  rfl

section Places

variable {next char : Char} {before rest text word : List Char}

/-- Whether an identifier opens a text is settled in front of the next opening bracket. -/
theorem opensWith_append_open (stop : isWordChar next = false) (rest : List Char) :
    OpensWith (char :: (text ++ '<' :: rest)) word next ↔
      OpensWith (char :: (text ++ ['<'])) word next := by
  by_cases isOpen : char = '<'
  · rw [isOpen, opensWith_iff stop, opensWith_iff stop,
      Text.takeWhile_append_stop_eq (by decide) text rest,
      Text.takeWhile_append_stop_eq (by decide) text [],
      Text.head?_dropWhile_append_stop (by decide) text rest]
  · have notOpening (tail : List Char) : ¬ OpensWith (char :: tail) word next :=
      fun opens => isOpen (Option.some.inj opens.eq_open)
    exact iff_of_false (notOpening _) (notOpening _)

theorem absent_singleton : Absent next [char] := by
  rintro before word ⟨tail, joined, after, rfl, -⟩
  have lengths := congrArg List.length joined
  simp at lengths
  omega

theorem absent_append_plain (plain : '<' ∉ text) :
    Absent next (text ++ rest) ↔ Absent next rest := by
  induction text with
  | nil => rfl
  | cons char text induction =>
      rw [List.mem_cons, not_or] at plain
      have notOpening (word : List Char) : ¬ OpensWith (char :: (text ++ rest)) word next :=
        fun opens => plain.1 (Option.some.inj opens.eq_open).symm
      rw [List.cons_append, absent_cons, induction plain.2]
      simp [notOpening]

/-- An occurrence in front of an opening bracket ends there at the latest. -/
theorem absent_append_open (stop : isWordChar next = false) (rest : List Char) :
    Absent next (before ++ '<' :: rest) ↔
      Absent next (before ++ ['<']) ∧ Absent next ('<' :: rest) := by
  induction before with
  | nil => simp [absent_singleton]
  | cons char before induction =>
      rw [List.cons_append, List.cons_append, absent_cons, absent_cons, induction, and_assoc]
      simp only [opensWith_append_open stop rest]

/-- The leftmost occurrence has none in front of it. -/
theorem leftmostAt_append_open (stop : isWordChar next = false) :
    LeftmostAt next (before ++ '<' :: rest) before word ↔
      Absent next (before ++ ['<']) ∧ OpensWith ('<' :: rest) word next := by
  induction before with
  | nil => simp [leftmostAt_cons, absent_singleton]
  | cons char before induction =>
      rw [List.cons_append, List.cons_append, leftmostAt_cons, absent_cons]
      simp [induction, opensWith_append_open stop rest, and_assoc]

/-- The rightmost occurrence has none behind it. -/
theorem rightmostAt_append_open :
    RightmostAt next (before ++ '<' :: rest) before word ↔
      OpensWith ('<' :: rest) word next ∧ Absent next rest := by
  induction before with
  | nil => simp [rightmostAt_cons]
  | cons char before induction => simp [rightmostAt_cons, induction]

/-- The identifier that names the queue opens a list and has no other such one in front of it, or it
stands alone, where no identifier opens a list and none behind it stands alone. -/
theorem namesQueueAt_append_open :
    NamesQueueAt (before ++ '<' :: rest) before word ↔
      Absent '<' (before ++ ['<']) ∧
        (OpensWith ('<' :: rest) word '<' ∨
          OpensWith ('<' :: rest) word '>' ∧ Absent '<' rest ∧ Absent '>' rest) := by
  rw [NamesQueueAt, leftmostAt_append_open (by decide), rightmostAt_append_open,
    absent_append_open (by decide) rest, absent_cons]
  have notBoth (alone : OpensWith ('<' :: rest) word '>') (other : List Char) :
      ¬ OpensWith ('<' :: rest) other '<' := by
    intro nested
    exact absurd (nested.unique (by decide) (by decide) alone).2 (by decide)
  constructor
  · rintro (⟨noneBefore, nested⟩ | ⟨⟨noneBefore, -, noneNested⟩, alone, noneAlone⟩)
    · exact ⟨noneBefore, .inl nested⟩
    · exact ⟨noneBefore, .inr ⟨alone, noneNested, noneAlone⟩⟩
  · rintro ⟨noneBefore, nested | ⟨alone, noneNested, noneAlone⟩⟩
    · exact .inl ⟨noneBefore, nested⟩
    · exact .inr ⟨⟨noneBefore, notBoth alone, noneNested⟩, alone, noneAlone⟩

theorem NamesQueueAt.exists_eq {head : List Char} (names : NamesQueueAt head before word) :
    IsIdentifier word ∧ ∃ behind, head = before ++ '<' :: (word ++ behind) := by
  rcases names with ⟨⟨tail, joined, after, rfl, identifier⟩, -⟩ |
    ⟨-, ⟨tail, joined, after, rfl, identifier⟩, -⟩
  · exact ⟨identifier, _, joined⟩
  · exact ⟨identifier, _, joined⟩

end Places

section Inserting

variable {next : Char} {before word more behind : List Char}

theorem IsIdentifier.append (identifier : IsIdentifier word)
    (wordChars : ∀ char ∈ more, isWordChar char = true) : IsIdentifier (word ++ more) := by
  cases word with
  | nil => simp [isIdentifier_iff, startsWithLetter] at identifier
  | cons first rest =>
      rw [isIdentifier_iff] at identifier ⊢
      exact ⟨identifier.1, List.forall_mem_append.mpr ⟨identifier.2, wordChars⟩⟩

theorem IsIdentifier.of_append (identifier : IsIdentifier (word ++ more)) (nonempty : word ≠ []) :
    IsIdentifier word := by
  cases word with
  | nil => exact absurd rfl nonempty
  | cons first rest =>
      rw [isIdentifier_iff] at identifier ⊢
      exact ⟨identifier.1, (List.forall_mem_append.mp identifier.2).1⟩

theorem OpensWith.insert (opens : OpensWith ('<' :: (word ++ behind)) word next)
    (wordChars : ∀ char ∈ more, isWordChar char = true) :
    OpensWith ('<' :: (word ++ more ++ behind)) (word ++ more) next := by
  obtain ⟨after, joined, identifier⟩ := opens
  rw [List.cons.injEq, List.append_cancel_left_eq] at joined
  exact ⟨after, by rw [joined.2], identifier.append wordChars⟩

/-- An identifier that grows at its end goes on naming the queue. -/
theorem NamesQueueAt.insert (names : NamesQueueAt (before ++ '<' :: (word ++ behind)) before word)
    (wordChars : ∀ char ∈ more, isWordChar char = true) :
    NamesQueueAt (before ++ '<' :: (word ++ more ++ behind)) before (word ++ more) := by
  have plain {text : List Char} (inWord : ∀ char ∈ text, isWordChar char = true) : '<' ∉ text :=
    fun member => absurd (inWord '<' member) (by decide)
  have plainWord := plain (isIdentifier_iff.mp names.exists_eq.1).2
  have plainLonger := List.not_mem_append plainWord (plain wordChars)
  rw [namesQueueAt_append_open] at names ⊢
  simp only [absent_append_plain plainLonger, absent_append_plain plainWord] at names ⊢
  refine ⟨names.1, ?_⟩
  rcases names.2 with nested | ⟨alone, noneBehind⟩
  · exact .inl (nested.insert wordChars)
  · exact .inr ⟨alone.insert wordChars, noneBehind⟩

end Inserting

/-- The wrapper marker can belong to an identifier. -/
theorem wordChars_wrapperSuffix : ∀ char ∈ wrapperSuffix.toList, isWordChar char = true :=
  List.all_eq_true.mp (by decide)

section Cuts

variable {before word behind : String}

theorem toList_cut (before word behind : String) :
    (before ++ "<" ++ word ++ behind).toList =
      before.toList ++ '<' :: (word.toList ++ behind.toList) := by
  simp

theorem slash_notMem_cut_iff :
    '/' ∉ (before ++ "<" ++ word ++ behind).toList ↔
      '/' ∉ before.toList ∧ '/' ∉ word.toList ∧ '/' ∉ behind.toList := by
  rw [toList_cut]
  simp

/-- The identifier at the first opening bracket names the queue when it opens a list of its own. -/
theorem namesQueueAt_cut (plain : '<' ∉ before.toList) (identifier : IsIdentifier word.toList)
    (nested : behind.toList.head? = some '<') :
    NamesQueueAt (before ++ "<" ++ word ++ behind).toList before.toList word.toList := by
  obtain ⟨more, isBehind⟩ := List.head?_eq_some_iff.mp nested
  rw [toList_cut, namesQueueAt_append_open, absent_append_plain plain]
  exact ⟨absent_singleton, .inl ⟨more, by rw [isBehind], identifier⟩⟩

theorem NamesQueueAt.append_wrapper
    (names : NamesQueueAt (before ++ "<" ++ word ++ behind).toList before.toList word.toList) :
    NamesQueueAt (before ++ "<" ++ (word ++ wrapperSuffix) ++ behind).toList before.toList
      (word ++ wrapperSuffix).toList := by
  rw [toList_cut] at names ⊢
  rw [String.toList_append]
  exact names.insert wordChars_wrapperSuffix

end Cuts

section Marker

theorem dropMarker_append {marker text : List Char} (nonempty : text ≠ []) :
    dropMarker marker (text ++ marker) = text := by
  have isSuffix : marker.isSuffixOf (text ++ marker) = true :=
    List.isSuffixOf_iff_suffix.mpr (List.suffix_append text marker)
  simp [dropMarker, isSuffix, nonempty]

/-- A marker is dropped from behind some other text, or the text is kept. -/
theorem dropMarker_cases (marker text : List Char) :
    (∃ front, front ≠ [] ∧ text = front ++ marker ∧ dropMarker marker text = front) ∨
      dropMarker marker text = text ∧ (¬ marker <:+ text ∨ text = marker) := by
  by_cases isSuffix : marker <:+ text
  · obtain ⟨front, rfl⟩ := isSuffix
    by_cases isMarker : front = []
    · simp [dropMarker, isMarker]
    · exact .inl ⟨front, isMarker, rfl, dropMarker_append isMarker⟩
  · have notSuffix : marker.isSuffixOf text = false := by
      rw [Bool.eq_false_iff, Ne, List.isSuffixOf_iff_suffix]
      exact isSuffix
    exact .inr ⟨by simp [dropMarker, notSuffix], .inl isSuffix⟩

theorem dropMarker_eq_self_iff {marker text : List Char} (nonempty : marker ≠ []) :
    dropMarker marker text = text ↔ ¬ marker <:+ text ∨ text = marker := by
  rcases dropMarker_cases marker text with ⟨front, isFront, rfl, dropped⟩ | ⟨kept, plain⟩
  · rw [dropped]
    simp [isFront, nonempty]
  · exact iff_of_true kept plain

/-- An identifier stays one without the marker. -/
theorem IsIdentifier.dropMarker {marker text : List Char} (identifier : IsIdentifier text) :
    IsIdentifier (dropMarker marker text) := by
  rcases dropMarker_cases marker text with ⟨front, isFront, rfl, dropped⟩ | ⟨kept, -⟩
  · rw [dropped]
    exact identifier.of_append isFront
  · rw [kept]
    exact identifier

theorem normalizeVariant_append {variant : String} (nonempty : variant ≠ "") :
    normalizeVariant (variant ++ wrapperSuffix) = variant := by
  rw [normalizeVariant, String.toList_append, dropMarker_append (by simpa using nonempty),
    String.ofList_toList]

theorem normalizeVariant_eq_self_iff {variant : String} :
    normalizeVariant variant = variant ↔
      ¬ wrapperSuffix.toList <:+ variant.toList ∨ variant = wrapperSuffix := by
  rw [normalizeVariant, ← String.toList_inj, String.toList_ofList, dropMarker_eq_self_iff (by decide),
    String.toList_inj]

end Marker

namespace Segments

variable {segments : Segments}

theorem WellFormed.headOf_name (wellFormed : segments.WellFormed) :
    headOf segments.name = segments.head.toList := by
  have plain : ∀ char ∈ segments.head.toList, (char != '/') = true := by
    intro char member
    have noSlash := wellFormed.plain segments.head List.mem_cons_self
    exact bne_iff_ne.mpr fun isSlash => noSlash (isSlash ▸ member)
  rw [headOf, toList_name, all, List.map_cons]
  cases others : (segments.before ++ segments.operations :: segments.after ++
      [segments.threads, realTime]).map String.toList with
  | nil => simp at others
  | cons next others =>
      rw [List.intercalate_cons_cons, List.append_assoc, List.singleton_append]
      exact Text.takeWhile_append_stop plain (by decide) _

/-- The segments with another head. -/
def withHead (segments : Segments) (head : String) : Segments :=
  { segments with head := head }

/-- What stands behind the head does not depend on it. -/
theorem exists_name_eq (segments : Segments) :
    ∃ behind, ∀ head, (segments.withHead head).name = head ++ behind := by
  cases others : segments.before ++ segments.operations :: segments.after ++
      [segments.threads, realTime] with
  | nil => simp at others
  | cons next others' =>
      refine ⟨"/" ++ "/".intercalate (next :: others'), fun head => ?_⟩
      simp [name, all, withHead, others, String.append_assoc]

theorem WellFormed.withHead (wellFormed : segments.WellFormed) {head : String}
    (plain : '/' ∉ head.toList) {word : List Char} (names : NamesQueue head.toList word) :
    (segments.withHead head).WellFormed where
  plain := List.forall_mem_cons.mpr ⟨plain, (List.forall_mem_cons.mp wellFormed.plain).2⟩
  leftmost := wellFormed.leftmost
  operations_count := wellFormed.operations_count
  threads_count := wellFormed.threads_count
  named := exists_namesQueue_iff.mp ⟨word, names⟩

end Segments

section Wrapping

variable {name before word after : String} {key : Key}

/-- An accepted name is cut around the identifier that its variant is read from. -/
theorem exists_picks (accepted : decode name = .ok key) :
    ∃ before word after, Picks name before word after := by
  obtain ⟨segments, word, wellFormed, rfl, names, -⟩ := Segments.exists_wellFormed_of_decode accepted
  obtain ⟨before, placed⟩ := namesQueue_iff_exists.mp names
  obtain ⟨-, behind, joined⟩ := placed.exists_eq
  obtain ⟨tail, nameOf⟩ := segments.exists_name_eq
  have isName : segments.name = segments.head ++ tail := nameOf segments.head
  refine ⟨String.ofList before, String.ofList word, String.ofList behind ++ tail, ?joined, ?names⟩
  case joined =>
    rw [isName, ← String.toList_inj]
    simp [joined]
  case names =>
    rw [wellFormed.headOf_name, String.toList_ofList, String.toList_ofList]
    exact placed

/-- The identifier that is picked in an accepted name gives the variant, and another one in its place
changes the head and nothing else. -/
theorem Picks.exists_segments (picks : Picks name before word after)
    (accepted : decode name = .ok key) :
    ∃ (segments : Segments) (behind : String), segments.WellFormed ∧
      segments.head = before ++ "<" ++ word ++ behind ∧
      NamesQueueAt segments.head.toList before.toList word.toList ∧
      key = segments.key word.toList ∧
      ∀ other, before ++ "<" ++ other ++ after =
        (segments.withHead (before ++ "<" ++ other ++ behind)).name := by
  obtain ⟨segments, found, wellFormed, rfl, names, rfl⟩ :=
    Segments.exists_wellFormed_of_decode accepted
  have placed := picks.names
  rw [wellFormed.headOf_name] at placed
  have sameWord : found = word.toList := by
    have isFound := templatedIdentifier_eq_some_iff.mpr names
    rw [templatedIdentifier_eq_some_iff.mpr (namesQueue_iff_exists.mpr ⟨_, placed⟩)] at isFound
    exact (Option.some.inj isFound).symm
  obtain ⟨-, behind, joined⟩ := placed.exists_eq
  have isHead : segments.head = before ++ "<" ++ word ++ String.ofList behind := by
    rw [← String.toList_inj, toList_cut, joined, String.toList_ofList]
  obtain ⟨tail, nameOf⟩ := segments.exists_name_eq
  have isAfter : after = String.ofList behind ++ tail := by
    have cut := congrArg String.toList (picks.joined.symm.trans (nameOf segments.head))
    simp only [isHead, String.toList_append, List.append_assoc, List.append_cancel_left_eq] at cut
    rw [← String.toList_inj, String.toList_append]
    exact cut
  refine ⟨segments, String.ofList behind, wellFormed, isHead, placed,
    congrArg segments.key sameWord, ?_⟩
  intro other
  rw [nameOf, isAfter]
  simp only [String.append_assoc]

/-- A configuration that an accepted name stands for has an identifier as variant, no workload and
positive counts. -/
theorem shape_of_decode (accepted : decode name = .ok key) :
    IsIdentifier key.variant.toList ∧ key.workload = none ∧ 1 ≤ key.threads ∧
      ∃ operations, key.size = .operations operations ∧ 1 ≤ operations := by
  obtain ⟨segments, word, wellFormed, rfl, names, rfl⟩ :=
    Segments.exists_wellFormed_of_decode accepted
  obtain ⟨before, placed⟩ := namesQueue_iff_exists.mp names
  refine ⟨?_, rfl, wellFormed.threads_count.one_le, _, rfl, wellFormed.operations_count.one_le⟩
  rw [Segments.key, normalizeVariant, String.toList_ofList, String.toList_ofList]
  exact placed.exists_eq.1.dropMarker

theorem Picks.variant_eq (picks : Picks name before word after)
    (accepted : decode name = .ok key) : key.variant = normalizeVariant word := by
  obtain ⟨segments, -, -, -, -, rfl, -⟩ := picks.exists_segments accepted
  rw [Segments.key, String.ofList_toList]

/-- With the wrapper marker behind the picked identifier, a name is read as the configuration of the
identifier itself. -/
theorem Picks.decode_append_wrapper (picks : Picks name before word after)
    (accepted : decode name = .ok key) :
    decode (before ++ "<" ++ (word ++ wrapperSuffix) ++ after) =
      .ok { key with variant := word } := by
  obtain ⟨segments, behind, wellFormed, isHead, placed, rfl, nameOf⟩ :=
    picks.exists_segments accepted
  have nonempty : word ≠ "" := by
    obtain ⟨first, rest, isWord, -⟩ := placed.exists_eq.1
    rw [Ne, ← String.toList_inj, isWord]
    exact List.cons_ne_nil first rest
  have plain : '/' ∉ (before ++ "<" ++ (word ++ wrapperSuffix) ++ behind).toList := by
    have plainHead := wellFormed.plain segments.head List.mem_cons_self
    have plainMarker : '/' ∉ wrapperSuffix.toList := by decide
    rw [isHead, slash_notMem_cut_iff] at plainHead
    rw [slash_notMem_cut_iff, String.toList_append]
    exact ⟨plainHead.1, List.not_mem_append plainHead.2.1 plainMarker, plainHead.2.2⟩
  rw [isHead] at placed
  have names := namesQueue_iff_exists.mpr ⟨_, placed.append_wrapper⟩
  rw [nameOf, (wellFormed.withHead plain names).decode_name names]
  simp only [Segments.key, Segments.withHead, String.ofList_toList, normalizeVariant_append nonempty]

/-- With the wrapper marker behind the identifier that names its queue, an accepted name is accepted
again, and nothing but the variant can change.  It stays the same unless the identifier is a wrapped
one already. -/
theorem decode_wrapped (accepted : decode name = .ok key) :
    (∃ before word after, Picks name before word after) ∧
    ∀ before word after, Picks name before word after →
      key.variant = normalizeVariant word ∧
      ∃ wrappedKey, decode (before ++ "<" ++ word ++ "Wrapper" ++ after) = .ok wrappedKey ∧
        wrappedKey.threads = key.threads ∧ wrappedKey.size = key.size ∧
        (wrappedKey = key ↔ ¬ "Wrapper".toList <:+ word.toList ∨ word = "Wrapper") := by
  refine ⟨exists_picks accepted, ?_⟩
  intro before word after picks
  have isVariant := picks.variant_eq accepted
  have wrapped := picks.decode_append_wrapper accepted
  rw [← String.append_assoc] at wrapped
  refine ⟨isVariant, _, wrapped, rfl, rfl, ?_⟩
  have sameKey : ({ key with variant := word } : Key) = key ↔ key.variant = word := by
    cases key
    simp [eq_comm]
  rw [sameKey, isVariant]
  exact normalizeVariant_eq_self_iff

/-- A name with one identifier that stands alone in front of the one that names its queue. -/
def spinningName : String := "BM_Run<Spin><RingWrapper>/warm/10000/4/real_time"

def spinningKey : Key := ⟨"Ring", none, 4, .operations 10000⟩

theorem picks_spinningName :
    Picks spinningName "BM_Run<Spin>" "RingWrapper" ">/warm/10000/4/real_time" where
  joined := by decide
  names := by
    have head : headOf spinningName =
        "BM_Run<Spin>".toList ++ '<' :: ("RingWrapper".toList ++ ">".toList) := by decide
    have front : "BM_Run<Spin>".toList ++ ['<'] =
        "BM_Run".toList ++ '<' :: ("Spin>".toList ++ ['<']) := by decide
    have behind (next : Char) : Absent next ("RingWrapper".toList ++ ">".toList) := by
      rw [absent_append_plain (by decide)]
      exact absent_singleton
    have noneNested (word : List Char) :
        ¬ OpensWith ('<' :: ("Spin>".toList ++ ['<'])) word '<' := by
      rw [opensWith_iff (by decide)]
      exact fun opens => absurd opens.2.2 (by decide)
    rw [head, namesQueueAt_append_open, front, absent_append_plain (by decide), absent_cons,
      absent_append_plain (by decide), opensWith_iff (by decide), opensWith_iff (by decide)]
    exact ⟨⟨noneNested, absent_singleton⟩, .inr ⟨by decide, behind '<', behind '>'⟩⟩

/-- The queue is wrapped already, so wrapping it again makes another configuration. -/
theorem decode_wrapped_spinningName :
    decode spinningName = .ok spinningKey ∧
    Picks spinningName "BM_Run<Spin>" "RingWrapper" ">/warm/10000/4/real_time" ∧
    ∃ wrappedKey, decode "BM_Run<Spin><RingWrapperWrapper>/warm/10000/4/real_time" = .ok wrappedKey ∧
      wrappedKey.threads = 4 ∧ wrappedKey.size = .operations 10000 ∧ wrappedKey ≠ spinningKey := by
  have accepted : decode spinningName = .ok spinningKey :=
    toOption_eq_some_iff.mp (by decide +kernel)
  have wrapped := (decode_wrapped accepted).2 _ _ _ picks_spinningName
  refine ⟨accepted, picks_spinningName, ?_⟩
  obtain ⟨-, wrappedKey, decoded, sameThreads, sameSize, same⟩ := wrapped
  refine ⟨wrappedKey, decoded, sameThreads, sameSize, ?_⟩
  rw [Ne, same]
  decide

end Wrapping

end QueueName
end ThroughputCharts
