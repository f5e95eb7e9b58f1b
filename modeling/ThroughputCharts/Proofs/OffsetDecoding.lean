import ThroughputCharts.Proofs.ByteOffsets
import ThroughputCharts.Proofs.NameFaults

/-!
# Decoding at byte offsets

A case name can be decoded in place: brackets are looked for in its bytes, and its pieces are cut out
at the offsets that were found.  Every offset that arises is next to an ASCII character, and the count
of open brackets is positive wherever one closes.  So such a decoding is never stopped, whatever the
name, and its outcome is that of decoding by characters.
-/

namespace ThroughputCharts

/-- A reading of a part of a case name that may be stopped. -/
abbrev Reading := ExceptT NameFault Checked

/-- A reading that comes to its end, be it with a fault. -/
def Reading.ended {Result : Type} (reading : Except NameFault Result) : Reading Result :=
  ExceptT.mk (.ok reading)

theorem Reading.lift_ok_bind {First Result : Type} (value : First)
    (next : First → Reading Result) :
    (liftM (Except.ok value : Checked First) : Reading First) >>= next = next value := rfl

/-- The first mark stands behind the text that is split off in front of it. -/
theorem Text.head?_offsetsWhere_mark (mark : Char) (text : List Char) :
    (offsetsWhere (· == mark) 0 text).head? =
      (splitAtFirst? mark text).map fun (before, _) => byteCount before := by
  rw [head?_offsetsWhere]
  cases split : splitAtFirst? mark text with
  | none =>
      have absent := splitAtFirst?_eq_none_iff.mp split
      have noMark : text.any (· == mark) = false := by
        simpa using fun char member => ne_of_mem_of_not_mem member absent
      simp [noMark]
  | some parts =>
      obtain ⟨before, after⟩ := parts
      obtain ⟨rfl, absent⟩ := eq_of_splitAtFirst? split
      have allOther : ∀ char ∈ before, (!(char == mark)) = true := by
        intro char member
        simpa using ne_of_mem_of_not_mem member absent
      have isMark : (!(mark == mark)) = false := by simp
      simp [takeWhile_append_stop allOther isMark after]

namespace ListName

/-- The offset at which the outermost of the open brackets closes, in the bytes from an offset on. -/
def closeFrom (head : String) (offset depth : Nat) : List UInt8 → Checked (Option Nat)
  | [] => .ok none
  | byte :: rest =>
    if byte = '<'.toUInt8 then do
      let deeper ← Text.addWithin head depth 1
      closeFrom head (offset + 1) deeper rest
    else if byte = '>'.toUInt8 then do
      let shallower ← Checked.subtract depth 1
      if shallower = 0 then .ok (some offset) else closeFrom head (offset + 1) shallower rest
    else
      closeFrom head (offset + 1) depth rest

/-- The offset at which the bracket closes that opens at an offset. -/
def closingOffset (head : String) (opening : Nat) : Checked (Option Nat) := do
  closeFrom head opening 0 (← Text.bytesFrom head opening)

/-- The part of a template argument in front of its first bracket. -/
def argumentName (inner : String) : Checked String :=
  match (Text.offsetsWhere isBracket 0 inner.toList).head? with
  | none => .ok inner
  | some stop => Text.slice inner 0 stop

/-- The variant in the template argument between two brackets, behind which the head has to end. -/
def argumentAtOffsets (head : String) (opening closing : Nat) : Reading String := do
  let inner ← Text.slice head (← Text.addWithin head opening 1) closing
  let variant ← argumentName inner
  if variant.isEmpty then
    throw .missingTemplate
  let trailing ← Text.slice head (← Text.addWithin head closing 1) head.utf8ByteSize
  if !trailing.isEmpty then
    throw (.trailingText trailing)
  return variant

/-- The workload and the variant in the first segment of a name. -/
def headAtOffsets (head : String) : Reading (Workload × String) := do
  let some opening := (Text.offsetsWhere (· == '<') 0 head.toList).head? | throw .missingTemplate
  let front ← Text.slice head 0 opening
  let some (benchmark, tag) := Text.splitAtLast? '_' front.toList | throw .missingPrefix
  if benchmark.isEmpty then
    throw .missingPrefix
  let tag := String.ofList tag
  let some workload := Workload.ofTag? tag | throw (.unknownWorkload tag)
  let some closing ← closingOffset head opening | throw .missingTemplate
  let variant ← argumentAtOffsets head opening closing
  return (workload, variant)

def keyAtOffsets (segments : List String) : Reading Key := do
  if segments.length ≠ 3 then
    throw (.segmentCount (.exactly 3) segments.length)
  let (workload, variant) ← headAtOffsets (← Checked.segmentAt segments 0)
  let threads ← .ended (readCount .threads (← Checked.segmentAt segments 1).toList)
  let size ← .ended (readCount .problemSize (← Checked.segmentAt segments 2).toList)
  return { variant, workload := some workload, threads, size := .elements size }

section Depth

variable {head : String}

/-- Bytes that are not brackets leave the depth as it is. -/
theorem closeFrom_append {bytes rest : List UInt8} (offset depth : Nat)
    (plain : ∀ byte ∈ bytes, byte ≠ '<'.toUInt8 ∧ byte ≠ '>'.toUInt8) :
    closeFrom head offset depth (bytes ++ rest) =
      closeFrom head (offset + bytes.length) depth rest := by
  induction bytes generalizing offset with
  | nil => rfl
  | cons byte bytes induction =>
      rw [List.forall_mem_cons] at plain
      rw [List.cons_append, closeFrom, if_neg plain.1.1, if_neg plain.1.2, induction _ plain.2,
        List.length_cons, Nat.add_assoc, Nat.add_comm 1]

/-- While brackets are open, the depth is positive and no larger than what was read of the head. -/
theorem closeFrom_encoded (offset depth : Nat) (text : List Char)
    (fits : depth + 1 + Text.byteCount text ≤ head.utf8ByteSize) :
    closeFrom head offset (depth + 1) (Csv.encoded text) =
      .ok ((splitAtClose? depth text).map fun (inside, _) => offset + Text.byteCount inside) := by
  induction text generalizing offset depth with
  | nil => rfl
  | cons char rest induction =>
      rw [Text.byteCount_cons] at fits
      by_cases opens : char = '<'
      · subst opens
        rw [Text.utf8Size_opening] at fits
        have deeper : Text.addWithin head (depth + 1) 1 = .ok (depth + 1 + 1) :=
          if_pos (by omega)
        rw [Text.encoded_cons_of_ascii (by decide), closeFrom, if_pos rfl, deeper, Checked.ok_bind,
          induction _ _ (by omega)]
        simp [splitAtClose?, Nat.add_assoc, Function.comp_def]
      by_cases closes : char = '>'
      · subst closes
        rw [Text.utf8Size_closing] at fits
        have shallower : Checked.subtract (depth + 1) 1 = .ok depth := if_pos (by omega)
        rw [Text.encoded_cons_of_ascii (by decide), closeFrom, if_neg (by decide), if_pos rfl,
          shallower, Checked.ok_bind]
        cases depth with
        | zero => simp [splitAtClose?]
        | succ depth =>
            rw [if_neg (by omega), induction _ _ (by omega)]
            simp [splitAtClose?, Nat.add_assoc, Function.comp_def]
      have plain : ∀ byte ∈ String.utf8EncodeChar char,
          byte ≠ '<'.toUInt8 ∧ byte ≠ '>'.toUInt8 := fun byte member =>
        ⟨Text.ne_of_mem_utf8EncodeChar member opens (by decide),
          Text.ne_of_mem_utf8EncodeChar member closes (by decide)⟩
      rw [Csv.encoded_cons, closeFrom_append _ _ plain, induction _ _ (by omega)]
      simp [splitAtClose?, opens, closes, Nat.add_assoc, Function.comp_def]

end Depth

section Heads

variable {head front argument inside after : List Char}

/-- The search starts at a bracket that opens, so that no bracket closes before one is open. -/
theorem closingOffset_ofList (joined : head = front ++ '<' :: argument) :
    closingOffset (String.ofList head) (Text.byteCount front) =
      .ok ((splitAtClose? 0 argument).map fun (inside, _) =>
        Text.byteCount front + 1 + Text.byteCount inside) := by
  have size : Text.byteCount head = Text.byteCount front + (1 + Text.byteCount argument) := by
    simp [joined]
  have bytes := Text.bytesFrom_parts front joined rfl
  have deeper : Text.addWithin (String.ofList head) 0 1 = .ok 1 :=
    Text.addWithin_ofList (by omega)
  rw [closingOffset, bytes, Checked.ok_bind, Text.encoded_cons_of_ascii (by decide), closeFrom,
    if_pos rfl, deeper, Checked.ok_bind]
  refine closeFrom_encoded _ 0 argument ?_
  rw [Text.utf8ByteSize_ofList]
  omega

-- From a bracket that closes nothing, the search would be stopped.
example : closingOffset "é>" 2 = .error .belowZero := by decide

theorem argumentName_ofList (inner : List Char) :
    argumentName (String.ofList inner) =
      .ok (String.ofList (inner.takeWhile (!isBracket ·))) := by
  rw [argumentName, String.toList_ofList, Text.head?_offsetsWhere]
  split
  next noBracket =>
    have none : ∀ char ∈ inner, (!isBracket char) = true := by simpa using noBracket
    rw [List.takeWhile_eq_self_iff.mpr none]
  next stop found =>
    obtain ⟨-, rfl⟩ : inner.any isBracket = true ∧ 0 + _ = stop := by simpa using found
    exact Text.slice_parts [] _ List.takeWhile_append_dropWhile.symm rfl rfl

theorem argumentAtOffsets_ofList (joined : head = front ++ '<' :: (inside ++ '>' :: after)) :
    argumentAtOffsets (String.ofList head) (Text.byteCount front)
        (Text.byteCount front + 1 + Text.byteCount inside) =
      if (inside.takeWhile (!isBracket ·)).isEmpty then throw .missingTemplate
      else if !after.isEmpty then throw (.trailingText (String.ofList after))
      else pure (String.ofList (inside.takeWhile (!isBracket ·))) := by
  have size : Text.byteCount head =
      Text.byteCount front + 1 + Text.byteCount inside + 1 + Text.byteCount after := by
    simp [joined, Nat.add_assoc]
  have behindOpening : Text.addWithin (String.ofList head) (Text.byteCount front) 1 = .ok _ :=
    Text.addWithin_ofList (by omega)
  have behindClosing : Text.addWithin (String.ofList head)
      (Text.byteCount front + 1 + Text.byteCount inside) 1 = .ok _ :=
    Text.addWithin_ofList (by omega)
  have inner : Text.slice (String.ofList head) (Text.byteCount front + 1)
      (Text.byteCount front + 1 + Text.byteCount inside) = .ok (String.ofList inside) :=
    Text.slice_parts (front ++ ['<']) ('>' :: after) (by simp [joined]) (by simp) rfl
  have trailing : Text.slice (String.ofList head)
      (Text.byteCount front + 1 + Text.byteCount inside + 1)
      (String.ofList head).utf8ByteSize = .ok (String.ofList after) :=
    Text.slice_parts (front ++ '<' :: (inside ++ ['>'])) [] (by simp [joined]) (by simp; omega)
      (by rw [Text.utf8ByteSize_ofList, size])
  simp only [argumentAtOffsets, behindOpening, behindClosing, inner, trailing, argumentName_ofList,
    Reading.lift_ok_bind, Text.isEmpty_ofList]
  cases (inside.takeWhile (!isBracket ·)).isEmpty with
  | true => rfl
  | false => cases after.isEmpty <;> rfl

theorem headAtOffsets_ofList (head : List Char) :
    headAtOffsets (String.ofList head) = .ended (readHead head) := by
  rw [headAtOffsets, readHead, String.toList_ofList, Text.head?_offsetsWhere_mark]
  rcases found : Text.splitAtFirst? '<' head with _ | ⟨front, argument⟩
  · rfl
  obtain ⟨joined, -⟩ := Text.eq_of_splitAtFirst? found
  have inFront : Text.slice (String.ofList head) 0 (Text.byteCount front) =
      .ok (String.ofList front) :=
    Text.slice_parts [] _ joined rfl (Nat.zero_add _).symm
  simp only [Option.map_some, inFront, Reading.lift_ok_bind, String.toList_ofList,
    closingOffset_ofList joined]
  rcases Text.splitAtLast? '_' front with _ | ⟨benchmark, tag⟩
  · rfl
  dsimp only
  cases benchmark.isEmpty
  case true => rfl
  rcases Workload.ofTag? (String.ofList tag) with _ | workload
  · rfl
  rcases closed : splitAtClose? 0 argument with _ | ⟨inside, after⟩
  · rfl
  obtain ⟨rfl, -⟩ := eq_of_splitAtClose? closed
  simp only [Option.map_some, argumentAtOffsets_ofList joined]
  cases (inside.takeWhile (!isBracket ·)).isEmpty with
  | true => rfl
  | false => cases after.isEmpty <;> rfl

theorem keyAtOffsets_map (segments : List (List Char)) :
    keyAtOffsets (segments.map String.ofList) = .ended (readSegments segments) := by
  match segments with
  | [head, threads, size] =>
      have first : Checked.segmentAt ([head, threads, size].map String.ofList) 0 =
        .ok (String.ofList head) := rfl
      have second : Checked.segmentAt ([head, threads, size].map String.ofList) 1 =
        .ok (String.ofList threads) := rfl
      have third : Checked.segmentAt ([head, threads, size].map String.ofList) 2 =
        .ok (String.ofList size) := rfl
      simp only [keyAtOffsets, first, second, third, Reading.lift_ok_bind, headAtOffsets_ofList,
        readSegments, String.toList_ofList]
      cases readHead head with
      | error fault => rfl
      | ok named =>
          cases readCount .threads threads with
          | error fault => rfl
          | ok threads => cases readCount .problemSize size <;> rfl
  | [] | [_] | [_, _] => rfl
  | _ :: _ :: _ :: _ :: rest =>
      rw [keyAtOffsets, if_pos (by simp), List.length_map]
      rfl

end Heads

end ListName

namespace QueueName

def isWordByte (byte : UInt8) : Bool :=
  isWordChar (Char.ofUInt8 byte)

/-- The offsets around the identifier behind the bracket at an offset. -/
def identifierBehind (head : String) (opening : Nat) : Checked (Option (Nat × Nat)) := do
  let start ← Text.addWithin head opening 1
  let length := ((← Text.bytesFrom head start).takeWhile isWordByte).length
  if length = 0 then
    return none
  let first ← Text.byteAt head start
  if (Char.ofUInt8 first).isAlpha then
    return some (start, ← Text.addWithin head start length)
  else
    return none

/-- Scans a head for its variant behind the brackets at the given offsets; `standing` is the last
identifier seen alone between brackets. -/
def scanOffsets (head : String) (standing : Option String) : List Nat → Checked (Option String)
  | [] => .ok standing
  | opening :: later => do
    let some (start, stop) ← identifierBehind head opening | scanOffsets head standing later
    let next := (← Text.bytesFrom head stop).head?
    if next = some '<'.toUInt8 then
      return some (← Text.slice head start stop)
    else if next = some '>'.toUInt8 then
      scanOffsets head (some (← Text.slice head start stop)) later
    else
      scanOffsets head standing later

/-- The identifier that names the queue in a head. -/
def identifierAtOffsets (head : String) : Checked (Option String) :=
  scanOffsets head none (Text.offsetsWhere (· == '<') 0 head.toList)

def keyAtOffsets (segments : List String) : Reading Key := do
  if segments.length < 4 then
    throw (.segmentCount (.atLeast 4) segments.length)
  let last ← Checked.segmentAt segments (← Checked.subtract segments.length 1)
  if last ≠ realTime then
    throw .missingRealTime
  let place ← Checked.subtract segments.length 2
  let threads ← .ended (ListName.readCount .threads (← Checked.segmentAt segments place).toList)
  let middle ← Checked.segmentsBetween segments 1 place
  let some operations := middle.find? (Decimal.isDigits ·.toList) | throw .missingOperationCount
  let operations ← .ended (ListName.readCount .operations operations.toList)
  let some variant ← identifierAtOffsets (← Checked.segmentAt segments 0) | throw .missingVariant
  return {
    variant := normalizeVariant variant
    workload := none
    threads
    size := .operations operations }

section Scan

variable {head before rest : List Char}

theorem isAscii_of_isWordChar (char : Char) (inWord : isWordChar char = true) :
    char.toNat < 128 := by
  have upTo (last : Char) (small : last.toNat < 128) (inRange : char.val ≤ last.val) :
      char.toNat < 128 :=
    Nat.lt_of_le_of_lt (UInt32.le_iff_toNat_le.mp inRange) small
  rcases Bool.or_eq_true_iff.mp inWord with alphanumeric | isUnderscore
  · rcases Bool.or_eq_true_iff.mp alphanumeric with letter | digit
    · rcases Bool.or_eq_true_iff.mp letter with upper | lower
      · exact upTo 'Z' (by decide) (of_decide_eq_true upper).2
      · exact upTo 'z' (by decide) (of_decide_eq_true (Bool.and_eq_true_iff.mp lower).2)
    · exact upTo '9' (by decide) (of_decide_eq_true (Bool.and_eq_true_iff.mp digit).2)
  · rw [beq_iff_eq.mp isUnderscore]
    decide

theorem takeWhile_isWordByte (text : List Char) :
    (Csv.encoded text).takeWhile isWordByte = Csv.encoded (text.takeWhile isWordChar) :=
  Text.takeWhile_encoded isAscii_of_isWordChar text

/-- The word behind a bracket is an identifier when it starts with a letter. -/
theorem identifierBehind_ofList (joined : head = before ++ '<' :: rest) :
    identifierBehind (String.ofList head) (Text.byteCount before) =
      .ok (if startsWithLetter (rest.takeWhile isWordChar) then
        some (Text.byteCount before + 1,
          Text.byteCount before + 1 + Text.byteCount (rest.takeWhile isWordChar))
      else none) := by
  have parts : rest.takeWhile isWordChar ++ rest.dropWhile isWordChar = rest :=
    List.takeWhile_append_dropWhile
  have size : Text.byteCount head = Text.byteCount before + 1 +
      (Text.byteCount (rest.takeWhile isWordChar) +
        Text.byteCount (rest.dropWhile isWordChar)) := by
    rw [← Text.byteCount_append, parts, joined]
    simp [Nat.add_assoc]
  have start : Text.addWithin (String.ofList head) (Text.byteCount before) 1 = .ok _ :=
    Text.addWithin_ofList (by omega)
  have bytes : Text.bytesFrom (String.ofList head) (Text.byteCount before + 1) =
      .ok (Csv.encoded rest) :=
    Text.bytesFrom_parts (before ++ ['<']) (by simp [joined]) (by simp)
  have stop : Text.addWithin (String.ofList head) (Text.byteCount before + 1)
      (Text.byteCount (rest.takeWhile isWordChar)) = .ok _ :=
    Text.addWithin_ofList (by omega)
  simp only [identifierBehind, start, bytes, stop, Checked.ok_bind, takeWhile_isWordByte,
    Text.length_encoded]
  cases word : rest.takeWhile isWordChar with
  | nil => rfl
  | cons letter others =>
      obtain ⟨tail, rfl⟩ : ∃ tail, rest = letter :: tail := by
        rw [word, List.cons_append] at parts
        exact ⟨_, parts.symm⟩
      have inWord : isWordChar letter = true := List.mem_takeWhile_imp (word ▸ List.mem_cons_self)
      have ascii := isAscii_of_isWordChar letter inWord
      have first : Text.byteAt (String.ofList head) (Text.byteCount before + 1) =
          .ok letter.toUInt8 := by
        rw [Text.byteAt, bytes, Text.encoded_cons_of_ascii ascii]
        rfl
      have nonempty : Text.byteCount (letter :: others) ≠ 0 := by
        have := letter.utf8Size_pos
        rw [Text.byteCount_cons]
        omega
      simp only [nonempty, if_false, first, Checked.ok_bind, Text.ofUInt8_toUInt8 ascii,
        startsWithLetter]
      exact (apply_ite Except.ok _ _ _).symm

theorem scanOffsets_cons (standing : Option String) (later : List Nat)
    (joined : head = before ++ '<' :: rest) :
    scanOffsets (String.ofList head) standing (Text.byteCount before :: later) =
      if startsWithLetter (rest.takeWhile isWordChar) then
        if (rest.dropWhile isWordChar).head? = some '<' then
          .ok (some (String.ofList (rest.takeWhile isWordChar)))
        else if (rest.dropWhile isWordChar).head? = some '>' then
          scanOffsets (String.ofList head) (some (String.ofList (rest.takeWhile isWordChar))) later
        else
          scanOffsets (String.ofList head) standing later
      else
        scanOffsets (String.ofList head) standing later := by
  rw [scanOffsets, identifierBehind_ofList joined]
  cases startsWithLetter (rest.takeWhile isWordChar) with
  | false => rfl
  | true =>
      have parts : head = (before ++ ['<']) ++
          (rest.takeWhile isWordChar ++ rest.dropWhile isWordChar) := by
        rw [List.takeWhile_append_dropWhile, joined, List.append_assoc]
        rfl
      have word : Text.slice (String.ofList head) (Text.byteCount before + 1)
          (Text.byteCount before + 1 + Text.byteCount (rest.takeWhile isWordChar)) =
            .ok (String.ofList (rest.takeWhile isWordChar)) :=
        Text.slice_parts _ _ parts (by simp) rfl
      have behind : Text.bytesFrom (String.ofList head)
          (Text.byteCount before + 1 + Text.byteCount (rest.takeWhile isWordChar)) =
            .ok (Csv.encoded (rest.dropWhile isWordChar)) :=
        Text.bytesFrom_parts _ (parts.trans (List.append_assoc ..).symm) (by simp; omega)
      simp only [Checked.ok_bind, if_true, behind, word,
        Text.head?_encoded_eq_iff (show '<'.toNat < 128 by decide),
        Text.head?_encoded_eq_iff (show '>'.toNat < 128 by decide)]
      rfl

theorem scanVariant_opening (standing : Option (List Char)) (rest : List Char) :
    scanVariant standing ('<' :: rest) =
      if startsWithLetter (rest.takeWhile isWordChar) then
        if (rest.dropWhile isWordChar).head? = some '<' then
          some (rest.takeWhile isWordChar)
        else if (rest.dropWhile isWordChar).head? = some '>' then
          scanVariant (some (rest.takeWhile isWordChar)) rest
        else
          scanVariant standing rest
      else
        scanVariant standing rest := by
  rw [scanVariant, if_pos rfl]
  refine if_congr Iff.rfl ?_ rfl
  split
  next next => rw [next, if_pos rfl]
  next next => rw [next, if_neg (by decide), if_pos rfl]
  next notOpening notClosing => rw [if_neg notOpening, if_neg notClosing]

/-- The scan of the brackets behind a part of a head is the scan of what follows that part. -/
theorem scanOffsets_ofList (before : List Char) (standing : Option (List Char))
    (joined : head = before ++ rest) :
    scanOffsets (String.ofList head) (standing.map String.ofList)
        (Text.offsetsWhere (· == '<') (Text.byteCount before) rest) =
      .ok ((scanVariant standing rest).map String.ofList) := by
  induction rest generalizing before standing with
  | nil => rfl
  | cons char rest induction =>
      have later (standing : Option (List Char)) :
          scanOffsets (String.ofList head) (standing.map String.ofList)
              (Text.offsetsWhere (· == '<') (Text.byteCount before + char.utf8Size) rest) =
            .ok ((scanVariant standing rest).map String.ofList) := by
        have behindChar := induction (before ++ [char]) standing (by simp [joined])
        simpa using behindChar
      by_cases opens : char = '<'
      · subst opens
        rw [Text.offsetsWhere, if_pos (beq_self_eq_true _), scanOffsets_cons _ _ joined,
          scanVariant_opening]
        split
        case isFalse => exact later standing
        split
        case isTrue => rfl
        split
        case isTrue => exact later (some _)
        case isFalse => exact later standing
      · rw [Text.offsetsWhere, if_neg (by simpa using opens), scanVariant, if_neg opens]
        exact later standing

theorem identifierAtOffsets_eq (head : String) :
    identifierAtOffsets head =
      .ok ((templatedIdentifier head.toList).map String.ofList) := by
  have scanned := scanOffsets_ofList [] none (List.nil_append head.toList).symm
  rwa [String.ofList_toList] at scanned

end Scan

theorem keyAtOffsets_map (segments : List (List Char)) :
    keyAtOffsets (segments.map String.ofList) = .ended (readSegments segments) := by
  by_cases enough : 4 ≤ segments.length
  case neg =>
    rw [readSegments_of_length_lt (Nat.lt_of_not_le enough), keyAtOffsets, List.length_map,
      if_pos (Nat.lt_of_not_le enough)]
    rfl
  obtain ⟨head, middle, threads, last, nonempty, joined⟩ := exists_eq_of_four_le enough
  have count : segments.length = middle.length + 3 := by simp [joined]
  have lastPlace : Checked.subtract segments.length 1 = .ok (middle.length + 2) := by
    rw [count, Checked.subtract, if_pos (by omega)]
    rfl
  have threadsPlace : Checked.subtract segments.length 2 = .ok (middle.length + 1) := by
    rw [count, Checked.subtract, if_pos (by omega)]
    rfl
  have headSegment : Checked.segmentAt (segments.map String.ofList) 0 = .ok (String.ofList head) :=
    Checked.segmentAt_map (by simp [joined])
  have lastSegment : Checked.segmentAt (segments.map String.ofList) (middle.length + 2) =
      .ok (String.ofList last) :=
    Checked.segmentAt_map (by simp [joined])
  have threadsSegment : Checked.segmentAt (segments.map String.ofList) (middle.length + 1) =
      .ok (String.ofList threads) :=
    Checked.segmentAt_map (by simp [joined])
  have between : Checked.segmentsBetween (segments.map String.ofList) 1 (middle.length + 1) =
      .ok (middle.map String.ofList) := by
    simp [Checked.segmentsBetween, joined]
  have reads := congrArg readSegments joined
  rw [readSegments_eq nonempty] at reads
  rw [reads, keyAtOffsets, List.length_map, if_neg (Nat.not_lt.mpr enough)]
  simp only [lastPlace, threadsPlace, headSegment, lastSegment, threadsSegment, between,
    Reading.lift_ok_bind, identifierAtOffsets_eq, String.toList_ofList, List.find?_map,
    Function.comp_def]
  split
  case isTrue => rfl
  cases ListName.readCount .threads threads
  case error => rfl
  rcases middle.find? Decimal.isDigits with _ | operations
  · rfl
  simp only [Option.map_some, String.toList_ofList]
  cases ListName.readCount .operations operations
  case error => rfl
  cases templatedIdentifier head <;> rfl

end QueueName

namespace Family

def keyAtOffsets : Family → List String → Reading Key
  | .list => ListName.keyAtOffsets
  | .queue => QueueName.keyAtOffsets

/-- Decodes a case name in place. -/
def decodeAtOffsets (family : Family) (name : String) : Checked (Except NameError Key) := do
  let reading ← (family.keyAtOffsets ((Text.pieces '/' name.toList).map String.ofList)).run
  return reading.mapError (NameError.mk name)

/-- Decoding in place is never stopped: every index and every bound is in range and on the boundary
of a character, and no count falls below zero or grows beyond the size of its text.  So it is for the
search for a closing bracket from any bracket that opens, and for the scan of any text for its
variant.  All of them find what decoding by characters finds. -/
theorem decodeAtOffsets_never_traps :
    (∀ (family : Family) (name : String),
      family.decodeAtOffsets name = .ok (family.decode name)) ∧
    (∀ front argument : List Char,
      ListName.closingOffset (String.ofList (front ++ '<' :: argument)) (Text.byteCount front) =
        .ok ((ListName.splitAtClose? 0 argument).map fun (inside, _) =>
          Text.byteCount front + 1 + Text.byteCount inside)) ∧
    ∀ text : String, QueueName.identifierAtOffsets text =
      .ok ((QueueName.templatedIdentifier text.toList).map String.ofList) := by
  refine ⟨fun family name => ?_, fun front argument => ListName.closingOffset_ofList rfl,
    QueueName.identifierAtOffsets_eq⟩
  cases family with
  | list =>
      rw [decodeAtOffsets, keyAtOffsets, ListName.keyAtOffsets_map]
      rfl
  | queue =>
      rw [decodeAtOffsets, keyAtOffsets, QueueName.keyAtOffsets_map]
      rfl

end Family

end ThroughputCharts
