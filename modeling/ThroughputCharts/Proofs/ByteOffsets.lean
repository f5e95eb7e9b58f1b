import Mathlib.Data.List.TakeWhile
import ThroughputCharts.Proofs.CsvReading
import ThroughputCharts.Proofs.NamePieces
import ThroughputCharts.Proofs.Results

/-!
# Byte offsets

Offsets count the bytes of a text in UTF-8, so a text cannot be cut at each of them.  Every operation
here checks its operands, and a computation made of such operations is stopped where a check fails.
The offset behind a part of a text passes all checks, whatever characters the part has, and an ASCII
byte is never a piece of another character.
-/

namespace ThroughputCharts

/-- What stops a computation with offsets. -/
inductive Trap
  | pastEnd
  | insideCharacter
  | crossedBounds
  | sumTooLarge
  | belowZero
  deriving DecidableEq

/-- A computation that may be stopped. -/
abbrev Checked := Except Trap

namespace Checked

/-- The difference of two numbers, which may not be negative. -/
def subtract (number amount : Nat) : Checked Nat :=
  if amount ≤ number then .ok (number - amount) else .error .belowZero

/-- The segment at an index. -/
def segmentAt (segments : List String) (index : Nat) : Checked String :=
  match segments[index]? with
  | some segment => .ok segment
  | none => .error .pastEnd

/-- The segments from one index up to another. -/
def segmentsBetween (segments : List String) (start stop : Nat) : Checked (List String) :=
  if stop < start then
    .error .crossedBounds
  else if segments.length < stop then
    .error .pastEnd
  else
    .ok ((segments.take stop).drop start)

theorem ok_bind {First Result : Type} (value : First) (next : First → Checked Result) :
    (Except.ok value : Checked First) >>= next = next value := rfl

theorem segmentAt_map {segments : List (List Char)} {index : Nat} {segment : List Char}
    (found : segments[index]? = some segment) :
    segmentAt (segments.map String.ofList) index = .ok (String.ofList segment) := by
  rw [segmentAt, List.getElem?_map, found]
  rfl

end Checked

namespace Text

/-- The sum of two numbers that count bytes of a text.  It may not be larger than the text, whose size
is itself a machine number. -/
def addWithin (text : String) (first second : Nat) : Checked Nat :=
  if first + second ≤ text.utf8ByteSize then .ok (first + second) else .error .sumTooLarge

/-- The position at an offset, which has to be on the boundary of a character. -/
def position (text : String) (offset : Nat) : Checked text.Pos :=
  if valid : (String.Pos.Raw.mk offset).IsValid text then
    .ok ⟨⟨offset⟩, valid⟩
  else if offset ≤ text.utf8ByteSize then
    .error .insideCharacter
  else
    .error .pastEnd

/-- The part of a text from one offset up to another. -/
def slice (text : String) (start stop : Nat) : Checked String := do
  let first ← position text start
  let last ← position text stop
  if first ≤ last then .ok (text.extract first last) else .error .crossedBounds

/-- The bytes of a text from an offset on. -/
def bytesFrom (text : String) (offset : Nat) : Checked (List UInt8) := do
  let first ← position text offset
  return toUtf8 (text.extract first text.endPos)

/-- The byte of a text at an offset. -/
def byteAt (text : String) (offset : Nat) : Checked UInt8 := do
  match ← bytesFrom text offset with
  | [] => .error .pastEnd
  | byte :: _ => .ok byte

/-- The offsets of the characters with a property, in a text that begins at an offset. -/
def offsetsWhere (wanted : Char → Bool) (start : Nat) : List Char → List Nat
  | [] => []
  | char :: rest =>
    let later := offsetsWhere wanted (start + char.utf8Size) rest
    if wanted char then start :: later else later

/-- The number of bytes of a text. -/
def byteCount (text : List Char) : Nat :=
  (Csv.encoded text).length

section Sizes

variable {char : Char} {text first second : List Char}

theorem length_encoded : (Csv.encoded text).length = byteCount text := rfl

@[simp]
theorem byteCount_nil : byteCount [] = 0 := rfl

@[simp]
theorem byteCount_cons : byteCount (char :: text) = char.utf8Size + byteCount text := by
  simp [byteCount]

@[simp]
theorem byteCount_append : byteCount (first ++ second) = byteCount first + byteCount second := by
  simp [byteCount]

@[simp]
theorem utf8Size_opening : '<'.utf8Size = 1 := rfl

@[simp]
theorem utf8Size_closing : '>'.utf8Size = 1 := rfl

@[simp]
theorem utf8ByteSize_ofList : (String.ofList text).utf8ByteSize = byteCount text := by
  rw [byteCount, ← Csv.toUtf8_ofList, toUtf8, Array.length_toList]
  exact String.size_toByteArray.symm

theorem size_toByteArray_ofList : (String.ofList text).toByteArray.size = byteCount text := by
  rw [String.size_toByteArray, utf8ByteSize_ofList]

theorem isEmpty_ofList : (String.ofList text).isEmpty = text.isEmpty := by
  cases text <;> simp

end Sizes

section Cuts

variable {text part : String} {bytes : List UInt8} {start stop offset : Nat}

theorem position_eq_ok_iff {place : text.Pos} :
    position text offset = .ok place ↔ place.offset.byteIdx = offset := by
  rw [position]
  split
  next valid =>
    constructor
    · rintro ⟨⟩
      rfl
    · rintro rfl
      rfl
  next invalid =>
    constructor
    · intro isOk
      split at isOk <;> cases isOk
    · rintro rfl
      exact absurd place.isValid invalid

/-- A part is cut out just where both offsets are positions, in order. -/
theorem slice_eq_ok_iff :
    slice text start stop = .ok part ↔
      ∃ first last : text.Pos, first.offset.byteIdx = start ∧ last.offset.byteIdx = stop ∧
        first ≤ last ∧ text.extract first last = part := by
  simp only [slice, bind_eq_ok_iff, position_eq_ok_iff]
  constructor
  · rintro ⟨first, isStart, last, isStop, taken⟩
    split at taken
    next inOrder => exact ⟨first, last, isStart, isStop, inOrder, Except.ok.inj taken⟩
    next => cases taken
  · rintro ⟨first, last, isStart, isStop, inOrder, rfl⟩
    exact ⟨first, isStart, last, isStop, if_pos inOrder⟩

example : slice "é>" 0 1 = .error .insideCharacter := by decide

theorem bytesFrom_eq_ok_iff :
    bytesFrom text offset = .ok bytes ↔
      ∃ first : text.Pos, first.offset.byteIdx = offset ∧
        toUtf8 (text.extract first text.endPos) = bytes := by
  simp only [bytesFrom, bind_eq_ok_iff, position_eq_ok_iff, pure, Except.pure, Except.ok.injEq]

end Cuts

section Parts

variable {text part : List Char} {first second start stop offset : Nat}

theorem isValid_byteCount (before after : List Char) :
    (String.Pos.Raw.mk (byteCount before)).IsValid (String.ofList (before ++ after)) :=
  String.Pos.Raw.isValid_iff_exists_append.mpr
    ⟨String.ofList before, String.ofList after, String.ofList_append, by simp [String.rawEndPos]⟩

theorem slice_parts (before after : List Char) (joined : text = before ++ (part ++ after))
    (isStart : start = byteCount before) (isStop : stop = start + byteCount part) :
    slice (String.ofList text) start stop = .ok (String.ofList part) := by
  subst joined isStart isStop
  have startValid := isValid_byteCount before (part ++ after)
  have stopValid := isValid_byteCount (before ++ part) after
  rw [List.append_assoc, byteCount_append] at stopValid
  refine slice_eq_ok_iff.mpr
    ⟨⟨_, startValid⟩, ⟨_, stopValid⟩, rfl, rfl, Nat.le_add_right .., ?_⟩
  have behind := ByteArray.extract_append_size_add (i := 0) (j := byteCount part)
    (a := (String.ofList before).toByteArray)
    (b := (String.ofList part).toByteArray ++ (String.ofList after).toByteArray)
  rw [Nat.add_zero, size_toByteArray_ofList] at behind
  apply String.toByteArray_inj.mp
  simp only [String.toByteArray_extract, String.ofList_append, String.toByteArray_append]
  rw [behind, ByteArray.extract_append_eq_left size_toByteArray_ofList.symm]

theorem bytesFrom_parts (before : List Char) {after : List Char} (joined : text = before ++ after)
    (isOffset : offset = byteCount before) :
    bytesFrom (String.ofList text) offset = .ok (Csv.encoded after) := by
  subst joined isOffset
  refine bytesFrom_eq_ok_iff.mpr ⟨⟨_, isValid_byteCount before after⟩, rfl, ?_⟩
  rw [← Csv.toUtf8_ofList]
  congr 1
  apply String.toByteArray_inj.mp
  simp only [String.toByteArray_extract, String.ofList_append, String.toByteArray_append]
  refine ByteArray.extract_append_eq_right size_toByteArray_ofList.symm ?_
  rw [size_toByteArray_ofList, size_toByteArray_ofList, ← byteCount_append, ← utf8ByteSize_ofList]
  rfl

theorem addWithin_ofList (fits : first + second ≤ byteCount text) :
    addWithin (String.ofList text) first second = .ok (first + second) := by
  rw [addWithin, utf8ByteSize_ofList, if_pos fits]

end Parts

section Search

variable {wanted : Char → Bool}

/-- The first character with a property stands behind all those in front that lack it. -/
theorem head?_offsetsWhere (start : Nat) (text : List Char) :
    (offsetsWhere wanted start text).head? =
      if text.any wanted then some (start + byteCount (text.takeWhile (!wanted ·))) else none := by
  induction text generalizing start with
  | nil => rfl
  | cons char rest induction =>
      cases isWanted : wanted char with
      | true => simp [offsetsWhere, isWanted]
      | false => simp [offsetsWhere, isWanted, induction, Nat.add_assoc]

end Search

section Bytes

variable {char mark : Char} {byte : UInt8} {inside : Char → Bool}

theorem toNat_ofUInt8 (byte : UInt8) : (Char.ofUInt8 byte).toNat = byte.toNat := rfl

theorem toNat_toUInt8 (ascii : mark.toNat < 128) : mark.toUInt8.toNat = mark.toNat :=
  Nat.mod_eq_of_lt (Nat.lt_trans ascii (by decide))

theorem ofUInt8_toUInt8 (ascii : mark.toNat < 128) : Char.ofUInt8 mark.toUInt8 = mark := by
  rw [← Char.toNat_inj, toNat_ofUInt8, toNat_toUInt8 ascii]

/-- An ASCII byte of a character is the whole character. -/
theorem ofUInt8_eq_of_mem (member : byte ∈ String.utf8EncodeChar char)
    (ascii : byte.toNat < 128) : Char.ofUInt8 byte = char := by
  rw [← Char.toNat_inj, toNat_ofUInt8]
  exact Csv.toNat_eq_of_mem_utf8EncodeChar member ascii

theorem ne_of_mem_utf8EncodeChar (member : byte ∈ String.utf8EncodeChar char) (other : char ≠ mark)
    (ascii : mark.toNat < 128) : byte ≠ mark.toUInt8 := by
  rintro rfl
  apply other
  rw [← ofUInt8_eq_of_mem member (by rwa [toNat_toUInt8 ascii]), ofUInt8_toUInt8 ascii]

theorem encoded_cons_of_ascii (ascii : char.toNat < 128) (rest : List Char) :
    Csv.encoded (char :: rest) = char.toUInt8 :: Csv.encoded rest := by
  rw [Csv.encoded_cons, Csv.utf8EncodeChar_of_ascii ascii]
  rfl

/-- The bytes of a text begin with one of its first character. -/
theorem exists_encoded_cons (char : Char) (rest : List Char) :
    ∃ byte bytes, Csv.encoded (char :: rest) = byte :: bytes ∧
      byte ∈ String.utf8EncodeChar char := by
  rw [Csv.encoded_cons]
  cases encodes : String.utf8EncodeChar char with
  | nil => exact absurd encodes String.utf8EncodeChar_ne_nil
  | cons byte bytes => exact ⟨byte, _, rfl, List.mem_cons_self⟩

theorem head?_encoded_eq_iff (ascii : mark.toNat < 128) (text : List Char) :
    (Csv.encoded text).head? = some mark.toUInt8 ↔ text.head? = some mark := by
  cases text with
  | nil => simp
  | cons char rest =>
      by_cases isMark : char = mark
      · subst isMark
        simp [encoded_cons_of_ascii ascii]
      · obtain ⟨byte, bytes, encodes, member⟩ := exists_encoded_cons char rest
        have otherByte := ne_of_mem_utf8EncodeChar member isMark ascii
        simp [encodes, isMark, otherByte]

/-- A run of ASCII characters of a kind is the run of bytes of that kind. -/
theorem takeWhile_encoded (ascii : ∀ char, inside char = true → char.toNat < 128)
    (text : List Char) :
    (Csv.encoded text).takeWhile (fun byte => inside (Char.ofUInt8 byte)) =
      Csv.encoded (text.takeWhile inside) := by
  induction text with
  | nil => rfl
  | cons char rest induction =>
      cases isInside : inside char with
      | true =>
          have small := ascii char isInside
          simp [encoded_cons_of_ascii small, ofUInt8_toUInt8 small, isInside, induction]
      | false =>
          obtain ⟨byte, bytes, encodes, member⟩ := exists_encoded_cons char rest
          have outside : inside (Char.ofUInt8 byte) = false := by
            rw [Bool.eq_false_iff]
            intro byteInside
            rw [ofUInt8_eq_of_mem member (ascii _ byteInside), isInside] at byteInside
            contradiction
          simp [encodes, outside, isInside]

end Bytes

end Text
end ThroughputCharts
