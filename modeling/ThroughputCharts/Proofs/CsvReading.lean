import Mathlib.Data.List.Forall2
import ThroughputCharts.Csv.Row
import ThroughputCharts.Csv.Text
import ThroughputCharts.Proofs.Utf8Order

/-!
# Reading written rows

A field is written bare or in quotes, and either way the reader ends up with the bytes of the field.
So a row of written fields gives the fields back, and a written table gives back its rows.
-/

namespace ThroughputCharts
namespace Csv

/-- The bytes of a text. -/
def encoded (text : List Char) : List UInt8 :=
  text.flatMap String.utf8EncodeChar

theorem toUtf8_ofList (text : List Char) : Text.toUtf8 (String.ofList text) = encoded text := by
  rw [Text.toUtf8_eq_flatMap, String.toList_ofList, encoded]

@[simp]
theorem encoded_nil : encoded [] = [] := rfl

@[simp]
theorem encoded_cons (char : Char) (text : List Char) :
    encoded (char :: text) = String.utf8EncodeChar char ++ encoded text := rfl

@[simp]
theorem encoded_append (first second : List Char) :
    encoded (first ++ second) = encoded first ++ encoded second := by
  simp [encoded]

section Bytes

variable {char : Char} {byte : UInt8}

theorem utf8EncodeChar_of_ascii (ascii : char.toNat < 128) :
    String.utf8EncodeChar char = [UInt8.ofNat char.toNat] := by
  have small : char.val.toNat ≤ 127 := Nat.le_of_lt_succ ascii
  simp only [String.utf8EncodeChar, if_pos small]
  rfl

/-- The bytes of a character that is not ASCII are not ASCII either. -/
theorem le_toNat_of_mem_utf8EncodeChar (notAscii : 128 ≤ char.toNat)
    (member : byte ∈ String.utf8EncodeChar char) : 128 ≤ byte.toNat := by
  have large : ¬ char.val.toNat ≤ 127 := Nat.not_le.mpr notAscii
  simp only [String.utf8EncodeChar, if_neg large] at member
  split at member
  · simp only [List.mem_cons, List.not_mem_nil, or_false] at member
    rcases member with rfl | rfl <;> rw [UInt8.toNat_ofNat'] <;> omega
  split at member
  · simp only [List.mem_cons, List.not_mem_nil, or_false] at member
    rcases member with rfl | rfl | rfl <;> rw [UInt8.toNat_ofNat'] <;> omega
  · simp only [List.mem_cons, List.not_mem_nil, or_false] at member
    rcases member with rfl | rfl | rfl | rfl <;> rw [UInt8.toNat_ofNat'] <;> omega

/-- An ASCII byte only ever stands for its own character. -/
theorem toNat_eq_of_mem_utf8EncodeChar (member : byte ∈ String.utf8EncodeChar char)
    (ascii : byte.toNat < 128) : byte.toNat = char.toNat := by
  by_cases small : char.toNat < 128
  · rw [utf8EncodeChar_of_ascii small, List.mem_singleton] at member
    rw [member, UInt8.toNat_ofNat']
    omega
  · have := le_toNat_of_mem_utf8EncodeChar (Nat.not_lt.mp small) member
    omega

/-- Whether a byte has a meaning of its own between fields. -/
def isSpecialByte (byte : UInt8) : Bool :=
  byte == comma || byte == quote || isRowEnd byte

theorem isSpecialByte_iff :
    isSpecialByte byte = true ↔
      byte = comma ∨ byte = quote ∨ byte = lineFeed ∨ byte = carriageReturn := by
  simp only [isSpecialByte, isRowEnd, Bool.or_eq_true, beq_iff_eq, or_assoc]

theorem isSpecialByte_of_mem_utf8EncodeChar (plain : isSpecial char = false)
    (member : byte ∈ String.utf8EncodeChar char) : isSpecialByte byte = false := by
  simp only [isSpecial, Bool.or_eq_false_iff, beq_eq_false_iff_ne] at plain
  obtain ⟨⟨⟨notComma, notQuote⟩, notFeed⟩, notReturn⟩ := plain
  -- A special byte in the character would make it the special character itself.
  have differs {mark : Char} (ascii : mark.toNat < 128) (other : char ≠ mark) :
      byte ≠ UInt8.ofNat mark.toNat := by
    intro isMark
    have markValue : byte.toNat = mark.toNat := by
      rw [isMark, UInt8.toNat_ofNat']
      omega
    have charValue := toNat_eq_of_mem_utf8EncodeChar member (by omega)
    apply other
    rw [← Char.toNat_inj, ← charValue, markValue]
  rw [Bool.eq_false_iff, Ne, isSpecialByte_iff]
  rintro (isComma | isQuote | isFeed | isReturn)
  · exact differs (by decide) notComma isComma
  · exact differs (by decide) notQuote isQuote
  · exact differs (by decide) notFeed isFeed
  · exact differs (by decide) notReturn isReturn

theorem isSpecialByte_of_mem_encoded {text : List Char} (plain : text.any isSpecial = false)
    (member : byte ∈ encoded text) : isSpecialByte byte = false := by
  obtain ⟨char, inText, inChar⟩ := List.mem_flatMap.mp member
  rw [List.any_eq_false] at plain
  exact isSpecialByte_of_mem_utf8EncodeChar (by simpa using plain char inText) inChar

theorem ne_quote_of_mem_utf8EncodeChar (notQuote : char ≠ '\x22')
    (member : byte ∈ String.utf8EncodeChar char) : byte ≠ quote := by
  rintro rfl
  have value := toNat_eq_of_mem_utf8EncodeChar member (by decide)
  apply notQuote
  rw [← Char.toNat_inj, ← value]
  rfl

end Bytes

namespace ReadState

/-- The state after bytes of the current field were read, which may be fewer than were consumed. -/
def extend (state : ReadState) (mode : Mode) (count : Nat) (content : List UInt8) : ReadState :=
  { state with mode, consumed := state.consumed + count, field := content.reverse ++ state.field }

/-- Whether the next byte begins a field. -/
def AtField (state : ReadState) : Prop :=
  (state.mode = .between ∨ state.mode = .fieldStart) ∧ state.field = []

section Fields

variable {state : ReadState} {bytes : List UInt8}

theorem extend_extend (first second : Mode) (before after : Nat) (content more : List UInt8) :
    (state.extend first before content).extend second after more =
      state.extend second (before + after) (content ++ more) := by
  simp [extend, Nat.add_assoc]

theorem step_bare {byte : UInt8} (isBare : state.mode = .bare) (plain : isSpecialByte byte = false) :
    state.step byte = state.extend .bare 1 [byte] := by
  simp only [isSpecialByte, Bool.or_eq_false_iff] at plain
  simp [step, isBare, readBare, plain, push, extend]

theorem step_atField {byte : UInt8} (atField : state.AtField)
    (plain : isSpecialByte byte = false) : state.step byte = state.extend .bare 1 [byte] := by
  simp only [isSpecialByte, Bool.or_eq_false_iff] at plain
  obtain ⟨isBetween | isStart, -⟩ := atField
  · simp [step, isBetween, readFieldStart, readBare, plain, push, extend]
  · simp [step, isStart, readFieldStart, readBare, plain, push, extend]

theorem foldl_step_bare (isBare : state.mode = .bare)
    (plain : ∀ byte ∈ bytes, isSpecialByte byte = false) :
    bytes.foldl step state = state.extend .bare bytes.length bytes := by
  induction bytes generalizing state with
  | nil => simp [extend, ← isBare]
  | cons byte bytes induction =>
      rw [List.forall_mem_cons] at plain
      rw [List.foldl_cons, step_bare isBare plain.1, induction rfl plain.2, extend_extend,
        List.length_cons, Nat.add_comm, List.singleton_append]

/-- A bare field that is not empty. -/
theorem foldl_step_plain (atField : state.AtField) (nonempty : bytes ≠ [])
    (plain : ∀ byte ∈ bytes, isSpecialByte byte = false) :
    bytes.foldl step state = state.extend .bare bytes.length bytes := by
  obtain ⟨byte, bytes, rfl⟩ := List.exists_cons_of_ne_nil nonempty
  rw [List.forall_mem_cons] at plain
  rw [List.foldl_cons, step_atField atField plain.1, foldl_step_bare rfl plain.2, extend_extend,
    List.length_cons, Nat.add_comm, List.singleton_append]

theorem foldl_step_quoted (isQuoted : state.mode = .quoted) (noQuote : ∀ byte ∈ bytes, byte ≠ quote) :
    bytes.foldl step state = state.extend .quoted bytes.length bytes := by
  induction bytes generalizing state with
  | nil => simp [extend, ← isQuoted]
  | cons byte bytes induction =>
      rw [List.forall_mem_cons] at noQuote
      have pushed : state.step byte = state.extend .quoted 1 [byte] := by
        simp [step, isQuoted, noQuote.1, push, extend]
      rw [List.foldl_cons, pushed, induction rfl noQuote.2, extend_extend, List.length_cons,
        Nat.add_comm, List.singleton_append]

/-- A text with every quote in it written twice. -/
def doubled (text : List Char) : List Char :=
  text.flatMap fun char => if char = '\x22' then [char, char] else [char]

theorem encoded_quote : String.utf8EncodeChar '\x22' = [quote] := rfl

theorem foldl_step_doubled (isQuoted : state.mode = .quoted) (text : List Char) :
    (encoded (doubled text)).foldl step state =
      state.extend .quoted (encoded (doubled text)).length (encoded text) := by
  induction text generalizing state with
  | nil => simp [doubled, extend, ← isQuoted]
  | cons char text induction =>
      have pushed : (encoded (if char = '\x22' then [char, char] else [char])).foldl step state =
          state.extend .quoted (encoded (if char = '\x22' then [char, char] else [char])).length
            (String.utf8EncodeChar char) := by
        split
        next isQuote =>
          -- The first quote is seen, and the second one makes it part of the field.
          simp [isQuote, encoded_quote, step, isQuoted, push, extend]
        next notQuote =>
          have read := foldl_step_quoted isQuoted fun byte member =>
            ne_quote_of_mem_utf8EncodeChar notQuote member
          simpa using read
      have split : doubled (char :: text) =
          (if char = '\x22' then [char, char] else [char]) ++ doubled text := rfl
      rw [split, encoded_append, List.foldl_append, pushed, induction rfl, extend_extend,
        List.length_append, encoded_cons]

theorem quoteField_eq (text : List Char) :
    quoteField text = '\x22' :: (doubled text ++ ['\x22']) := rfl

theorem foldl_step_quoteField (atField : state.AtField) (text : List Char) :
    (encoded (quoteField text)).foldl step state =
      state.extend .quoteSeen (encoded (quoteField text)).length (encoded text) := by
  have opened : state.step quote = state.extend .quoted 1 [] := by
    obtain ⟨isBetween | isStart, -⟩ := atField
    · simp [step, isBetween, readFieldStart, extend, isRowEnd, quote, lineFeed, carriageReturn]
    · simp [step, isStart, readFieldStart, extend]
  have closed (inside : ReadState) (isQuoted : inside.mode = .quoted) :
      inside.step quote = inside.extend .quoteSeen 1 [] := by
    simp [step, isQuoted, extend]
  rw [quoteField_eq, encoded_cons, encoded_append, encoded_quote, List.singleton_append,
    List.foldl_cons, List.foldl_append, opened, foldl_step_doubled rfl, extend_extend,
    encoded_cons, encoded_nil, encoded_quote, List.append_nil, List.foldl_cons, List.foldl_nil,
    closed _ rfl, extend_extend, List.length_cons, List.length_append, List.length_singleton,
    List.nil_append, List.append_nil, Nat.add_comm 1]

end Fields

end ReadState

/-- A field is written in quotes, or bare when no character in it is special. -/
inductive WritesField (field : List Char) : List Char → Prop
  | quoted : WritesField field (quoteField field)
  | bare (plain : field.any isSpecial = false) : WritesField field field

theorem writesField_fieldText (field : List Char) : WritesField field (fieldText field) := by
  unfold fieldText
  split
  · exact .quoted
  · exact .bare (by simp_all)

namespace ReadState

section Rows

variable {state : ReadState}

/-- A written field is read into the current field; only an empty bare one leaves no mark. -/
theorem foldl_step_field (atField : state.AtField) {field text : List Char}
    (written : WritesField field text) :
    ∃ mode, (encoded text).foldl step state =
        state.extend mode (encoded text).length (encoded field) ∧
      (mode = .bare ∨ mode = .quoteSeen ∨ mode = state.mode ∧ text = []) := by
  cases written with
  | quoted => exact ⟨.quoteSeen, foldl_step_quoteField atField field, .inr (.inl rfl)⟩
  | bare plain =>
      by_cases isEmpty : field = []
      · subst isEmpty
        exact ⟨state.mode, by simp [extend], .inr (.inr ⟨rfl, rfl⟩)⟩
      · have nonempty : encoded field ≠ [] := by
          obtain ⟨char, field, rfl⟩ := List.exists_cons_of_ne_nil isEmpty
          simp [String.utf8EncodeChar_ne_nil]
        exact ⟨.bare, foldl_step_plain atField nonempty fun byte member =>
          isSpecialByte_of_mem_encoded plain member, .inl rfl⟩

theorem step_comma (notQuoted : state.mode ≠ .quoted) :
    state.step comma = endField { state with consumed := state.consumed + 1 } := by
  cases mode : state.mode with
  | quoted => exact absurd mode notQuoted
  | between => simp [step, mode, readFieldStart, readBare, isRowEnd, comma, quote, lineFeed,
      carriageReturn]
  | fieldStart => simp [step, mode, readFieldStart, readBare, comma, quote]
  | bare => simp [step, mode, readBare]
  | quoteSeen => simp [step, mode, readBare, comma, quote]

theorem step_rowEnd {byte : UInt8} (ends : isRowEnd byte = true) (notQuoted : state.mode ≠ .quoted)
    (notBetween : state.mode ≠ .between) :
    state.step byte = endRow { state with consumed := state.consumed + 1 } := by
  have notComma : byte ≠ comma := by
    rintro rfl
    exact absurd ends (by decide)
  have notQuote : byte ≠ quote := by
    rintro rfl
    exact absurd ends (by decide)
  cases mode : state.mode with
  | quoted => exact absurd mode notQuoted
  | between => exact absurd mode notBetween
  | fieldStart => simp [step, mode, readFieldStart, readBare, ends, notComma, notQuote]
  | bare => simp [step, mode, readBare, ends, notComma]
  | quoteSeen => simp [step, mode, readBare, ends, notComma, notQuote]

/-- Written fields with commas between them and a row end behind them are a row.  The one row that
would be a blank line is a single empty field, and it has to be quoted. -/
theorem foldl_step_row {fields texts : List (List Char)} {byte : UInt8} (ends : isRowEnd byte = true)
    (atField : state.AtField) (written : List.Forall₂ WritesField fields texts)
    (nonempty : texts ≠ []) (notBlank : state.mode = .between → texts ≠ [[]]) :
    ((encoded ([','].intercalate texts)) ++ [byte]).foldl step state =
      let consumed := state.consumed + (encoded ([','].intercalate texts)).length + 1
      { mode := .between, consumed, offset := consumed, field := [], fields := []
        rows := ⟨state.offset, state.fields.reverse ++ fields.map encoded⟩ :: state.rows } := by
  induction written generalizing state with
  | nil => exact absurd rfl nonempty
  | @cons field text fields texts first rest induction =>
      obtain ⟨mode, read, isMode⟩ := foldl_step_field atField first
      have notQuoted : mode ≠ .quoted := by
        rcases isMode with rfl | rfl | ⟨rfl, -⟩
        · decide
        · decide
        · rcases atField.1 with isBetween | isStart
          · rw [isBetween]
            decide
          · rw [isStart]
            decide
      cases rest with
      | nil =>
          have notBetween : mode ≠ .between := by
            rcases isMode with rfl | rfl | ⟨rfl, rfl⟩
            · decide
            · decide
            · intro isBetween
              exact notBlank isBetween rfl
          rw [List.intercalate_singleton, List.foldl_append, read, List.foldl_cons,
            List.foldl_nil, step_rowEnd ends notQuoted notBetween]
          simp [endRow, extend, atField.2]
      | cons =>
          have commaByte : encoded [','] = [comma] := rfl
          have next (before : ReadState) : before.endField.AtField := ⟨.inr rfl, rfl⟩
          have notBetween (before : ReadState) : before.endField.mode ≠ .between := nofun
          rw [List.intercalate_cons_cons, encoded_append, encoded_append, commaByte,
            List.append_assoc, List.append_assoc, List.foldl_append, read, List.singleton_append,
            List.foldl_cons, step_comma notQuoted,
            induction (next _) (by simp) (absurd · (notBetween _))]
          simp [endField, extend, atField.2]
          omega

/-- The next byte begins a row. -/
def AtRow (state : ReadState) : Prop :=
  state.mode = .between ∧ state.field = [] ∧ state.fields = []

theorem finish_of_atRow (atRow : state.AtRow) : state.finish = state.rows.reverse := by
  simp [finish, atRow.1]

end Rows

end ReadState

end Csv
end ThroughputCharts
