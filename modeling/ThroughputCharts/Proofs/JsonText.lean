import ThroughputCharts.Proofs.JsonNumbers

/-!
# JSON texts read back

The text of a value is taken apart into the tokens that it was made of, and these are put together to
the document that the value stands for.
-/

namespace ThroughputCharts

namespace Json

section Strings

theorem hexValue?_digitChar {digit : Nat} (small : digit < 16) :
    hexValue? (Nat.digitChar digit) = some digit := by
  interval_cases digit <;> rfl

/-- A control character comes back from its code unit. -/
theorem codePoint?_hexDigits {char : Char} (isControl : char.toNat < 0x20) (rest : List Char) :
    codePoint? ('0' :: '0' :: hexDigits char.toNat ++ rest) = some (char, 4) := by
  have high := hexValue?_digitChar (show char.toNat / 16 < 16 by omega)
  have low := hexValue?_digitChar (show char.toNat % 16 < 16 by omega)
  have isUnit : unit? ['0', '0', Nat.digitChar (char.toNat / 16), Nat.digitChar (char.toNat % 16)] =
      some char.toNat := by
    have zero : hexValue? '0' = some 0 := rfl
    simp [unit?, zero, high, low]
    omega
  have notLow : isLowSurrogate char.toNat = false := by
    simp only [isLowSurrogate, Bool.and_eq_false_iff, decide_eq_false_iff_not]
    omega
  have notHigh : isHighSurrogate char.toNat = false := by
    simp only [isHighSurrogate, Bool.and_eq_false_iff, decide_eq_false_iff_not]
    omega
  have taken : ('0' :: '0' :: hexDigits char.toNat ++ rest).take 4 =
      ['0', '0', Nat.digitChar (char.toNat / 16), Nat.digitChar (char.toNat % 16)] := rfl
  rw [codePoint?, taken, isUnit]
  simp [notLow, notHigh, Char.ofNat_toNat]

theorem readString?_escaped {code rest : List Char} {char : Char}
    (isEscaped : escaped? (code ++ rest) = some (char, code.length)) :
    readString? ('\\' :: code ++ rest) =
      (readString? rest).map fun (content, others) =>
        (char :: content, others + ('\\' :: code).length) := by
  rw [List.cons_append, readString?, if_neg (by decide), if_pos rfl, isEscaped]
  simp only [List.drop_left, List.length_cons, Nat.add_assoc]

theorem readString?_plain {char : Char} (rest : List Char) (notQuote : char ≠ quote)
    (notBackslash : char ≠ '\\') (notControl : ¬ char.toNat < 0x20) :
    readString? ([char] ++ rest) =
      (readString? rest).map fun (content, others) =>
        (char :: content, others + [char].length) := by
  rw [List.singleton_append, readString?, if_neg notQuote, if_neg notBackslash, if_neg notControl]
  rfl

/-- A character comes back from the way that it is written inside quotes. -/
theorem readString?_escape (char : Char) (rest : List Char) :
    readString? (escape char ++ rest) =
      (readString? rest).map fun (content, others) =>
        (char :: content, others + (escape char).length) := by
  unfold escape
  split
  next isItself =>
    apply readString?_escaped
    rcases isItself with rfl | rfl <;> rfl
  next notItself =>
    split
    next isBackspace => exact isBackspace ▸ readString?_escaped rfl
    split
    next isFormFeed => exact isFormFeed ▸ readString?_escaped rfl
    split
    next isNewLine => exact isNewLine ▸ readString?_escaped rfl
    split
    next isReturn => exact isReturn ▸ readString?_escaped rfl
    split
    next isTab => exact isTab ▸ readString?_escaped rfl
    split
    next isControl =>
      refine @readString?_escaped ('u' :: '0' :: '0' :: hexDigits char.toNat) rest char ?_
      rw [List.cons_append, escaped?, if_pos rfl, codePoint?_hexDigits isControl]
      rfl
    next notControl =>
      rw [not_or] at notItself
      exact readString?_plain rest notItself.1 notItself.2 notControl

/-- A string is read back from its quotes, whatever it holds. -/
theorem readString?_flatMap_escape (content rest : List Char) :
    readString? (content.flatMap escape ++ quote :: rest) =
      some (content, (content.flatMap escape).length + 1) := by
  induction content with
  | nil => rw [List.flatMap_nil, List.nil_append, readString?, if_pos rfl]; rfl
  | cons char content induction =>
      rw [List.flatMap_cons, List.append_assoc, readString?_escape, induction, Option.map_some,
        List.length_append]
      simp only [Option.some.injEq, Prod.mk.injEq, true_and]
      omega

end Strings

section Tokens

/-- Lists of tokens with a comma between any two of them. -/
def separated : List (List Token) → List Token
  | [] => []
  | first :: others => first ++ others.flatMap (.mark .comma :: ·)

mutual

/-- The tokens that the text of a value is made of. -/
def tokens : Json → List Token
  | .null => [.word .null]
  | .string text => [.string text]
  | .natural number => [.word (.number ⟨false, number, 0⟩)]
  | .real number => [.word (realDocument number)]
  | .array items => .mark .openArray :: separated (itemTokens items) ++ [.mark .closeArray]
  | .object members => .mark .openObject :: separated (memberTokens members) ++ [.mark .closeObject]

def itemTokens : List Json → List (List Token)
  | [] => []
  | item :: rest => tokens item :: itemTokens rest

def memberTokens : List (String × Json) → List (List Token)
  | [] => []
  | (name, value) :: rest => (.string name :: .mark .colon :: tokens value) :: memberTokens rest

end

/-- A text does not go on with a word. -/
def Stops (text : List Char) : Prop :=
  ∀ char ∈ text.head?, isWordChar char = false

/-- A text is taken apart into tokens, whatever follows it that does not go on with a word. -/
def Lexes (text : List Char) (tokens : List Token) : Prop :=
  ∀ rest, Stops rest → tokens? (text ++ rest) = (tokens? rest).map (tokens ++ ·)

theorem tokens?_blank {char : Char} (rest : List Char) (blank : isBlank char = true) :
    tokens? (char :: rest) = tokens? rest := by
  rw [tokens?, if_pos blank]

theorem tokens?_newLine (depth : Nat) (rest : List Char) :
    tokens? (newLine depth ++ rest) = tokens? rest := by
  rw [newLine, List.cons_append, tokens?_blank _ rfl]
  generalize 2 * depth = count
  induction count with
  | zero => rfl
  | succ count induction =>
      rw [List.replicate_succ, List.cons_append, tokens?_blank _ rfl, induction]

theorem tokens?_mark {char : Char} {mark : Mark} (rest : List Char)
    (isMark : marks.lookup char = some mark) :
    tokens? (char :: rest) = (tokens? rest).map (.mark mark :: ·) := by
  have apart : ∀ entry ∈ marks, isBlank entry.1 = false ∧ entry.1 ≠ quote := by decide
  obtain ⟨front, back, isSplit, -⟩ := List.lookup_eq_some_iff.mp isMark
  obtain ⟨notBlank, notQuote⟩ := apart (char, mark) (isSplit ▸ List.mem_append_cons_self)
  rw [tokens?, if_neg (Bool.eq_false_iff.mp notBlank), if_neg notQuote, isMark]

/-- No character of a word is blank, a quote or a mark. -/
theorem apart_of_isWordChar {char : Char} (inWord : isWordChar char = true) :
    isBlank char = false ∧ char ≠ quote ∧ marks.lookup char = none := by
  have ne {other : Char} (outside : isWordChar other = false) : char ≠ other := by
    rintro rfl
    rw [inWord] at outside
    contradiction
  refine ⟨?_, ne (by simp [isWordChar, quote]), ?_⟩
  · simp only [isBlank, Bool.or_eq_false_iff, beq_eq_false_iff_ne]
    exact ⟨⟨⟨ne (by simp [isWordChar]), ne (by simp [isWordChar])⟩, ne (by simp [isWordChar])⟩,
      ne (by simp [isWordChar])⟩
  · rw [List.lookup_eq_none_iff]
    intro entry isMark
    rw [bne_iff_ne]
    apply ne
    revert isMark entry
    simp [marks, isWordChar]

theorem lexes_word {text : List Char} {value : Document} (isValue : word? text = some value)
    (areWordChars : ∀ char ∈ text, isWordChar char = true) : Lexes text [.word value] := by
  intro rest stops
  cases text with
  | nil =>
      have noWord : word? [] = none := by decide
      rw [noWord] at isValue
      contradiction
  | cons char text =>
      rw [List.forall_mem_cons] at areWordChars
      obtain ⟨notBlank, notQuote, notMark⟩ := apart_of_isWordChar areWordChars.1
      have wordEnds : rest.takeWhile isWordChar = [] ∧ rest.dropWhile isWordChar = rest := by
        cases rest with
        | nil => exact ⟨rfl, rfl⟩
        | cons next rest =>
            have outside : ¬ isWordChar next = true := by simp [stops next rfl]
            exact ⟨List.takeWhile_cons_of_neg outside, List.dropWhile_cons_of_neg outside⟩
      rw [List.cons_append, tokens?, if_neg (Bool.eq_false_iff.mp notBlank), if_neg notQuote, notMark,
        List.takeWhile_append_of_pos areWordChars.2, List.dropWhile_append_of_pos areWordChars.2,
        wordEnds.1, wordEnds.2, List.append_nil, isValue]
      rfl

theorem tokens?_stringText (text : String) (rest : List Char) :
    tokens? (stringText text ++ rest) = (tokens? rest).map (.string text :: ·) := by
  have content := readString?_flatMap_escape text.toList rest
  have behind : (text.toList.flatMap escape ++ quote :: rest).drop
      ((text.toList.flatMap escape).length + 1) = rest := by
    rw [← List.drop_drop, List.drop_left]
    rfl
  have shape : stringText text ++ rest = quote :: (text.toList.flatMap escape ++ quote :: rest) := by
    simp only [stringText, List.cons_append, List.append_assoc, List.nil_append]
  rw [shape, tokens?, if_neg (by decide), if_pos rfl, content]
  dsimp only
  rw [behind, String.ofList_toList]

theorem stops_cons {char : Char} (outside : isWordChar char = false) (rest : List Char) :
    Stops (char :: rest) := by
  intro other isFirst
  obtain rfl := Option.some.inj isFirst
  exact outside

theorem intercalate_cons_eq_flatMap {Item : Type} (separator first : List Item)
    (others : List (List Item)) :
    separator.intercalate (first :: others) = first ++ others.flatMap (separator ++ ·) := by
  induction others generalizing first with
  | nil => simp [List.intercalate]
  | cons second others induction =>
      rw [List.intercalate_cons_cons, induction, List.flatMap_cons, List.append_assoc,
        List.append_assoc]

section Items

variable {items : List (List Char)} {tokenLists : List (List Token)}

theorem stops_flatMap_comma {rest : List Char} (items : List (List Char)) (depth : Nat)
    (stops : Stops rest) :
    Stops (items.flatMap (',' :: newLine depth ++ ·) ++ rest) := by
  cases items with
  | nil => exact stops
  | cons => exact stops_cons (by simp [isWordChar]) _

theorem lexes_flatMap_comma (lexes : List.Forall₂ Lexes items tokenLists) (depth : Nat) :
    Lexes (items.flatMap (',' :: newLine depth ++ ·)) (tokenLists.flatMap (.mark .comma :: ·)) := by
  intro rest stops
  induction lexes with
  | nil => simp
  | @cons item tokens items tokenLists first _ induction =>
      have stopsOthers := stops_flatMap_comma items depth stops
      rw [List.flatMap_cons, List.cons_append, List.cons_append, List.cons_append,
        tokens?_mark _ rfl, List.append_assoc, List.append_assoc, tokens?_newLine,
        first _ stopsOthers, induction, Option.map_map, Option.map_map, List.flatMap_cons]
      simp [Function.comp_def]

theorem lexes_bracketed (lexes : List.Forall₂ Lexes items tokenLists) (depth : Nat)
    {opening closing : Char} {openMark closeMark : Mark}
    (isOpen : marks.lookup opening = some openMark)
    (isClose : marks.lookup closing = some closeMark) :
    Lexes (bracketed opening closing depth items)
      (.mark openMark :: separated tokenLists ++ [.mark closeMark]) := by
  intro rest stops
  cases lexes with
  | nil =>
      rw [bracketed]
      simp [tokens?_mark _ isOpen, tokens?_mark _ isClose, separated, Function.comp_def]
  | @cons item tokens items tokenLists first others =>
      have shape : bracketed opening closing depth (item :: items) ++ rest =
          opening :: (newLine (depth + 1) ++ (item ++ (items.flatMap (',' :: newLine (depth + 1) ++ ·) ++
            (newLine depth ++ closing :: rest)))) := by
        simp only [bracketed, intercalate_cons_eq_flatMap, List.cons_append, List.append_assoc,
          List.nil_append]
      have stopsClosing : Stops (newLine depth ++ closing :: rest) :=
        stops_cons (by simp [isWordChar]) _
      rw [shape, tokens?_mark _ isOpen, tokens?_newLine,
        first _ (stops_flatMap_comma items (depth + 1) stopsClosing),
        lexes_flatMap_comma others (depth + 1) _ stopsClosing, tokens?_newLine,
        tokens?_mark _ isClose]
      simp [separated, Function.comp_def]

end Items

mutual

theorem lexes_textAt : ∀ (value : Json) (depth : Nat), Lexes (textAt depth value) (tokens value)
  | .null, _ => lexes_word rfl (by simp [textAt, isWordChar])
  | .string text, _ => fun rest _ => tokens?_stringText text rest
  | .natural number, _ => lexes_word (word?_toDigits number) fun _ => isWordChar_of_mem_toDigits
  | .real number, _ => lexes_word (word?_realText number) fun _ => isWordChar_of_mem_realText
  | .array items, depth => lexes_bracketed (lexes_itemTexts items (depth + 1)) depth rfl rfl
  | .object members, depth => lexes_bracketed (lexes_memberTexts members (depth + 1)) depth rfl rfl

theorem lexes_itemTexts : ∀ (items : List Json) (depth : Nat),
    List.Forall₂ Lexes (itemTexts depth items) (itemTokens items)
  | [], _ => .nil
  | item :: rest, depth => .cons (lexes_textAt item depth) (lexes_itemTexts rest depth)

theorem lexes_memberTexts : ∀ (members : List (String × Json)) (depth : Nat),
    List.Forall₂ Lexes (memberTexts depth members) (memberTokens members)
  | [], _ => .nil
  | (name, value) :: rest, depth => by
      refine .cons (fun behind stops => ?_) (lexes_memberTexts rest depth)
      rw [List.append_assoc, List.cons_append, List.cons_append, tokens?_stringText,
        tokens?_mark _ rfl, tokens?_blank _ rfl, lexes_textAt value depth behind stops]
      simp [Function.comp_def]

end

end Tokens

section Machine

mutual

/-- The document that a value stands for. -/
def document : Json → Document
  | .null => .null
  | .string text => .string text
  | .natural number => .number ⟨false, number, 0⟩
  | .real number => realDocument number
  | .array items => .array (itemDocuments items)
  | .object members => .object (memberDocuments members)

def itemDocuments : List Json → List Document
  | [] => []
  | item :: rest => document item :: itemDocuments rest

def memberDocuments : List (String × Json) → List (String × Document)
  | [] => []
  | (name, value) :: rest => (name, document value) :: memberDocuments rest

end

/-- No value begins with the closing bracket of an array. -/
theorem exists_tokens_eq_cons (value : Json) :
    ∃ first others, tokens value = first :: others ∧
      ∀ unclosed, step? (.firstItem unclosed) first = step? (.value (.array [] :: unclosed)) first := by
  cases value with
  | null => exact ⟨_, _, rfl, fun _ => rfl⟩
  | string => exact ⟨_, _, rfl, fun _ => rfl⟩
  | natural => exact ⟨_, _, rfl, fun _ => rfl⟩
  | real => exact ⟨_, _, rfl, fun _ => rfl⟩
  | array => exact ⟨_, _, rfl, fun _ => rfl⟩
  | object => exact ⟨_, _, rfl, fun _ => rfl⟩

theorem foldlM_firstItem (value : Json) (others : List Token) (unclosed : List Unclosed) :
    (tokens value ++ others).foldlM step? (.firstItem unclosed) =
      (tokens value ++ others).foldlM step? (.value (.array [] :: unclosed)) := by
  obtain ⟨first, more, isFirst, same⟩ := exists_tokens_eq_cons value
  rw [isFirst, List.cons_append, List.foldlM_cons, List.foldlM_cons, same]

mutual

/-- The tokens of a value bring its document to where a value is waited for. -/
theorem foldlM_tokens : ∀ (value : Json) (unclosed : List Unclosed),
    (tokens value).foldlM step? (.value unclosed) = some (deliver (document value) unclosed)
  | .null, _ => rfl
  | .string _, _ => rfl
  | .natural _, _ => rfl
  | .real _, _ => rfl
  | .array [], _ => rfl
  | .array (item :: items), unclosed => by
      have value := foldlM_tokens item (.array [] :: unclosed)
      have others := foldlM_itemTokens items [document item] unclosed
      simp only [tokens, itemTokens, separated, List.cons_append, List.append_assoc,
        List.foldlM_cons, begin?, step?, Option.bind_eq_bind, Option.bind_some, foldlM_firstItem]
      simp [List.foldlM_append, value, others, deliver, step?, document, itemDocuments]
  | .object [], _ => rfl
  | .object ((name, value) :: members), unclosed => by
      have delivered := foldlM_tokens value (.object [] name :: unclosed)
      have others := foldlM_memberTokens members [(name, document value)] unclosed
      simp [tokens, memberTokens, separated, begin?, List.foldlM_append, delivered, others, deliver,
        step?, document, memberDocuments]

theorem foldlM_itemTokens : ∀ (items : List Json) (before : List Document)
    (unclosed : List Unclosed),
    ((itemTokens items).flatMap (.mark .comma :: ·)).foldlM step? (.behindItem before unclosed) =
      some (.behindItem (before ++ itemDocuments items) unclosed)
  | [], before, unclosed => by simp [itemTokens, itemDocuments]
  | item :: items, before, unclosed => by
      have value := foldlM_tokens item (.array before :: unclosed)
      have others := foldlM_itemTokens items (before ++ [document item]) unclosed
      simp [itemTokens, step?, List.foldlM_append, value, deliver, others, itemDocuments]

theorem foldlM_memberTokens : ∀ (members : List (String × Json))
    (before : List (String × Document)) (unclosed : List Unclosed),
    ((memberTokens members).flatMap (.mark .comma :: ·)).foldlM step?
        (.behindMember before unclosed) =
      some (.behindMember (before ++ memberDocuments members) unclosed)
  | [], before, unclosed => by simp [memberTokens, memberDocuments]
  | (name, value) :: members, before, unclosed => by
      have delivered := foldlM_tokens value (.object before name :: unclosed)
      have others := foldlM_memberTokens members (before ++ [(name, document value)]) unclosed
      simp [memberTokens, step?, List.foldlM_append, delivered, deliver, others, memberDocuments]

end

/-- The text of a value is JSON, and what it holds is the document of the value. -/
theorem read?_text (value : Json) : read? value.text = some (document value) := by
  have lexed := lexes_textAt value 0 [] nofun
  rw [List.append_nil, tokens?, Option.map_some, List.append_nil] at lexed
  rw [read?, text, String.toList_ofList, lexed]
  simp only [Option.bind_eq_bind, Option.bind_some, foldlM_tokens]
  rfl

end Machine

end Json

end ThroughputCharts
