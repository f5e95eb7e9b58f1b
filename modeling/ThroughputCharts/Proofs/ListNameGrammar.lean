import ThroughputCharts.Proofs.NamePieces
import ThroughputCharts.Proofs.Results

/-!
# The grammar of list case names

A list case name falls into six pieces, and a name is accepted exactly when it has such a
decomposition.  The template argument after the variant is where brackets matter: the depth has to
return to zero for the first time at its last character.
-/

namespace ThroughputCharts
namespace ListName

/-- The angle brackets that a text leaves open. -/
def bracketDepth (text : List Char) : Int :=
  (text.count '<' : Int) - text.count '>'

/-- Scanning from a depth, the depth is zero for the first time at the end of the text. -/
def ClosesAtEnd (depth : Int) (text : List Char) : Prop :=
  depth + bracketDepth text = 0 ∧
    ∀ length < text.length, depth + bracketDepth (text.take length) ≠ 0

/-- Scanning a text, the depth returns to zero for the first time at its last character. -/
def ReturnsAtEnd (text : List Char) : Prop :=
  bracketDepth text = 0 ∧
    ∀ length, 0 < length → length < text.length → bracketDepth (text.take length) ≠ 0

/-- The change of depth at one character. -/
def bracketStep (char : Char) : Int :=
  if char = '<' then 1 else if char = '>' then -1 else 0

@[simp]
theorem bracketDepth_nil : bracketDepth [] = 0 := rfl

theorem bracketDepth_cons (char : Char) (rest : List Char) :
    bracketDepth (char :: rest) = bracketStep char + bracketDepth rest := by
  simp only [bracketDepth, bracketStep, List.count_cons, beq_iff_eq]
  by_cases opens : char = '<'
  · simp [opens]
    omega
  · by_cases closes : char = '>'
    · simp [closes]
      omega
    · simp [opens, closes]

theorem bracketDepth_append (text rest : List Char) :
    bracketDepth (text ++ rest) = bracketDepth text + bracketDepth rest := by
  simp only [bracketDepth, List.count_append]
  omega

theorem bracketDepth_plain {text : List Char} (noOpening : '<' ∉ text) (noClosing : '>' ∉ text) :
    bracketDepth text = 0 := by
  rw [bracketDepth, List.count_eq_zero.mpr noOpening, List.count_eq_zero.mpr noClosing]
  rfl

theorem closesAtEnd_nil {depth : Int} : ClosesAtEnd depth [] ↔ depth = 0 := by
  simp [ClosesAtEnd]

theorem closesAtEnd_cons {depth : Int} {char : Char} {rest : List Char} :
    ClosesAtEnd depth (char :: rest) ↔
      depth ≠ 0 ∧ ClosesAtEnd (depth + bracketStep char) rest := by
  simp only [ClosesAtEnd, bracketDepth_cons, ← Int.add_assoc]
  constructor
  · rintro ⟨atEnd, before⟩
    refine ⟨by simpa using before 0 (by simp), atEnd, ?_⟩
    intro length short
    have step := before (length + 1) (by simpa using short)
    rwa [List.take_succ_cons, bracketDepth_cons, ← Int.add_assoc] at step
  · rintro ⟨notZero, atEnd, before⟩
    refine ⟨atEnd, ?_⟩
    intro length short
    cases length with
    | zero => simpa using notZero
    | succ length =>
        rw [List.take_succ_cons, bracketDepth_cons, ← Int.add_assoc]
        exact before length (by simpa using short)

theorem returnsAtEnd_cons_open {rest : List Char} :
    ReturnsAtEnd ('<' :: rest) ↔ ClosesAtEnd 1 rest := by
  have opens : bracketStep '<' = 1 := rfl
  simp only [ReturnsAtEnd, ClosesAtEnd, bracketDepth_cons, opens]
  constructor
  · rintro ⟨atEnd, before⟩
    refine ⟨atEnd, ?_⟩
    intro length short
    have step := before (length + 1) (by simp) (by simpa using short)
    rwa [List.take_succ_cons, bracketDepth_cons] at step
  · rintro ⟨atEnd, before⟩
    refine ⟨atEnd, ?_⟩
    intro length positive short
    obtain ⟨shorter, rfl⟩ := Nat.exists_eq_add_one.mpr positive
    rw [List.take_succ_cons, bracketDepth_cons]
    exact before shorter (by simpa using short)

theorem not_closesAtEnd_zero {text : List Char} (nonempty : text ≠ []) : ¬ ClosesAtEnd 0 text := by
  cases text with
  | nil => exact absurd rfl nonempty
  | cons char rest => simp [closesAtEnd_cons]

theorem neg_one_le_bracketStep (char : Char) : -1 ≤ bracketStep char := by
  unfold bracketStep
  split
  · decide
  · split <;> decide

theorem bracketStep_nonneg {char : Char} (notClosing : char ≠ '>') : 0 ≤ bracketStep char := by
  by_cases opens : char = '<'
  · simp [bracketStep, opens]
  · simp [bracketStep, opens, notClosing]

/-- Unless the bracket closes the last one open, the scan goes on at the next depth. -/
theorem splitAtClose?_cons_of_step {depth next : Nat} {char : Char}
    (step : (next : Int) = depth + bracketStep char) (rest : List Char) :
    splitAtClose? depth (char :: rest) =
      (splitAtClose? next rest).map fun (inside, after) => (char :: inside, after) := by
  by_cases closes : char = '>'
  · have stepDown : bracketStep '>' = -1 := rfl
    have shallower : depth = next + 1 := by
      rw [closes, stepDown] at step
      omega
    simp [splitAtClose?, closes, shallower]
  · by_cases opens : char = '<'
    · have stepUp : bracketStep '<' = 1 := rfl
      have deeper : next = depth + 1 := by
        rw [opens, stepUp] at step
        omega
      simp [splitAtClose?, opens, deeper]
    · have same : next = depth := by
        simp only [bracketStep, opens, closes, if_false] at step
        omega
      simp [splitAtClose?, opens, closes, same]

theorem eq_of_splitAtClose? {depth : Nat} {text inside after : List Char}
    (split : splitAtClose? depth text = some (inside, after)) :
    text = inside ++ '>' :: after ∧ ClosesAtEnd (depth + 1) (inside ++ ['>']) := by
  induction text generalizing depth inside with
  | nil => simp [splitAtClose?] at split
  | cons char rest induction =>
      by_cases last : char = '>' ∧ depth = 0
      · obtain ⟨rfl, rfl⟩ := last
        simp only [splitAtClose?, if_true, Option.some.injEq, Prod.mk.injEq] at split
        obtain ⟨rfl, rfl⟩ := split
        refine ⟨rfl, ?_⟩
        rw [List.nil_append, closesAtEnd_cons, closesAtEnd_nil]
        decide
      · have nonneg : 0 ≤ (depth : Int) + bracketStep char := by
          by_cases closes : char = '>'
          · have := neg_one_le_bracketStep char
            have : depth ≠ 0 := fun atZero => last ⟨closes, atZero⟩
            omega
          · have := bracketStep_nonneg closes
            omega
        have step : (((depth + bracketStep char).toNat : Nat) : Int) = depth + bracketStep char :=
          Int.toNat_of_nonneg nonneg
        rw [splitAtClose?_cons_of_step step] at split
        obtain ⟨⟨shorter, _⟩, found, isInside⟩ := Option.map_eq_some_iff.mp split
        simp only [Prod.mk.injEq] at isInside
        obtain ⟨rfl, rfl⟩ := isInside
        obtain ⟨joined, closesRest⟩ := induction found
        refine ⟨by simp [joined], ?_⟩
        rw [List.cons_append, closesAtEnd_cons]
        refine ⟨by omega, ?_⟩
        rwa [step, Int.add_right_comm] at closesRest

theorem splitAtClose?_append {depth : Nat} {inside : List Char}
    (closes : ClosesAtEnd (depth + 1) (inside ++ ['>'])) (after : List Char) :
    splitAtClose? depth (inside ++ '>' :: after) = some (inside, after) := by
  induction inside generalizing depth with
  | nil =>
      rw [List.nil_append, closesAtEnd_cons, closesAtEnd_nil] at closes
      have stepDown : bracketStep '>' = -1 := rfl
      have atZero : depth = 0 := by omega
      simp [splitAtClose?, atZero]
  | cons char inside induction =>
      rw [List.cons_append, closesAtEnd_cons] at closes
      obtain ⟨-, closesRest⟩ := closes
      -- The depth behind this character is not zero, since the scan goes on.
      have notZero : (depth + 1 + bracketStep char : Int) ≠ 0 := by
        intro zero
        rw [zero] at closesRest
        exact not_closesAtEnd_zero (by simp) closesRest
      have lower := neg_one_le_bracketStep char
      have step : (((depth + bracketStep char).toNat : Nat) : Int) = depth + bracketStep char :=
        Int.toNat_of_nonneg (by omega)
      rw [List.cons_append, splitAtClose?_cons_of_step step]
      rw [Int.add_right_comm, ← step] at closesRest
      simp [induction closesRest]

/-- The scan stops at the bracket that brings the depth to zero for the first time. -/
theorem splitAtClose?_eq_some_iff {depth : Nat} {text inside after : List Char} :
    splitAtClose? depth text = some (inside, after) ↔
      text = inside ++ '>' :: after ∧ ClosesAtEnd (depth + 1) (inside ++ ['>']) := by
  constructor
  · exact eq_of_splitAtClose?
  · rintro ⟨rfl, closes⟩
    exact splitAtClose?_append closes after

/-- Text without brackets does not change the depth. -/
theorem closesAtEnd_plain_append {depth : Int} (isOpen : depth ≠ 0) {word : List Char}
    (noOpen : '<' ∉ word) (noClose : '>' ∉ word) {rest : List Char} :
    ClosesAtEnd depth (word ++ rest) ↔ ClosesAtEnd depth rest := by
  induction word with
  | nil => rfl
  | cons char word induction =>
      rw [List.mem_cons, not_or] at noOpen noClose
      have flat : bracketStep char = 0 := by
        simp [bracketStep, Ne.symm noOpen.1, Ne.symm noClose.1]
      rw [List.cons_append, closesAtEnd_cons, flat, Int.add_zero, induction noOpen.2 noClose.2]
      simp [isOpen]

/-- The bracket at which a scan ends is a closing one. -/
theorem ClosesAtEnd.exists_eq_append {depth : Int} {text : List Char} (isOpen : 0 < depth)
    (closes : ClosesAtEnd depth text) : ∃ inside, text = inside ++ ['>'] := by
  induction text generalizing depth with
  | nil =>
      rw [closesAtEnd_nil] at closes
      omega
  | cons char rest induction =>
      obtain ⟨-, closesRest⟩ := closesAtEnd_cons.mp closes
      have lower := neg_one_le_bracketStep char
      by_cases zero : depth + bracketStep char = 0
      · rw [zero] at closesRest
        have isLast : rest = [] := by
          apply Classical.byContradiction
          intro nonempty
          exact not_closesAtEnd_zero nonempty closesRest
        have closing : char = '>' := by
          apply Classical.byContradiction
          intro notClosing
          have := bracketStep_nonneg notClosing
          omega
        exact ⟨[], by simp [isLast, closing]⟩
      · obtain ⟨inside, joined⟩ := induction (by omega) closesRest
        exact ⟨char :: inside, by simp [joined]⟩

theorem isBracket_iff {char : Char} : isBracket char = true ↔ char = '<' ∨ char = '>' := by
  simp [isBracket]

/-- A template argument: a variant without brackets, closed at once or followed by arguments of its
own, where the bracket in front of the variant is balanced by the last character. -/
structure IsArgument (variant rest : List Char) : Prop where
  noOpen : '<' ∉ variant
  noClose : '>' ∉ variant
  start : rest = ['>'] ∨ rest.head? = some '<'
  closes : ReturnsAtEnd ('<' :: (variant ++ rest))

theorem IsArgument.takeWhile_eq {variant rest : List Char} (argument : IsArgument variant rest) :
    (variant ++ rest).takeWhile (!isBracket ·) = variant := by
  have plain : ∀ char ∈ variant, (!isBracket char) = true := by
    intro char member
    rw [Bool.not_eq_true', Bool.eq_false_iff, Ne, isBracket_iff]
    rintro (rfl | rfl)
    · exact argument.noOpen member
    · exact argument.noClose member
  rcases argument.start with rfl | opens
  · exact Text.takeWhile_append_stop plain rfl []
  · obtain ⟨more, rfl⟩ := List.head?_eq_some_iff.mp opens
    exact Text.takeWhile_append_stop plain rfl more

theorem IsArgument.splitAtClose?_eq {variant rest : List Char}
    (argument : IsArgument variant rest) :
    ∃ inside, splitAtClose? 0 (variant ++ rest) = some (inside, []) ∧
      inside.takeWhile (!isBracket ·) = variant := by
  have closes := returnsAtEnd_cons_open.mp argument.closes
  obtain ⟨inside, joined⟩ := closes.exists_eq_append (by decide)
  have sameWord := argument.takeWhile_eq
  rw [joined] at closes sameWord
  refine ⟨inside, ?_, ?_⟩
  · rw [joined]
    exact splitAtClose?_eq_some_iff.mpr ⟨rfl, closes⟩
  · rw [← sameWord]
    exact (Text.takeWhile_append_stop_eq rfl inside []).symm

/-- What the scan finds inside starts with a variant, and the rest is its own argument list. -/
theorem isArgument_of_splitAtClose? {argument inside : List Char}
    (split : splitAtClose? 0 argument = some (inside, [])) :
    ∃ rest, argument = inside.takeWhile (!isBracket ·) ++ rest ∧
      IsArgument (inside.takeWhile (!isBracket ·)) rest := by
  obtain ⟨rfl, closes⟩ := splitAtClose?_eq_some_iff.mp split
  have plain : ∀ char ∈ inside.takeWhile (!isBracket ·), ¬ (char = '<' ∨ char = '>') := by
    intro char member
    have outside := List.all_eq_true.mp List.all_takeWhile char member
    rw [← isBracket_iff]
    simpa using outside
  have stop := List.head?_dropWhile_not (!isBracket ·) inside
  have joined : inside.takeWhile (!isBracket ·) ++ inside.dropWhile (!isBracket ·) = inside :=
    List.takeWhile_append_dropWhile
  generalize inside.takeWhile (!isBracket ·) = variant at *
  generalize inside.dropWhile (!isBracket ·) = behind at *
  subst joined
  have noOpen : '<' ∉ variant := fun member => plain _ member (.inl rfl)
  have noClose : '>' ∉ variant := fun member => plain _ member (.inr rfl)
  rw [List.append_assoc] at closes
  refine ⟨behind ++ ['>'], List.append_assoc .., noOpen, noClose, ?_,
    returnsAtEnd_cons_open.mpr closes⟩
  cases behind with
  | nil => exact .inl rfl
  | cons char more =>
      have isStop : isBracket char = true := by simpa using stop
      rcases isBracket_iff.mp isStop with rfl | rfl
      · exact .inr rfl
      · -- A closing bracket here would bring the depth to zero before the end.
        have early : ClosesAtEnd 0 (more ++ ['>']) :=
          (closesAtEnd_cons.mp ((closesAtEnd_plain_append (by decide) noOpen noClose).mp closes)).2
        exact absurd early (not_closesAtEnd_zero (by simp))

/-- The rules for the first segment in the order in which they are checked. -/
theorem readHead_eq (head : List Char) :
    readHead head =
      match Text.splitAtFirst? '<' head with
      | none => .error .missingTemplate
      | some (front, argument) =>
        match Text.splitAtLast? '_' front with
        | none => .error .missingPrefix
        | some (lead, tag) =>
          if lead = [] then .error .missingPrefix
          else match Workload.ofTag? (String.ofList tag) with
            | none => .error (.unknownWorkload (String.ofList tag))
            | some workload =>
              match splitAtClose? 0 argument with
              | none => .error .missingTemplate
              | some (inside, trailing) =>
                if inside.takeWhile (!isBracket ·) = [] then .error .missingTemplate
                else if trailing = [] then
                  .ok (workload, String.ofList (inside.takeWhile (!isBracket ·)))
                else .error (.trailingText (String.ofList trailing)) := by
  cases first : Text.splitAtFirst? '<' head with
  | none =>
      simp only [readHead, first]
      rfl
  | some parts =>
      obtain ⟨front, argument⟩ := parts
      cases last : Text.splitAtLast? '_' front with
      | none =>
          simp only [readHead, first, last]
          rfl
      | some parts =>
          obtain ⟨lead, tag⟩ := parts
          by_cases noLead : lead = []
          · simp only [readHead, first, last, noLead]
            rfl
          · cases named : Workload.ofTag? (String.ofList tag) with
            | none =>
                simp [readHead, first, last, noLead, named]
                rfl
            | some workload =>
                cases close : splitAtClose? 0 argument with
                | none =>
                    simp [readHead, first, last, noLead, named, close]
                    rfl
                | some parts =>
                    obtain ⟨inside, trailing⟩ := parts
                    simp only [readHead, first, last, named, close, List.isEmpty_iff, noLead,
                      Bool.not_eq_true', Bool.eq_false_iff, ne_eq, if_false, ite_not]
                    split
                    · rfl
                    · split <;> rfl

theorem tag_plain (workload : Workload) :
    '<' ∉ workload.tag.toList ∧ '_' ∉ workload.tag.toList ∧ '/' ∉ workload.tag.toList := by
  cases workload <;> decide

/-- The first segment made of its pieces. -/
def headText (lead : List Char) (workload : Workload) (variant rest : List Char) : List Char :=
  lead ++ '_' :: workload.tag.toList ++ '<' :: (variant ++ rest)

theorem splitAtFirst?_headText {lead : List Char} (plainLead : '<' ∉ lead) (workload : Workload)
    (variant rest : List Char) :
    Text.splitAtFirst? '<' (headText lead workload variant rest) =
      some (lead ++ '_' :: workload.tag.toList, variant ++ rest) := by
  apply Text.splitAtFirst?_append
  simp [plainLead, (tag_plain workload).1]

theorem readHead_headText {lead variant rest : List Char} {workload : Workload}
    (nonempty : lead ≠ []) (plainLead : '<' ∉ lead) (named : variant ≠ [])
    (argument : IsArgument variant rest) :
    readHead (headText lead workload variant rest) = .ok (workload, String.ofList variant) := by
  obtain ⟨inside, closes, word⟩ := argument.splitAtClose?_eq
  have front := splitAtFirst?_headText plainLead workload variant rest
  have tag := Text.splitAtLast?_append (tag_plain workload).2.1 lead
  simp [readHead_eq, front, tag, nonempty, closes, word, named]

theorem exists_headText_of_readHead {head : List Char} {workload : Workload} {variant : String}
    (accepted : readHead head = .ok (workload, variant)) :
    ∃ lead rest, head = headText lead workload variant.toList rest ∧
      lead ≠ [] ∧ '<' ∉ lead ∧ variant ≠ "" ∧ IsArgument variant.toList rest := by
  rw [readHead_eq] at accepted
  split at accepted
  · cases accepted
  rename_i front argument first
  split at accepted
  · cases accepted
  rename_i lead tag last
  split at accepted
  · cases accepted
  rename_i nonempty
  split at accepted
  · cases accepted
  rename_i found named
  split at accepted
  · cases accepted
  rename_i inside trailing close
  split at accepted
  · cases accepted
  rename_i hasVariant
  split at accepted
  · rename_i noTrailing
    simp only [Except.ok.injEq, Prod.mk.injEq] at accepted
    obtain ⟨rfl, rfl⟩ := accepted
    obtain ⟨rfl, plainFront⟩ := Text.splitAtFirst?_eq_some_iff.mp first
    obtain ⟨rfl, -⟩ := Text.splitAtLast?_eq_some_iff.mp last
    obtain ⟨rest, rfl, isArgument⟩ := isArgument_of_splitAtClose? (noTrailing ▸ close)
    have tagText : tag = found.tag.toList := by
      rw [Workload.tag_of_ofTag? named, String.toList_ofList]
    rw [String.toList_ofList]
    refine ⟨lead, rest, by rw [tagText]; rfl, nonempty, ?_, by simpa using hasVariant, isArgument⟩
    exact fun member => plainFront (List.mem_append_left _ member)
  · cases accepted

theorem readSegments_triple {head threads size : List Char} {key : Key} :
    readSegments [head, threads, size] = .ok key ↔
      ∃ workload threadCount count, readHead head = .ok (workload, key.variant) ∧
        Decimal.readCount? threads = some threadCount ∧ Decimal.readCount? size = some count ∧
        key = ⟨key.variant, some workload, threadCount, .elements count⟩ := by
  simp only [readSegments, bind_eq_ok_iff, readCount_eq_ok_iff, Prod.exists]
  constructor
  · rintro ⟨workload, variant, headRead, threadCount, threadsRead, count, sizeRead, accepted⟩
    cases accepted
    exact ⟨workload, threadCount, count, headRead, threadsRead, sizeRead, rfl⟩
  · rintro ⟨workload, threadCount, count, headRead, threadsRead, sizeRead, shape⟩
    refine ⟨workload, key.variant, headRead, threadCount, threadsRead, count, sizeRead, ?_⟩
    rw [shape]
    rfl

theorem eq_triple_of_readSegments {segments : List (List Char)} {key : Key}
    (accepted : readSegments segments = .ok key) :
    ∃ head threads size, segments = [head, threads, size] := by
  unfold readSegments at accepted
  split at accepted
  · exact ⟨_, _, _, rfl⟩
  · cases accepted

theorem decode_eq_ok_iff_readSegments {name : String} {key : Key} :
    decode name = .ok key ↔ readSegments (Text.pieces '/' name.toList) = .ok key :=
  mapError_eq_ok_iff

/-- The pieces that the grammar of list case names tells apart. -/
structure Pieces where
  lead : String
  workload : Workload
  variant : String
  rest : String
  threads : String
  size : String

namespace Pieces

/-- The name made of the pieces. -/
def name (pieces : Pieces) : String :=
  pieces.lead ++ "_" ++ pieces.workload.tag ++ "<" ++ pieces.variant ++ pieces.rest ++ "/" ++
    pieces.threads ++ "/" ++ pieces.size

/-- The configuration that the pieces stand for. -/
def key (pieces : Pieces) : Key where
  variant := pieces.variant
  workload := some pieces.workload
  threads := (Decimal.value pieces.threads.toList).toUInt64
  size := .elements (Decimal.value pieces.size.toList).toUInt64

/-- What the grammar asks of each piece. -/
structure WellFormed (pieces : Pieces) : Prop where
  lead_nonempty : pieces.lead ≠ ""
  lead_plain : ∀ mark ∈ ['<', '/'], mark ∉ pieces.lead.toList
  variant_nonempty : pieces.variant ≠ ""
  variant_plain : ∀ mark ∈ ['<', '>', '/'], mark ∉ pieces.variant.toList
  rest_plain : '/' ∉ pieces.rest.toList
  rest_start : pieces.rest = ">" ∨ pieces.rest.toList.head? = some '<'
  balanced : ReturnsAtEnd ("<" ++ pieces.variant ++ pieces.rest).toList
  threads_count : Decimal.IsCount pieces.threads
  size_count : Decimal.IsCount pieces.size

end Pieces

namespace Pieces

/-- The first segment of the name made of the pieces. -/
def head (pieces : Pieces) : List Char :=
  headText pieces.lead.toList pieces.workload pieces.variant.toList pieces.rest.toList

theorem toList_name (pieces : Pieces) :
    pieces.name.toList =
      ['/'].intercalate [pieces.head, pieces.threads.toList, pieces.size.toList] := by
  simp [name, head, headText, List.intercalate_cons_cons]

theorem WellFormed.isArgument {pieces : Pieces} (wellFormed : pieces.WellFormed) :
    IsArgument pieces.variant.toList pieces.rest.toList where
  noOpen := wellFormed.variant_plain '<' (by simp)
  noClose := wellFormed.variant_plain '>' (by simp)
  start := by
    rcases wellFormed.rest_start with rest | rest
    · exact .inl (by simp [rest])
    · exact .inr rest
  closes := by simpa using wellFormed.balanced

/-- The segments of the name are the ones made of the pieces. -/
theorem WellFormed.pieces_name {pieces : Pieces} (wellFormed : pieces.WellFormed) :
    Text.pieces '/' pieces.name.toList =
      [pieces.head, pieces.threads.toList, pieces.size.toList] := by
  have plainCount {text : String} (count : Decimal.IsCount text) : '/' ∉ text.toList :=
    fun member => absurd (count.digits '/' member) (by decide)
  have plainHead : '/' ∉ pieces.head := by
    have plainLead := wellFormed.lead_plain '/' (by simp)
    have plainVariant := wellFormed.variant_plain '/' (by simp)
    have plainTag := (tag_plain pieces.workload).2.2
    simp [head, headText, plainLead, plainVariant, plainTag, wellFormed.rest_plain]
  rw [toList_name]
  apply Text.pieces_intercalate (by simp)
  simp [plainHead, plainCount wellFormed.threads_count, plainCount wellFormed.size_count]

theorem WellFormed.decode_name {pieces : Pieces} (wellFormed : pieces.WellFormed) :
    decode pieces.name = .ok pieces.key := by
  rw [decode_eq_ok_iff_readSegments, wellFormed.pieces_name, readSegments_triple]
  refine ⟨pieces.workload, _, _, ?_, Decimal.readCount?_eq_some_iff.mpr ⟨?_, rfl⟩,
    Decimal.readCount?_eq_some_iff.mpr ⟨?_, rfl⟩, rfl⟩
  · have headRead : readHead pieces.head =
        .ok (pieces.workload, String.ofList pieces.variant.toList) :=
      readHead_headText (by simpa using wellFormed.lead_nonempty)
        (wellFormed.lead_plain '<' (by simp)) (by simpa using wellFormed.variant_nonempty)
        wellFormed.isArgument
    rwa [String.ofList_toList] at headRead
  · simpa using wellFormed.threads_count
  · simpa using wellFormed.size_count

theorem exists_wellFormed_of_decode {name : String} {key : Key}
    (accepted : decode name = .ok key) :
    ∃ pieces : Pieces, pieces.WellFormed ∧ name = pieces.name ∧ key = pieces.key := by
  rw [decode_eq_ok_iff_readSegments] at accepted
  obtain ⟨head, threads, size, segments⟩ := eq_triple_of_readSegments accepted
  rw [segments, readSegments_triple] at accepted
  obtain ⟨workload, threadCount, count, headRead, threadsRead, sizeRead, shape⟩ := accepted
  obtain ⟨threadsCount, rfl⟩ := Decimal.readCount?_eq_some_iff.mp threadsRead
  obtain ⟨sizeCount, rfl⟩ := Decimal.readCount?_eq_some_iff.mp sizeRead
  obtain ⟨lead, rest, rfl, leadNonempty, plainLead, hasVariant, argument⟩ :=
    exists_headText_of_readHead headRead
  let pieces : Pieces := ⟨String.ofList lead, workload, key.variant, String.ofList rest,
    String.ofList threads, String.ofList size⟩
  have isHead : pieces.head = headText lead workload key.variant.toList rest := by
    simp [head, pieces]
  have plainHead : '/' ∉ headText lead workload key.variant.toList rest :=
    Text.notMem_of_mem_pieces (segments ▸ List.mem_cons_self)
  simp only [headText, List.mem_append, List.mem_cons, not_or] at plainHead
  refine ⟨pieces, ?_, ?_, ?_⟩
  · constructor
    case lead_nonempty => simpa [pieces] using leadNonempty
    case lead_plain => simp [pieces, plainLead, plainHead.1.1]
    case variant_nonempty => exact hasVariant
    case variant_plain =>
      simp [pieces, argument.noOpen, argument.noClose, plainHead.2.2.1]
    case rest_plain => simp [pieces, plainHead.2.2.2]
    case rest_start =>
      rcases argument.start with rest | rest
      · exact .inl (by simp [pieces, rest])
      · exact .inr (by simpa [pieces] using rest)
    case balanced => simpa [pieces] using argument.closes
    case threads_count => exact threadsCount
    case size_count => exact sizeCount
  · rw [← String.toList_inj, toList_name, isHead, ← Text.intercalate_pieces '/' name.toList,
      segments]
    simp [pieces]
  · rw [shape]
    simp [Pieces.key, pieces]

/-- A name has at most one decomposition. -/
theorem WellFormed.eq_of_name_eq {first second : Pieces} (firstFits : first.WellFormed)
    (secondFits : second.WellFormed) (sameName : first.name = second.name) : first = second := by
  have segments := congrArg (fun name : String => Text.pieces '/' name.toList) sameName
  simp only [firstFits.pieces_name, secondFits.pieces_name, List.cons.injEq, and_true] at segments
  obtain ⟨sameHead, sameThreads, sameSize⟩ := segments
  have fronts := congrArg (Text.splitAtFirst? '<') sameHead
  simp only [head, splitAtFirst?_headText (firstFits.lead_plain '<' (by simp)),
    splitAtFirst?_headText (secondFits.lead_plain '<' (by simp)), Option.some.injEq,
    Prod.mk.injEq] at fronts
  obtain ⟨sameFront, sameArgument⟩ := fronts
  have leads := congrArg (Text.splitAtLast? '_') sameFront
  simp only [Text.splitAtLast?_append (tag_plain _).2.1, Option.some.injEq,
    Prod.mk.injEq] at leads
  obtain ⟨sameLead, sameTag⟩ := leads
  have sameWorkload : first.workload = second.workload := by
    have named := congrArg Workload.ofTag? (String.toList_inj.mp sameTag)
    simpa using named
  have sameVariant : first.variant.toList = second.variant.toList := by
    rw [← firstFits.isArgument.takeWhile_eq, ← secondFits.isArgument.takeWhile_eq, sameArgument]
  have sameRest : first.rest.toList = second.rest.toList := by
    rw [sameVariant] at sameArgument
    exact List.append_cancel_left sameArgument
  rw [String.toList_inj] at sameThreads sameSize sameLead sameVariant sameRest
  cases first
  cases second
  simp_all

end Pieces

/-- A list case name is accepted exactly when it decomposes by the grammar; the configuration is
read off the pieces, and there is no other decomposition. -/
theorem decode_eq_ok_iff_pieces (name : String) (key : Key) :
    decode name = .ok key ↔
      ∃ pieces : Pieces, (pieces.WellFormed ∧ name = pieces.name ∧ key = pieces.key) ∧
        ∀ other : Pieces, other.WellFormed → name = other.name → other = pieces := by
  constructor
  · intro accepted
    obtain ⟨pieces, wellFormed, isName, isKey⟩ := Pieces.exists_wellFormed_of_decode accepted
    refine ⟨pieces, ⟨wellFormed, isName, isKey⟩, ?_⟩
    intro other otherFits otherName
    exact otherFits.eq_of_name_eq wellFormed (otherName.symm.trans isName)
  · rintro ⟨pieces, ⟨wellFormed, rfl, rfl⟩, -⟩
    exact wellFormed.decode_name

end ListName
end ThroughputCharts
