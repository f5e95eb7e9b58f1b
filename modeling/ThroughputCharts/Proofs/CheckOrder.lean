import Mathlib.Data.List.Basic
import ThroughputCharts.Proofs.Results

/-!
# Rules checked in order

A reading that checks one rule after the other fails with the fault of the first one that is broken.
Two readings in sequence check the rules of both in that order.
-/

namespace ThroughputCharts

/-- The first entry that has any outcome has the given one. -/
def FirstOutcome {Entry Outcome : Type} (has : Entry → Outcome → Prop) (entries : List Entry)
    (outcome : Outcome) : Prop :=
  ∃ before entry after, entries = before ++ entry :: after ∧ has entry outcome ∧
    ∀ earlier ∈ before, ∀ other, ¬ has earlier other

/-- A reading fails just with the fault of the first broken rule. -/
def FailsFirst {Rule Fault Result : Type} (breaks : Rule → Fault → Prop) (rules : List Rule)
    (reading : Except Fault Result) : Prop :=
  ∀ fault, reading = .error fault ↔ FirstOutcome breaks rules fault

section Outcomes

variable {Entry Outcome : Type} {has : Entry → Outcome → Prop} {entry : Entry}
  {entries later : List Entry} {outcome : Outcome}

theorem not_firstOutcome_nil : ¬ FirstOutcome has [] outcome := by
  rintro ⟨before, entry, after, joined, -⟩
  simp at joined

theorem firstOutcome_cons :
    FirstOutcome has (entry :: entries) outcome ↔
      has entry outcome ∨ (∀ other, ¬ has entry other) ∧ FirstOutcome has entries outcome := by
  constructor
  · rintro ⟨before, found, after, joined, hasOutcome, none⟩
    cases before with
    | nil =>
        rw [List.nil_append, List.cons.injEq] at joined
        exact .inl (joined.1 ▸ hasOutcome)
    | cons first before =>
        rw [List.cons_append, List.cons.injEq] at joined
        rw [List.forall_mem_cons] at none
        exact .inr ⟨joined.1 ▸ none.1, before, found, after, joined.2, hasOutcome, none.2⟩
  · rintro (hasOutcome | ⟨notFirst, before, found, after, joined, hasOutcome, none⟩)
    · exact ⟨[], entry, entries, rfl, hasOutcome, List.forall_mem_nil _⟩
    · exact ⟨entry :: before, found, after, congrArg (entry :: ·) joined, hasOutcome,
        List.forall_mem_cons.mpr ⟨notFirst, none⟩⟩

/-- There is a first outcome as soon as some entry has one. -/
theorem exists_firstOutcome_iff :
    (∃ outcome, FirstOutcome has entries outcome) ↔
      ∃ entry ∈ entries, ∃ outcome, has entry outcome := by
  induction entries with
  | nil => simp [not_firstOutcome_nil]
  | cons entry entries induction =>
      simp only [firstOutcome_cons, List.exists_mem_cons_iff, ← induction, exists_or,
        exists_and_left, ← not_exists]
      constructor
      · rintro (isFirst | later)
        · exact .inl isFirst
        · exact .inr later.2
      · intro hasOutcome
        by_cases isFirst : ∃ outcome, has entry outcome
        · exact .inl isFirst
        · exact .inr ⟨isFirst, hasOutcome.resolve_left isFirst⟩

theorem firstOutcome_append :
    FirstOutcome has (entries ++ later) outcome ↔
      FirstOutcome has entries outcome ∨
        (¬ ∃ other, FirstOutcome has entries other) ∧ FirstOutcome has later outcome := by
  induction entries with
  | nil => simp [not_firstOutcome_nil]
  | cons entry entries induction =>
      simp only [List.cons_append, firstOutcome_cons, induction, not_exists, not_or, not_and]
      grind

theorem firstOutcome_map {Source : Type} {change : Source → Entry} {sources : List Source} :
    FirstOutcome has (sources.map change) outcome ↔
      FirstOutcome (fun source => has (change source)) sources outcome := by
  induction sources with
  | nil => simp [not_firstOutcome_nil]
  | cons source sources induction =>
      rw [List.map_cons, firstOutcome_cons, firstOutcome_cons, induction]

end Outcomes

/-- What must be found, or else the fault. -/
def required {Fault Result : Type} (fault : Fault) (found : Option Result) : Except Fault Result :=
  found.elim (.error fault) .ok

section Readings

variable {Rule Fault First Result : Type} {breaks : Rule → Fault → Prop} {rule : Rule}
  {rules later : List Rule} {fault : Fault}

theorem required_eq_error_iff {found : Option Result} {other : Fault} :
    required fault found = .error other ↔ found = none ∧ other = fault := by
  cases found <;> simp [required, eq_comm]

theorem required_eq_ok_iff {found : Option Result} {value : Result} :
    required fault found = .ok value ↔ found = some value := by
  cases found <;> simp [required]

theorem failsFirst_ok (result : Result) : FailsFirst breaks [] (.ok result) :=
  fun _ => iff_of_false nofun not_firstOutcome_nil

/-- The only rule of a reading is broken when it fails. -/
theorem failsFirst_singleton {reading : Except Fault Result}
    (fails : ∀ fault, reading = .error fault ↔ breaks rule fault) :
    FailsFirst breaks [rule] reading := by
  intro fault
  simp [firstOutcome_cons, not_firstOutcome_nil, fails]

/-- A broken rule decides the fault. -/
theorem failsFirst_of_broken (broken : ∀ other, breaks rule other ↔ other = fault)
    (rules : List Rule) :
    FailsFirst breaks (rule :: rules) (.error fault : Except Fault Result) := by
  intro other
  simp [firstOutcome_cons, broken, eq_comm]

/-- A rule that is kept leaves it to the later ones. -/
theorem FailsFirst.cons {reading : Except Fault Result} (fails : FailsFirst breaks rules reading)
    (kept : ∀ other, ¬ breaks rule other) : FailsFirst breaks (rule :: rules) reading := by
  intro fault
  simp [firstOutcome_cons, kept, fails fault]

/-- Readings in sequence check their rules in sequence. -/
theorem FailsFirst.bind {first : Except Fault First} {next : First → Except Fault Result}
    (failsFirst : FailsFirst breaks rules first)
    (failsNext : ∀ value, first = .ok value → FailsFirst breaks later (next value)) :
    FailsFirst breaks (rules ++ later) (first >>= next) := by
  intro fault
  simp only [bind_eq_error_iff, firstOutcome_append, ← failsFirst _]
  cases first with
  | error found => simp
  | ok value => simp [failsNext value rfl fault]

/-- A reading of one rule is checked in front of another reading. -/
theorem failsFirst_bind {first : Except Fault First} {next : First → Except Fault Result}
    (fails : ∀ fault, first = .error fault ↔ breaks rule fault)
    (failsNext : ∀ value, first = .ok value → FailsFirst breaks rules (next value)) :
    FailsFirst breaks (rule :: rules) (first >>= next) :=
  (failsFirst_singleton fails).bind failsNext

/-- A rule that is broken on a condition is checked in front of what is read otherwise. -/
theorem failsFirst_ite {condition : Prop} [Decidable condition] {next : Except Fault Result}
    (fails : ∀ other, breaks rule other ↔ condition ∧ other = fault)
    (failsNext : ¬ condition → FailsFirst breaks rules next) :
    FailsFirst breaks (rule :: rules) (if condition then .error fault else next) := by
  split
  next broken => exact failsFirst_of_broken (fun other => by simp [fails, broken]) rules
  next kept => exact (failsNext kept).cons fun other => by simp [fails, kept]

end Readings

end ThroughputCharts
