import Mathlib.Data.Fintype.Pigeonhole
import ThroughputCharts.Axis.Ticks

/-!
# Loops that never end

A loop that goes from one of finitely many states to the next, and has gone on for as many rounds as
there are states, was twice in the same state and never ends.  So the two loops behind the ticks of an
axis are without a result just where they never end.  A loop whose states increase from round to round
cannot come back to a state, and ends.
-/

namespace ThroughputCharts

section Loops

variable {State : Type} {next : State → Option State} {state again : State}

/-- The state of a loop after a number of rounds, where it goes on for as many. -/
def stateAfter (next : State → Option State) : Nat → State → Option State
  | 0, state => some state
  | rounds + 1, state => (next state).bind (stateAfter next rounds)

/-- A loop goes on for any number of rounds. -/
def Endless (next : State → Option State) (state : State) : Prop :=
  ∀ rounds, stateAfter next rounds state ≠ none

theorem stateAfter_add (next : State → Option State) (first more : Nat) (state : State) :
    stateAfter next (first + more) state =
      (stateAfter next first state).bind (stateAfter next more) := by
  induction first generalizing state with
  | zero => rw [Nat.zero_add, stateAfter, Option.bind_some]
  | succ first induction =>
      rw [Nat.succ_add, stateAfter, stateAfter, Option.bind_assoc]
      exact congrArg (next state).bind (funext induction)

theorem stateAfter_succ (next : State → Option State) (rounds : Nat) (state : State) :
    stateAfter next (rounds + 1) state = (stateAfter next rounds state).bind next := by
  rw [stateAfter_add]
  congr 1
  funext reached
  exact Option.bind_fun_some (next reached)

/-- A loop that goes on for some rounds goes on for fewer. -/
theorem stateAfter_ne_none_of_le {fewer rounds : Nat} (atMost : fewer ≤ rounds)
    (goesOn : stateAfter next rounds state ≠ none) : stateAfter next fewer state ≠ none := by
  obtain ⟨rest, rfl⟩ := Nat.exists_eq_add_of_le atMost
  intro ended
  rw [stateAfter_add, ended] at goesOn
  exact goesOn rfl

theorem stateAfter_mul_of_returns {period : Nat}
    (returns : stateAfter next period again = some again) (turns : Nat) : stateAfter next (turns * period) again = some again := by
  induction turns with
  | zero => rw [Nat.zero_mul, stateAfter]
  | succ turns induction => rw [Nat.succ_mul, stateAfter_add, induction, Option.bind_some, returns]

/-- A loop that is twice in the same state never ends. -/
theorem endless_of_repeats {early late : Nat} (later : early < late)
    (reached : stateAfter next early state = some again)
    (returned : stateAfter next late state = some again) : Endless next state := by
  obtain ⟨period, rfl⟩ := Nat.exists_eq_add_of_le later.le
  have positive : 0 < period := by omega
  have returns : stateAfter next period again = some again := by
    rw [← returned, stateAfter_add, reached, Option.bind_some]
  intro rounds
  have longer : rounds ≤ early + rounds * period :=
    (Nat.le_mul_of_pos_right rounds positive).trans (Nat.le_add_left _ _)
  apply stateAfter_ne_none_of_le longer
  rw [stateAfter_add, reached, Option.bind_some, stateAfter_mul_of_returns returns]
  exact Option.some_ne_none again

/-- A loop that has gone on for as many rounds as there are states never ends. -/
theorem endless_iff_goesOn {count : Nat} (code : State → Fin count) (injective : code.Injective) :
    Endless next state ↔ stateAfter next count state ≠ none := by
  constructor
  case mp => exact fun endless => endless count
  case mpr =>
    intro goesOn
    have reaches (round : Fin (count + 1)) :
        ∃ reached, stateAfter next round state = some reached :=
      Option.ne_none_iff_exists'.mp
        (stateAfter_ne_none_of_le (Nat.lt_succ_iff.mp round.isLt) goesOn)
    choose reached isReached using reaches
    obtain ⟨first, second, apart, same⟩ := Fintype.exists_ne_map_eq_of_card_lt
      (fun round => code (reached round)) (by simp)
    have equal := injective same
    rcases Nat.lt_or_gt_of_ne (Fin.val_ne_of_ne apart) with before | behind
    · exact endless_of_repeats before (isReached first) (equal ▸ isReached second)
    · exact endless_of_repeats behind (isReached second) (equal ▸ isReached first)

/-- A loop ends if its states stay in an invariant and increase. -/
theorem not_endless_of_increases {Size : Type} [Preorder Size] [Finite State]
    (size : State → Size) (invariant : State → Prop) (holds : invariant state)
    (increases : ∀ one other, invariant one → next one = some other →
      invariant other ∧ size one < size other) : ¬ Endless next state := by
  intro endless
  have reaches (rounds : Nat) : ∃ reached, stateAfter next rounds state = some reached :=
    Option.ne_none_iff_exists'.mp (endless rounds)
  choose reached isReached using reaches
  have isNext (rounds : Nat) : next (reached rounds) = some (reached (rounds + 1)) := by
    rw [← isReached (rounds + 1), stateAfter_succ, isReached, Option.bind_some]
  have stays (rounds : Nat) : invariant (reached rounds) := by
    induction rounds with
    | zero =>
        obtain rfl : state = reached 0 := Option.some.inj (isReached 0)
        exact holds
    | succ rounds induction => exact (increases _ _ induction (isNext rounds)).1
  have ascending : StrictMono fun rounds => size (reached rounds) :=
    strictMono_nat_of_lt_succ fun rounds => (increases _ _ (stays rounds) (isNext rounds)).2
  -- Finitely many states cannot all be different.
  refine not_injective_infinite_finite reached fun first second same => ?_
  rcases lt_trichotomy first second with before | equal | behind
  · exact absurd (congrArg size same) (ascending before).ne
  · exact equal
  · exact absurd (congrArg size same) (ascending behind).ne'

end Loops

namespace Binary64

/-- The bits of a number as a whole number. -/
def bitCode (number : Float) : Fin (2 ^ 64) :=
  number.toBits.toBitVec.toFin

theorem bitCode_injective : bitCode.Injective := by
  rintro ⟨⟨bits, valid⟩⟩ ⟨⟨otherBits, otherValid⟩⟩ same
  obtain rfl : bits = otherBits := UInt64.toBitVec_inj.mp (BitVec.toFin_inj.mp same)
  rfl

instance instFiniteFloat : Finite Float :=
  .of_injective bitCode bitCode_injective

end Binary64

namespace Axis

/-- A loop over numbers that has gone on for as many rounds as there are numbers never ends. -/
theorem endless_iff_numberCount {next : Float → Option Float} {number : Float} :
    Endless next number ↔ stateAfter next numberCount number ≠ none := by
  rw [numberCount_eq, Nat.pow_eq]
  exact endless_iff_goesOn Binary64.bitCode Binary64.bitCode_injective

section Search

variable {start stop : Float} {limit fuel : Nat}

/-- The step to go on with if every division of a step fits. -/
def refined (start stop : Float) (limit : Nat) (step : Float) : Option Float :=
  match divide start stop limit step [2.0, 5.0, 10.0] step with
  | (_, false) => none
  | (step, true) => some step

theorem refine_eq_none_iff (spacing : Spacing) :
    refine start stop limit fuel spacing = none ↔
      stateAfter (refined start stop limit) fuel spacing.step ≠ none := by
  induction fuel generalizing spacing with
  | zero => simp [refine, stateAfter]
  | succ fuel induction =>
      rw [refine, stateAfter, refined]
      rcases divide start stop limit spacing.step [2.0, 5.0, 10.0] spacing.step with
        ⟨step, _ | _⟩
      · simp
      · exact induction _

/-- An axis has no step just if the search for it never ends. -/
theorem spacing_eq_none_iff :
    spacing start stop limit = none ↔
      Endless (refined start stop limit) (coarse (stop - start) limit).step := by
  rw [spacing, refine_eq_none_iff, endless_iff_numberCount]

end Search

section Positions

variable {base last : Float} {spacing : Spacing} {fuel : Nat}

/-- The offset to go on with if the last multiple of the step is not passed. -/
def advanced (base last : Float) (spacing : Spacing) (offset : Float) : Option Float :=
  if -tolerance ≤ last - offset - base then
    some (aligned spacing.grain offset + spacing.step)
  else
    none

theorem positions_eq_none_iff (offset : Float) :
    positions base last spacing fuel offset = none ↔
      stateAfter (advanced base last spacing) fuel offset ≠ none := by
  induction fuel generalizing offset with
  | zero => simp [positions, stateAfter]
  | succ fuel induction =>
      rw [positions, stateAfter, advanced]
      split
      next => rw [Option.map_eq_none_iff, induction, Option.bind_some]
      next => simp

end Positions

/-- One of the loops behind the ticks of an axis never ends. -/
def NeverTicks (start stop : Float) (limit : Nat) : Prop :=
  ¬ (start - stop).abs < tolerance ∧
    (Endless (refined start stop limit) (coarse (stop - start) limit).step ∨
      ∃ found base, spacing start stop limit = some found ∧
        base = Binary64.floor (firstMultiple start found.step / found.grain) * found.grain ∧
        Endless (advanced base (lastMultiple stop found.step) found)
          (firstMultiple start found.step - base))

/-- An axis has no ticks just if one of the loops behind them never ends. -/
theorem ticks_eq_none_iff {start stop : Float} {limit : Nat} :
    ticks start stop limit = none ↔ NeverTicks start stop limit := by
  unfold ticks NeverTicks
  split
  next short => simp [short]
  next long =>
    rw [← spacing_eq_none_iff]
    cases isSpacing : spacing start stop limit with
    | none => simp [long]
    | some found =>
        simp only [Option.bind_eq_bind, Option.bind_some, positions_eq_none_iff,
          ← endless_iff_numberCount]
        simp [long]

end Axis
end ThroughputCharts
