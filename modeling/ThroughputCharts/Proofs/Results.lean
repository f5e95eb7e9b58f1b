/-!
# Results that may be faults

A reading gives a result or a fault.  What readings give one after the other, or with their results or
faults changed, follows from what each of them gives.
-/

namespace ThroughputCharts

section Readings

variable {Fault Wrapped First Result : Type}

/-- A reading of two steps succeeds when both steps do. -/
theorem bind_eq_ok_iff {first : Except Fault First} {next : First → Except Fault Result}
    {result : Result} :
    first >>= next = .ok result ↔ ∃ value, first = .ok value ∧ next value = .ok result := by
  cases first with
  | error fault => simp [bind, Except.bind]
  | ok value => simp [bind, Except.bind]

/-- A reading of two steps fails at the first step, or at the second one after the first. -/
theorem bind_eq_error_iff {first : Except Fault First} {next : First → Except Fault Result}
    {fault : Fault} :
    first >>= next = .error fault ↔
      first = .error fault ∨ ∃ value, first = .ok value ∧ next value = .error fault := by
  cases first <;> simp [bind, Except.bind]

theorem toOption_eq_some_iff {reading : Except Fault Result} {result : Result} :
    reading.toOption = some result ↔ reading = .ok result := by
  cases reading <;> simp [Except.toOption]

theorem mapError_eq_ok_iff {reading : Except Fault Result} {wrap : Fault → Wrapped}
    {result : Result} : reading.mapError wrap = .ok result ↔ reading = .ok result := by
  cases reading with
  | error fault => exact ⟨nofun, nofun⟩
  | ok value =>
      constructor
      · rintro ⟨⟩
        rfl
      · rintro ⟨⟩
        rfl

theorem mapError_eq_error_iff {reading : Except Fault Result} {wrap : Fault → Wrapped}
    {wrapped : Wrapped} :
    reading.mapError wrap = .error wrapped ↔
      ∃ fault, reading = .error fault ∧ wrap fault = wrapped := by
  cases reading with
  | error fault =>
      constructor
      · intro isError
        exact ⟨fault, rfl, Except.error.inj isError⟩
      · rintro ⟨_, ⟨⟩, rfl⟩
        rfl
  | ok value => exact ⟨nofun, nofun⟩

theorem map_eq_ok_iff {reading : Except Fault First} {change : First → Result} {result : Result} :
    reading.map change = .ok result ↔ ∃ value, reading = .ok value ∧ change value = result := by
  cases reading <;> simp [Except.map]

theorem map_eq_error_iff {reading : Except Fault First} {change : First → Result} {fault : Fault} :
    reading.map change = .error fault ↔ reading = .error fault := by
  cases reading <;> simp [Except.map]

end Readings

end ThroughputCharts
