/-!
# Workloads

A workload is the mix of operations that a list benchmark applies during one trial.  Case names
carry it as a tag, and chart titles spell out its proportions.
-/

namespace ThroughputCharts

/-- The operation mix of a list benchmark trial. -/
inductive Workload
  | readHeavy
  | writeHeavy
  | balanced
  deriving DecidableEq

namespace Workload

/-- Every workload, in display order. -/
def all : List Workload := [.readHeavy, .writeHeavy, .balanced]

/-- The tag that names the workload in case names and exports. -/
def tag : Workload → String
  | .readHeavy => "ReadHeavyWorkload"
  | .writeHeavy => "WriteHeavyWorkload"
  | .balanced => "BalancedWorkload"

/-- The workload named by a tag; letter case matters. -/
def ofTag? (tag : String) : Option Workload :=
  all.find? fun workload => workload.tag == tag

def description : Workload → String
  | .readHeavy => "80% contains, 15% add, 5% remove"
  | .writeHeavy => "20% contains, 40% add, 40% remove"
  | .balanced => "33% contains, 33% add, 33% remove"

/-- Display position, which also orders workloads. -/
def rank : Workload → Nat
  | .readHeavy => 0
  | .writeHeavy => 1
  | .balanced => 2

instance : Ord Workload := ⟨compareOn rank⟩

@[simp]
theorem ofTag?_tag (workload : Workload) : ofTag? workload.tag = some workload := by
  cases workload <;> decide

theorem tag_of_ofTag? {tag : String} {workload : Workload} (named : ofTag? tag = some workload) :
    workload.tag = tag := by
  simpa using List.find?_some named

theorem mem_all (workload : Workload) : workload ∈ all := by
  cases workload <;> simp [all]

end Workload

end ThroughputCharts
