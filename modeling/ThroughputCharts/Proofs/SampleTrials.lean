import Mathlib.Data.List.Forall2
import ThroughputCharts.Proofs.SampleNames

/-!
# The trials of a sample

A sample runs through its sizes, variants, thread counts and workloads, and draws a number of adjacent
trials for each combination.  The order and the names of the trials do not depend on what is drawn.
-/

namespace ThroughputCharts
namespace Sample

/-- The configurations of a variant at a size and a thread count. -/
def keysAt (family : Family) (size : ProblemSize) (variant : String) (threads : UInt64) : List Key :=
  match family with
  | .list => Workload.all.map fun workload => ⟨variant, some workload, threads, size⟩
  | .queue => [⟨variant, none, threads, size⟩]

/-- Every configuration of a sample in its order; repeated thread counts repeat theirs. -/
def keys (request : Request) : List Key :=
  let settings := Settings.standard request.family
  settings.sizes.flatMap fun size =>
    settings.palette.flatMap fun (variant, _) =>
      request.threadCounts.flatMap fun threads =>
        keysAt request.family size variant threads

/-- The configuration of each trial. -/
def trialKeys (request : Request) : List Key :=
  (keys request).flatMap (List.replicate request.trials)

/-- The name that the trials of a configuration get. -/
def caseName (key : Key) : String :=
  match key.workload with
  | some workload => ListName.encode workload key.variant key.threads key.size.count
  | none => queueName key.variant key.size.count key.threads

/-- A configuration that a request asks for. -/
structure Request.AsksFor (request : Request) (key : Key) : Prop where
  size : key.size ∈ (Settings.standard request.family).sizes
  variant : key.variant ∈ (Settings.standard request.family).palette.map Prod.fst
  threads : key.threads ∈ request.threadCounts
  workload : key.workload.isSome = true ↔ request.family = .list

section Order

variable (request : Request) (power : Power)

theorem names_configurationsAt (family : Family) (size : ProblemSize) (variant : String)
    (index : Nat) (threads : UInt64) :
    (configurationsAt power family size.count variant index threads).map Configuration.name =
      (keysAt family size variant threads).map caseName := by
  cases family <;> rfl

theorem names_configurations :
    (configurations request power).map Configuration.name = (keys request).map caseName := by
  simp only [configurations, keys, List.map_flatMap, names_configurationsAt]
  congr 1
  funext size
  conv_rhs => rw [← List.zipIdx_map_fst 0 (Settings.standard request.family).palette,
    List.flatMap_map]

theorem name_drawRow (rate : Float) (configuration : Configuration) (stream : Random.Stream) :
    (drawRow Draws.total rate configuration stream).run.1.name = configuration.name := by
  simp [drawRow]

/-- The row of the first configuration is drawn first, and the others from what is left. -/
theorem drawRows_cons (rate : Float) (configuration : Configuration)
    (configurations : List Configuration) (stream : Random.Stream) :
    (drawRows Draws.total rate (configuration :: configurations) stream).run =
      (drawRow Draws.total rate configuration stream).run.1 ::
        (drawRows Draws.total rate configurations
          (drawRow Draws.total rate configuration stream).run.2).run := by
  simp [drawRows]

theorem names_drawRows (rate : Float) (configurations : List Configuration)
    (stream : Random.Stream) :
    (drawRows Draws.total rate configurations stream).run.map Row.name =
      configurations.map Configuration.name := by
  induction configurations generalizing stream with
  | nil => rfl
  | cons configuration configurations induction =>
      rw [drawRows_cons, List.map_cons, List.map_cons, induction, name_drawRow]

theorem map_flatMap_replicate {Item Image : Type} (image : Item → Image) (count : Nat)
    (items : List Item) :
    (items.flatMap (List.replicate count)).map image =
      (items.map image).flatMap (List.replicate count) := by
  simp only [List.map_flatMap, List.flatMap_map, List.map_replicate]

/-- Each row is named after the configuration of its trial. -/
theorem names_rows : (rows request power).map Row.name = (trialKeys request).map caseName := by
  rw [rows, drawSample, names_drawRows, trialKeys, map_flatMap_replicate, map_flatMap_replicate,
    names_configurations]

/-- Every row with the configuration that it was drawn for. -/
def drawn : List (Key × Row) :=
  (trialKeys request).zip (rows request power)

theorem map_snd_drawn : (drawn request power).map Prod.snd = rows request power := by
  apply List.map_snd_zip
  have sameLength := congrArg List.length (names_rows request power)
  simp only [List.length_map] at sameLength
  exact Nat.le_of_eq sameLength

end Order

theorem mem_keysAt_iff {family : Family} {size : ProblemSize} {variant : String} {threads : UInt64}
    {key : Key} :
    key ∈ keysAt family size variant threads ↔
      key.size = size ∧ key.variant = variant ∧ key.threads = threads ∧
        (key.workload.isSome = true ↔ family = .list) := by
  obtain ⟨keyVariant, keyWorkload, keyThreads, keySize⟩ := key
  cases family <;> cases keyWorkload <;>
    simp only [keysAt, List.mem_map, List.mem_singleton, Key.mk.injEq, Option.isSome_some,
      Option.isSome_none, reduceCtorEq, Option.some.injEq, Bool.false_eq_true] <;>
    grind [Workload.mem_all]

theorem mem_keys_iff {request : Request} {key : Key} : key ∈ keys request ↔ request.AsksFor key := by
  simp only [keys, List.mem_flatMap, mem_keysAt_iff]
  constructor
  · rintro ⟨_, size, ⟨_, color⟩, entry, _, threads, rfl, rfl, rfl, workload⟩
    exact ⟨size, List.mem_map_of_mem (f := Prod.fst) entry, threads, workload⟩
  · rintro ⟨size, variant, threads, workload⟩
    obtain ⟨entry, isEntry, isVariant⟩ := List.mem_map.mp variant
    exact ⟨_, size, entry, isEntry, _, threads, rfl, isVariant.symm, rfl, workload⟩

section Drawn

variable {request : Request} {power : Power} {key : Key} {row : Row}

theorem asksFor_of_mem_drawn (member : (key, row) ∈ drawn request power) :
    request.AsksFor key := by
  obtain ⟨inKeys, -⟩ := List.of_mem_zip member
  obtain ⟨asked, isAsked, repeated⟩ := List.mem_flatMap.mp inKeys
  rw [List.eq_of_mem_replicate repeated]
  exact mem_keys_iff.mp isAsked

theorem name_of_mem_drawn (member : (key, row) ∈ drawn request power) :
    row.name = caseName key := by
  have aligned : List.Forall₂ (fun key row => caseName key = row.name) (trialKeys request)
      (rows request power) := by
    rw [← List.forall₂_map_right_iff (f := Row.name) (R := fun key name => caseName key = name),
      ← List.forall₂_map_left_iff (f := caseName), names_rows]
    exact List.forall₂_refl _
  exact ((List.forall₂_iff_zip.mp aligned).2 member).symm

/-- A requested configuration of a list sample has a workload and counts elements. -/
theorem Request.AsksFor.of_list (asked : request.AsksFor key) (family : request.family = .list) :
    key.workload.isSome = true ∧ key.size = .elements key.size.count ∧ 1 ≤ key.size.count := by
  have sizes : ∀ size ∈ Settings.list.sizes, size = .elements size.count ∧ 1 ≤ size.count := by
    decide
  have isSize := asked.size
  rw [family] at isSize
  exact ⟨asked.workload.mpr family, sizes key.size isSize⟩

/-- A requested configuration of a queue sample has no workload and counts operations. -/
theorem Request.AsksFor.of_queue (asked : request.AsksFor key) (family : request.family = .queue) :
    key.workload = none ∧ key.size = .operations key.size.count ∧ 1 ≤ key.size.count := by
  have sizes : ∀ size ∈ Settings.queue.sizes, size = .operations size.count ∧ 1 ≤ size.count := by
    decide
  have isSize := asked.size
  have isWorkload := asked.workload
  rw [family] at isSize isWorkload
  refine ⟨?_, sizes key.size isSize⟩
  rw [← Option.not_isSome_iff_eq_none, isWorkload]
  decide

/-- A requested configuration is what its case name is read as. -/
theorem decode_caseName (asked : request.AsksFor key) (threadsPositive : 1 ≤ key.threads) :
    request.family.decode (caseName key) = .ok key := by
  obtain ⟨variant, workload, threads, size⟩ := key
  have isVariant := asked.variant
  cases family : request.family with
  | list =>
      obtain ⟨hasWorkload, isElements, sizePositive⟩ := asked.of_list family
      obtain ⟨workload, rfl⟩ := Option.isSome_iff_exists.mp hasWorkload
      have variants : ∀ variant ∈ Settings.list.palette.map Prod.fst,
          variant ≠ "" ∧ '<' ∉ variant.toList ∧ '>' ∉ variant.toList ∧ '/' ∉ variant.toList := by
        decide
      rw [family] at isVariant
      obtain ⟨nonempty, noMarks⟩ := variants variant isVariant
      have plain : ∀ mark ∈ ['<', '>', '/'], mark ∉ variant.toList := by
        rw [List.forall_mem_cons, List.forall_mem_cons, List.forall_mem_singleton]
        exact noMarks
      have decoded := ListName.decode_encode ⟨nonempty, plain, threadsPositive, sizePositive⟩ workload
      rw [← isElements] at decoded
      exact decoded
  | queue =>
      obtain ⟨rfl, isOperations, sizePositive⟩ := asked.of_queue family
      have variants : ∀ variant ∈ Settings.queue.palette.map Prod.fst,
          QueueName.startsWithLetter variant.toList = true ∧
            variant.toList.all QueueName.isWordChar = true ∧
            QueueName.normalizeVariant variant = variant := by
        decide
      rw [family] at isVariant
      obtain ⟨letter, wordChars, isNormal⟩ := variants variant isVariant
      have identifier : QueueName.IsIdentifier variant.toList :=
        QueueName.isIdentifier_iff.mpr ⟨letter, List.all_eq_true.mp wordChars⟩
      have decoded := decode_queueName identifier sizePositive threadsPositive
      rw [normalizeVariant_queueType_iff.mpr isNormal, ← isOperations] at decoded
      exact decoded

end Drawn

end Sample
end ThroughputCharts
