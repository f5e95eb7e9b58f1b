import ThroughputCharts.Proofs.RowAccounts

/-!
# Variants without a color

The log names a variant without a color just when some trial of it has a value; every such variant
is named once, in ascending order.  A variant of which all trials failed is not named, but then all
of its configurations are reported as dropped.
-/

namespace ThroughputCharts

/-- The variant that an event reports to have no color. -/
def Event.unconfigured? : Event → Option String
  | .variantUnconfigured variant => some variant
  | _ => none

namespace Aggregation

/-- The variants that a log reports to have no color, in its order. -/
def namedVariants (log : List Event) : List String :=
  log.filterMap Event.unconfigured?

/-- A log names the variants with a property, each of them once and in the order of their UTF-8
bytes. -/
structure NamesExactly (log : List Event) (named : String → Prop) : Prop where
  ascending : (namedVariants log).Pairwise fun first second =>
    Text.toUtf8 first < Text.toUtf8 second
  mem_iff : ∀ variant, variant ∈ namedVariants log ↔ named variant

/-- No entry of the palette is for the variant. -/
def Colorless (settings : Settings) (variant : String) : Prop :=
  ∀ entry ∈ settings.palette, entry.1 ≠ variant

/-- The name of some record that is no summary decodes to the variant. -/
def VariantDecoded (family : Family) (records : List Record) (variant : String) : Prop :=
  ∃ key ∈ decodedKeys family records, key.variant = variant

/-- Some record of the variant has a value. -/
def VariantMeasured (family : Family) (records : List Record) (variant : String) : Prop :=
  ∃ key, Measured family records key ∧ key.variant = variant

theorem colorOf?_eq_none_iff {settings : Settings} {variant : String} :
    settings.colorOf? variant = none ↔ Colorless settings variant := by
  simp only [Settings.colorOf?, List.lookup_eq_none_iff, Colorless, bne_iff_ne, ne_comm]

theorem mem_decodedKeys_iff {family : Family} {records : List Record} {key : Key} :
    key ∈ decodedKeys family records ↔ ∃ record ∈ records, reports family key record = true := by
  simp only [decodedKeys, trialRecords, List.mem_filterMap, List.mem_filter, toOption_eq_some_iff,
    reports_iff, Bool.not_eq_true', and_assoc]

section Log

variable {settings : Settings} {records : List Record} {table : List Point}

theorem namedVariants_append (log later : List Event) :
    namedVariants (log ++ later) = namedVariants log ++ namedVariants later :=
  List.filterMap_append

theorem namedVariants_skippedEvents (records : List Record) :
    namedVariants (skippedEvents records) = [] := by
  rw [skippedEvents]
  split <;> rfl

theorem namedVariants_events (trials : List Trial) : namedVariants (events trials) = [] := by
  rw [events, namedVariants_append, namedVariants_append, List.append_eq_nil_iff,
    List.append_eq_nil_iff]
  refine ⟨⟨?_, ?_⟩, rfl⟩
  · split <;> rfl
  · rw [namedVariants, List.filterMap_map]
    exact List.filterMap_eq_nil_iff.mpr fun _ _ => rfl

/-- Only the end of the log names variants without a color. -/
theorem namedVariants_ofRecords (aggregated : (ofRecords settings records).2 = .ok table) :
    namedVariants (ofRecords settings records).1 = unconfiguredVariants settings table := by
  obtain ⟨trials, decoded, rfl⟩ := ofRecords_eq_ok_iff.mp aggregated
  rw [ofRecords, decoded]
  simp only [namedVariants_append, namedVariants_skippedEvents, namedVariants_events,
    List.nil_append]
  rw [namedVariants, List.filterMap_map]
  exact List.filterMap_some

theorem mem_namedVariants_iff {log : List Event} {variant : String} :
    variant ∈ namedVariants log ↔ .variantUnconfigured variant ∈ log := by
  rw [namedVariants, List.mem_filterMap]
  constructor
  · rintro ⟨event, member, names⟩
    cases event <;> cases names
    exact member
  · intro member
    exact ⟨_, member, rfl⟩

/-- A variant is reported as unconfigured just when it has a point but no color. -/
theorem variantUnconfigured_mem_iff (aggregated : (ofRecords settings records).2 = .ok table)
    {variant : String} :
    .variantUnconfigured variant ∈ (ofRecords settings records).1 ↔
      (∃ point ∈ table, point.key.variant = variant) ∧ settings.colorOf? variant = none := by
  rw [← mem_namedVariants_iff, namedVariants_ofRecords aggregated]
  simp only [unconfiguredVariants, List.mem_eraseDups, List.mem_filter, List.mem_map,
    Option.isNone_iff_eq_none]

/-- Points that ascend by key have their variants in order, where equal ones are side by side. -/
theorem unconfiguredVariants_ascending
    (ascending : table.Pairwise fun first second => first.key.Precedes second.key) :
    (unconfiguredVariants settings table).Pairwise fun first second =>
      Text.toUtf8 first < Text.toUtf8 second := by
  have variants : (table.map (·.key.variant)).Pairwise fun first second =>
      Text.toUtf8 first < Text.toUtf8 second ∨ first = second :=
    List.pairwise_map.mpr (ascending.imp fun before => before.imp_right And.left)
  exact (pairwise_eraseDups (variants.filter _)).imp fun ⟨order, different⟩ =>
    order.resolve_right different

theorem namesExactly_measured (aggregated : (ofRecords settings records).2 = .ok table) :
    NamesExactly (ofRecords settings records).1 fun variant =>
      Colorless settings variant ∧ VariantMeasured settings.family records variant := by
  constructor
  case ascending =>
    rw [namedVariants_ofRecords aggregated]
    exact unconfiguredVariants_ascending (ascending_of_ofRecords aggregated)
  case mem_iff =>
    intro variant
    rw [mem_namedVariants_iff, variantUnconfigured_mem_iff aggregated, colorOf?_eq_none_iff,
      and_comm]
    apply and_congr_right'
    constructor
    · rintro ⟨point, member, rfl⟩
      exact ⟨point.key, ((mem_iff_of_ofRecords aggregated).mp member).1, rfl⟩
    · rintro ⟨key, measured, rfl⟩
      obtain ⟨point, member, rfl, -⟩ := exists_point_of_measured aggregated measured
      exact ⟨point, member, rfl⟩

/-- A configuration without any value is reported as dropped. -/
theorem configurationDropped_mem_of_not_measured
    (aggregated : (ofRecords settings records).2 = .ok table) {key : Key}
    (decoded : key ∈ decodedKeys settings.family records)
    (notMeasured : ¬ Measured settings.family records key) :
    .configurationDropped key ∈ (ofRecords settings records).1 := by
  obtain ⟨trials, allDecoded, rfl⟩ := ofRecords_eq_ok_iff.mp aggregated
  have dropped : key ∈ droppedKeys trials := by
    refine (mem_droppedKeys_of_decodeAll allDecoded).mpr ⟨decoded, fun record member isTrial => ?_⟩
    rw [reports_iff] at isTrial
    rw [← Option.not_isSome_iff_eq_none]
    exact fun hasValue => notMeasured ⟨record, member, isTrial.1, isTrial.2, hasValue⟩
  rw [ofRecords, allDecoded]
  simp [events, dropped]

end Log

theorem VariantMeasured.decoded {family : Family} {records : List Record} {variant : String}
    (measured : VariantMeasured family records variant) :
    VariantDecoded family records variant := by
  obtain ⟨key, ⟨record, member, noSummary, decodes, -⟩, rfl⟩ := measured
  exact ⟨key, mem_decodedKeys_iff.mpr ⟨record, member, reports_iff.mpr ⟨noSummary, decodes⟩⟩, rfl⟩

/-- The log names the variants that have a value but no color.  These are all variants of the table
without a color just when each of them has a value, and of any other one every configuration is
reported as dropped. -/
theorem ofRecords_names_unconfigured (settings : Settings) (records : List Record)
    (table : List Point) (aggregated : (ofRecords settings records).2 = .ok table) :
    NamesExactly (ofRecords settings records).1 (fun variant =>
      Colorless settings variant ∧ VariantMeasured settings.family records variant) ∧
    (NamesExactly (ofRecords settings records).1 (fun variant =>
        Colorless settings variant ∧ VariantDecoded settings.family records variant) ↔
      ∀ variant, Colorless settings variant → VariantDecoded settings.family records variant →
        VariantMeasured settings.family records variant) ∧
    ∀ key ∈ decodedKeys settings.family records,
      ¬ VariantMeasured settings.family records key.variant →
        .configurationDropped key ∈ (ofRecords settings records).1 := by
  have names := namesExactly_measured aggregated
  refine ⟨names, ⟨?_, ?_⟩, ?_⟩
  · intro namesAll variant colorless decoded
    exact ((names.mem_iff variant).mp ((namesAll.mem_iff variant).mpr ⟨colorless, decoded⟩)).2
  · intro allMeasured
    refine ⟨names.ascending, fun variant => (names.mem_iff variant).trans ?_⟩
    constructor
    · rintro ⟨colorless, measured⟩
      exact ⟨colorless, measured.decoded⟩
    · rintro ⟨colorless, decoded⟩
      exact ⟨colorless, allMeasured variant colorless decoded⟩
  · intro key decoded notMeasured
    exact configurationDropped_mem_of_not_measured aggregated decoded
      fun measured => notMeasured ⟨key, measured, rfl⟩

/-- A table with a variant without a color whose only trial failed. -/
def silentRecords : List Record :=
  [⟨"BM_ReadHeavyWorkload<SkipList<int>>/4/1000", none, .operationsPerSecond⟩,
    ⟨"BM_ReadHeavyWorkload<LazyList<int>>/4/1000", some 100.0, .operationsPerSecond⟩]

/-- The point of that table. -/
def silentPoints : List Point :=
  [⟨⟨"LazyList", some .readHeavy, 4, .elements 1000⟩, 100.0, 1⟩]

theorem aggregated_silentRecords :
    (ofRecords Settings.list silentRecords).2 = .ok silentPoints :=
  toOption_eq_some_iff.mp (by decide +kernel)

theorem namedVariants_silentRecords :
    namedVariants (ofRecords Settings.list silentRecords).1 = [] := by
  rw [namedVariants_ofRecords aggregated_silentRecords]
  decide

theorem colorless_skipList : Colorless Settings.list "SkipList" :=
  colorOf?_eq_none_iff.mp (by decide)

theorem skipList_mem_decodedKeys :
    ⟨"SkipList", some .readHeavy, 4, .elements 1000⟩ ∈ decodedKeys .list silentRecords := by
  decide +kernel

/-- The log does not name the variant whose only trial failed. -/
theorem silentRecords_unnamed :
    (ofRecords Settings.list silentRecords).2 = .ok silentPoints ∧
      ¬ NamesExactly (ofRecords Settings.list silentRecords).1 (fun variant =>
        Colorless Settings.list variant ∧ VariantDecoded .list silentRecords variant) := by
  refine ⟨aggregated_silentRecords, fun names => ?_⟩
  have named := (names.mem_iff "SkipList").mpr
    ⟨colorless_skipList, _, skipList_mem_decodedKeys, rfl⟩
  rw [namedVariants_silentRecords] at named
  contradiction

theorem names_unconfigured_silentRecords :
    (ofRecords Settings.list silentRecords).2 = .ok silentPoints ∧
      ¬ VariantMeasured .list silentRecords "SkipList" ∧
      .configurationDropped ⟨"SkipList", some .readHeavy, 4, .elements 1000⟩ ∈
        (ofRecords Settings.list silentRecords).1 := by
  obtain ⟨names, -, dropped⟩ := ofRecords_names_unconfigured _ _ _ aggregated_silentRecords
  have notMeasured : ¬ VariantMeasured .list silentRecords "SkipList" := by
    intro measured
    have named := (names.mem_iff "SkipList").mpr ⟨colorless_skipList, measured⟩
    rw [namedVariants_silentRecords] at named
    contradiction
  exact ⟨aggregated_silentRecords, notMeasured, dropped _ skipList_mem_decodedKeys notMeasured⟩

end Aggregation

end ThroughputCharts
