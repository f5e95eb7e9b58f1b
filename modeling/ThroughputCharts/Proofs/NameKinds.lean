import ThroughputCharts.CaseName.Summary
import ThroughputCharts.Family
import ThroughputCharts.Proofs.ListNameGrammar
import ThroughputCharts.Proofs.QueueNameGrammar

/-!
# What a row is by its name

A name is read as a list trial, as a queue trial or as a summary of trials, and never as two of these.
The number of segments tells the two families apart, and the last segment tells trials from summaries:
the one of a trial is a count or the time marker, and neither ends like the name of a summary.
-/

namespace ThroughputCharts

/-- What a row of a results table can be. -/
inductive RowKind
  | trial (family : Family)
  | summary
  deriving DecidableEq

/-- Whether a row of the given name is of a kind. -/
def RowKind.Names (name : String) : RowKind → Prop
  | .trial family => ∃ key, family.decode name = .ok key
  | .summary => SummaryName.isSummary name = true

namespace SummaryName

theorem underscore_mem_of_isSummary {name : String} (summary : isSummary name = true) :
    '_' ∈ lastSegment name := by
  obtain ⟨ending, isEnding, ends⟩ := List.any_eq_true.mp summary
  have marked : '_' ∈ ending.toList := by
    have endings : ∀ ending ∈ endings, '_' ∈ ending.toList := by decide
    exact endings ending isEnding
  exact (List.isSuffixOf_iff_suffix.mp ends).subset marked

/-- The name of a list trial ends in digits. -/
theorem not_isSummary_of_list {name : String} {key : Key} (accepted : ListName.decode name = .ok key) :
    isSummary name = false := by
  obtain ⟨pieces, wellFormed, rfl, -⟩ := ListName.Pieces.exists_wellFormed_of_decode accepted
  rw [Bool.eq_false_iff]
  intro summary
  have marked := underscore_mem_of_isSummary summary
  rw [lastSegment, wellFormed.pieces_name] at marked
  exact absurd (wellFormed.size_count.digits '_' marked) (by decide)

/-- The name of a queue trial ends in a segment of its own. -/
theorem not_isSummary_of_queue {name : String} {key : Key}
    (accepted : QueueName.decode name = .ok key) : isSummary name = false := by
  obtain ⟨segments, _, wellFormed, rfl, -⟩ := QueueName.Segments.exists_wellFormed_of_decode accepted
  have last : lastSegment segments.name = QueueName.realTime.toList := by
    have split : segments.all = (segments.head :: (segments.before ++ segments.operations ::
        segments.after ++ [segments.threads])) ++ [QueueName.realTime] := by
      simp [QueueName.Segments.all]
    rw [lastSegment, wellFormed.pieces_name, split, List.map_append, List.map_singleton,
      List.getLast?_concat, Option.getD_some]
  rw [isSummary, last]
  decide

theorem not_isSummary_of_decode {family : Family} {name : String} {key : Key}
    (accepted : family.decode name = .ok key) : isSummary name = false := by
  cases family with
  | list => exact not_isSummary_of_list accepted
  | queue => exact not_isSummary_of_queue accepted

/-- What is put behind a name, if it has no slash, is the end of its last segment. -/
theorem suffix_lastSegment_append {ending : String} (plain : '/' ∉ ending.toList) (name : String) :
    ending.toList <:+ lastSegment (name ++ ending) := by
  obtain ⟨before, last, -, split⟩ := Text.exists_pieces_append_eq plain name.toList
  rw [lastSegment, String.toList_append, split, List.getLast?_concat, Option.getD_some]
  exact List.suffix_append last ending.toList

theorem isSummary_append {ending : String} (isEnding : ending ∈ endings) (name : String) :
    isSummary (name ++ ending) = true := by
  have plain : ∀ ending ∈ endings, '/' ∉ ending.toList := by decide
  refine List.any_eq_true.mpr ⟨ending, isEnding, ?_⟩
  exact List.isSuffixOf_iff_suffix.mpr (suffix_lastSegment_append (plain ending isEnding) name)

end SummaryName

namespace RowKind

/-- The two families ask for different numbers of segments. -/
theorem not_names_list_and_queue {name : String} (isList : (trial .list).Names name)
    (isQueue : (trial .queue).Names name) : False := by
  obtain ⟨listKey, listAccepts⟩ := isList
  obtain ⟨queueKey, queueAccepts⟩ := isQueue
  obtain ⟨head, threads, size, three⟩ := ListName.eq_triple_of_readSegments
    (ListName.decode_eq_ok_iff_readSegments.mp listAccepts)
  obtain ⟨first, middle, count, last, nonempty, more⟩ := QueueName.eq_append_of_readSegments
    (QueueName.decode_eq_ok_iff_readSegments.mp queueAccepts)
  have lengths := congrArg List.length (three.symm.trans more)
  have := List.length_pos_iff.mpr nonempty
  simp only [List.length_cons, List.length_append, List.length_nil] at lengths
  omega

theorem eq_summary_of_names {name : String} {kind : RowKind} (summary : summary.Names name)
    (names : kind.Names name) : kind = .summary := by
  cases kind with
  | summary => rfl
  | trial family =>
      obtain ⟨key, accepted⟩ := names
      rw [Names, SummaryName.not_isSummary_of_decode accepted] at summary
      contradiction

theorem eq_of_names {name : String} {first second : RowKind} (isFirst : first.Names name)
    (isSecond : second.Names name) : first = second := by
  cases first with
  | summary => exact (eq_summary_of_names isFirst isSecond).symm
  | trial family =>
      cases second with
      | summary => exact eq_summary_of_names isSecond isFirst
      | trial other =>
          cases family <;> cases other
          · rfl
          · exact (not_names_list_and_queue isFirst isSecond).elim
          · exact (not_names_list_and_queue isSecond isFirst).elim
          · rfl

/-- Every name is of at most one kind, and each ending of a summary behind a name makes it the name of
a summary, which both families refuse. -/
theorem one_kind_and_endings_summarize (name : String) :
    (∀ first second : RowKind, first.Names name → second.Names name → first = second) ∧
      ∀ ending ∈ ["_mean", "_median", "_stddev", "_cv"],
        summary.Names (name ++ ending) ∧
          ∀ family : Family, ∃ error, family.decode (name ++ ending) = .error error := by
  refine ⟨fun first second isFirst isSecond => eq_of_names isFirst isSecond, ?_⟩
  intro ending isEnding
  have summarizes : summary.Names (name ++ ending) := SummaryName.isSummary_append isEnding name
  refine ⟨summarizes, fun family => ?_⟩
  cases accepted : family.decode (name ++ ending) with
  | error error => exact ⟨error, rfl⟩
  | ok key =>
      have isTrial : (trial family).Names (name ++ ending) := ⟨key, accepted⟩
      exact absurd (eq_summary_of_names summarizes isTrial) (by simp)

/-- A queue trial with the endings of summaries in its head and in a segment before the counts. -/
def endingsInside : String := "BM_mean<Queue_cv<int>>/warm_median/10000/4/real_time"

theorem endingsInside_one_kind :
    (trial .queue).Names endingsInside ∧ ¬ (trial .list).Names endingsInside ∧
      ¬ summary.Names endingsInside ∧ summary.Names (endingsInside ++ "_mean") ∧
        ∃ error, Family.queue.decode (endingsInside ++ "_mean") = .error error := by
  have isQueue : (trial .queue).Names endingsInside :=
    ⟨⟨"Queue_cv", none, 4, .operations 10000⟩, toOption_eq_some_iff.mp (by decide +kernel)⟩
  obtain ⟨unique, summarizes⟩ := one_kind_and_endings_summarize endingsInside
  obtain ⟨isSummary, refused⟩ := summarizes "_mean" (by simp)
  refine ⟨isQueue, fun isList => ?_, fun alsoSummary => ?_, isSummary, refused .queue⟩
  · exact absurd (unique _ _ isList isQueue) (by decide)
  · exact absurd (unique _ _ alsoSummary isQueue) (by decide)

end RowKind

end ThroughputCharts
