import ThroughputCharts.Main
import ThroughputCharts.Proofs.Results
import ThroughputCharts.Proofs.KeyOrder
import ThroughputCharts.Proofs.Grouping
import ThroughputCharts.Proofs.ListNameRoundTrip
import ThroughputCharts.Proofs.TrialOrder
import ThroughputCharts.Proofs.InputFailures
import ThroughputCharts.Proofs.PlottedMarkers
import ThroughputCharts.Proofs.SeriesOrder
import ThroughputCharts.Proofs.MarkerMultiplicity
import ThroughputCharts.Proofs.QueueNameGrammar
import ThroughputCharts.Proofs.BinaryRounding
import ThroughputCharts.Proofs.CsvReading
import ThroughputCharts.Proofs.WrittenTables
import ThroughputCharts.Proofs.NumberText
import ThroughputCharts.Proofs.NameKinds
import ThroughputCharts.Proofs.WrappedQueues
import ThroughputCharts.Proofs.FallbackVariant
import ThroughputCharts.Proofs.NameFaults
import ThroughputCharts.Proofs.ByteOffsets
import ThroughputCharts.Proofs.OffsetDecoding
import ThroughputCharts.Proofs.SampleNames
import ThroughputCharts.Proofs.SampleRecords
import ThroughputCharts.Proofs.SampleReport
import ThroughputCharts.Proofs.SampleDraws
import ThroughputCharts.Proofs.RowAccounts
import ThroughputCharts.Proofs.UnconfiguredVariants
import ThroughputCharts.Proofs.RefusedNames
import ThroughputCharts.Proofs.TableReading
import ThroughputCharts.Proofs.TableRoundTrip
import ThroughputCharts.Proofs.FilePlaces
import ThroughputCharts.Proofs.EndlessLoops
import ThroughputCharts.Proofs.StepSearch
import ThroughputCharts.Proofs.ModerateRanges
import ThroughputCharts.Proofs.Overflow
import ThroughputCharts.Proofs.VastRanges
import ThroughputCharts.Proofs.UnendingAxes
import ThroughputCharts.Proofs.FileSteps
import ThroughputCharts.Proofs.ReportOrder
import ThroughputCharts.Proofs.JsonReader
import ThroughputCharts.Proofs.JsonText
import ThroughputCharts.Proofs.ExportRoundTrip
import ThroughputCharts.Proofs.FloatValue
import ThroughputCharts.Proofs.FloatRange
import ThroughputCharts.Proofs.FiniteOperations
import ThroughputCharts.Proofs.FiniteMeans
import ThroughputCharts.Proofs.FloatRounding
import ThroughputCharts.Proofs.FloatWhole
import ThroughputCharts.Proofs.OrderOfMagnitude
import ThroughputCharts.Proofs.RestatedPoints
import ThroughputCharts.Proofs.TickMultiples
import ThroughputCharts.Proofs.ThreadRange
import ThroughputCharts.Proofs.TickSpacing
import ThroughputCharts.Proofs.TickPositions
import ThroughputCharts.Proofs.ThreadLabels
import ThroughputCharts.Proofs.MeasuredCells
import ThroughputCharts.Proofs.CountReading
import ThroughputCharts.Proofs.SummaryRows
import ThroughputCharts.Proofs.RelativeError
import ThroughputCharts.Proofs.LabelReading
import ThroughputCharts.Proofs.ThroughputMultiples
import ThroughputCharts.Proofs.ThroughputSpacing
import ThroughputCharts.Proofs.ThroughputTicks
import ThroughputCharts.Proofs.ScientificLabels
import ThroughputCharts.Proofs.ThroughputLabels
