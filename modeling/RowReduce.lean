import RowReduce.Correctness.DevicePipeline
import RowReduce.Host.Encoding
import RowReduce.Host.Pattern
import RowReduce.Correctness.InputBytes
import RowReduce.Host.Compare
import RowReduce.Host.Options
import RowReduce.Host.Main
import RowReduce.Correctness.Readback
import RowReduce.Correctness.Verdict
import RowReduce.Runner.RunCase
import RowReduce.Correctness.Regeneration
import RowReduce.Correctness.PassingCase
import RowReduce.Correctness.AuditRefinement
import RowReduce.Correctness.HostAgreement
import RowReduce.Correctness.Preparation
import RowReduce.Correctness.CpuReference
import RowReduce.Correctness.OutputDecoding
import RowReduce.Correctness.StaleReadback
import RowReduce.Correctness.RejectionRecord
import RowReduce.Correctness.RepeatCase
import RowReduce.Correctness.WordFormats
import RowReduce.Correctness.TwisterSequence
import RowReduce.Correctness.IntegratedPath
import RowReduce.Correctness.ProfilerZones
import RowReduce.Correctness.BuildLock
import RowReduce.Correctness.AuditStatus
import RowReduce.Correctness.CpuOutput
import RowReduce.Correctness.KernelRun
import RowReduce.Correctness.MatrixPass
import RowReduce.Correctness.AuditedRun
import RowReduce.Correctness.RejectionPass
import RowReduce.Correctness.FetchedSimulator
