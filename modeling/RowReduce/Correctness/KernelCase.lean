import RowReduce.Correctness.CommandLine
import RowReduce.Correctness.KernelRun

/-!
# A case on the kernels

For every case of the matrix there is a pinned host whose device runs the kernels on
rational arithmetic, and its run prints one passing record for each launch.
-/

namespace RowReduce

open BinaryFloat

/-- The pinned host of a case, reading its arithmetic by `rd`, on a device of its pages. -/
def kernelHost (rd : Rounding binary64) (case : Case) : HostEnv where
  rd
  upstream := projectUpstream
  device := kernelDevice (padded case.rows.toNat / 32) (padded case.cols.toNat / 32)
  upstreamCommit := metalCommit
  sourceCommit := "aaaaaaaaaaaaaaaaaaaaaaaaaaaaaaaaaaaaaaaa"
  simulator := true
  profiler := none

section Host

variable (rd : Rounding binary64) {case : Case}

/-- Its commits are the pinned ones. -/
theorem kernelHost_pinned (case : Case) : (kernelHost rd case).Pinned := by
  have hcommit : isCommit "aaaaaaaaaaaaaaaaaaaaaaaaaaaaaaaaaaaaaaaa" = true := by decide +kernel
  exact ⟨rfl, rfl, hcommit⟩

/-- Its device runs the kernels on the pages of the case. -/
theorem kernelHost_runsKernels (case : Case) :
    (kernelHost rd case).device.RunsKernels rationalEngine
    (padded case.rows.toNat / 32) (padded case.cols.toNat / 32) :=
  kernelDevice_runsKernels _ _

/-- The host prints as many records as the case asks for, all passing, on a correct device. -/
theorem exists_kernelHost_run (h : case.Valid) : ∃ first,
    beforeDevice (kernelHost rd case) (fun _ => none) (case.command none) =
        .ok (case.options none, first) ∧
      CorrectDevice (kernelHost rd case) (case.options none) first ∧
      (main (kernelHost rd case) (fun _ => none) (case.command none)).records =
        (run (kernelHost rd case) (case.options none) first).1 ∧
      (main (kernelHost rd case) (fun _ => none) (case.command none)).exitCode = 0 ∧
      (run (kernelHost rd case) (case.options none) first).1.length = case.repeats.toNat ∧
      ∀ record ∈ (run (kernelHost rd case) (case.options none) first).1,
        record.status = "pass" := by
  obtain ⟨first, hbefore⟩ : ∃ first, beforeDevice (kernelHost rd case) (fun _ => none)
      (case.command none) = .ok (case.options none, first) :=
    @Case.Valid.exists_beforeDevice _ h (kernelHost rd case) projectUpstream_uploadAgrees
      fun _ => none
  have hlaws := rationalEngine_laws (fillScaler scalerArgument)
  have hkernels := kernelHost_runsKernels rd case
  obtain ⟨hdevice, hlength, hstatus⟩ := Device.RunsKernels.onDevice_eq projectUpstream_uploadAgrees
    projectUpstream_untilizeAgrees hlaws hbefore hkernels
  refine ⟨first, hbefore, hkernels.correct hlaws hbefore, (main_records hbefore).2 rfl, ?_, hlength,
    hstatus⟩
  rw [main_of_beforeDevice hbefore, hdevice]
  rfl

end Host

end RowReduce
