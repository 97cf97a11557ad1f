import RowReduce.Correctness.CorrectRun
import RowReduce.Correctness.DevicePipeline
import RowReduce.Kernel.Launch

/-!
# The program on its own kernels

The readback of finished kernels is correct under every schedule, so the program
accepts every launch of every accepted command.
-/

namespace RowReduce

open BinaryFloat Fallible Grid Transition

/-- Pages written in order replace the buffer from its start. -/
theorem writePages_range (page : ℕ → List Bf16Word) (hlen : ∀ t, (page t).length = 1024)
    (buffer : List Bf16Word) (n : ℕ) (hn : n * 1024 ≤ buffer.length) :
    writePages buffer ((List.range n).map fun t => (t, page t)) =
      (List.range n).flatMap page ++ buffer.drop (1024 * n) := by
  induction n with
  | zero => rfl
  | succ n ih =>
    have hn' : n * 1024 ≤ buffer.length := (Nat.mul_le_mul_right 1024 n.le_succ).trans hn
    have hflat : ((List.range n).flatMap page).length = 1024 * n := by
      simp [List.length_flatMap, hlen, Nat.mul_comm]
    have hlast : writePages buffer ((List.range (n + 1)).map fun t => (t, page t)) =
        writePage (writePages buffer ((List.range n).map fun t => (t, page t))) (n, page n) := by
      simp only [List.range_succ, List.map_append, writePages, List.foldl_append, List.map_cons,
        List.map_nil, List.foldl_cons, List.foldl_nil]
    have hdrop : ((List.range n).flatMap page ++ buffer.drop (1024 * n)).drop (1024 * (n + 1)) =
        buffer.drop (1024 * (n + 1)) := by
      have hsplit : 1024 * (n + 1) = ((List.range n).flatMap page).length + 1024 := by omega
      rw [hsplit, List.drop_length_add_append, List.drop_drop, hflat]
    rw [hlast, ih hn', writePage, hdrop, List.take_append_of_le_length hflat.ge,
      List.take_of_length_le hflat.le, List.range_succ, List.flatMap_append,
      List.flatMap_singleton, List.append_assoc]

section Readback

variable {Dest : Type} {engine : TileEngine (List Bf16Word) Dest} {read : Dest → ℕ → ℕ → ℚ}
  {m : QuantizedMatrix} {prepared : PreparedInput} {output words : List Word32}

/-- Finished kernels have replaced the whole output buffer by the pages of the upload. -/
theorem KernelReadback.eq_packWords (hlaws : RowSumLaws engine (fillScaler scalerArgument) read)
    {ht wt : ℕ} {upload : List Word32} (hlen : output.length = ht * 512)
    (h : KernelReadback engine ht wt upload output words) :
    words = packWords (deviceOutput engine (fillScaler scalerArgument)
      ht wt (resultBits upload)) := by
  obtain ⟨inputSlots, scalerSlots, outputSlots, dest, s, hs, hfinished, rfl⟩ := h
  have hinv := pipelineInvariant_of_reachable _ inputSlots scalerSlots outputSlots dest hs
  have hbuffer : ht * 1024 = (resultBits output).length := by
    rw [length_resultBits, hlen]
    omega
  rw [hinv.written_of_finished hfinished, PipelineConfig.pages]
  congr 1
  refine (writePages_range _ (fun t => hlaws.pack_length _) _ ht hbuffer.le).trans ?_
  rw [Nat.mul_comm, List.drop_of_length_le hbuffer.ge, List.append_nil]
  rfl

/-- The device writes one page for each row of tiles. -/
theorem length_deviceOutput (hlaws : RowSumLaws engine (fillScaler scalerArgument) read) (ht wt : ℕ)
    (tiled : List Bf16Word) :
    (deviceOutput engine (fillScaler scalerArgument) ht wt tiled).length = ht * 1024 := by
  simp [deviceOutput, List.length_flatMap, outputPage, hlaws.pack_length]

/-- So what is read back are the rounded row sums of the uploaded input. -/
theorem KernelReadback.correct (hlaws : RowSumLaws engine (fillScaler scalerArgument) read)
    {options : Options} (hshape : options.shape = m.shape) (hrep : m.Represents prepared)
    (hlen : output.length = padded m.shape.rows / 32 * 512)
    (h : KernelReadback engine (padded m.shape.rows / 32) (padded m.shape.cols / 32)
      (packWords prepared.tiled) output words) : CorrectReadback options prepared words := by
  have hrows := padded_mod m.shape.rows
  have hpages := length_deviceOutput hlaws (padded m.shape.rows / 32) (padded m.shape.cols / 32)
    prepared.tiled
  have hbits : resultBits words = deviceOutput engine (fillScaler scalerArgument)
      (padded m.shape.rows / 32) (padded m.shape.cols / 32) prepared.tiled := by
    rw [h.eq_packWords hlaws hlen, hrep.resultBits_upload]
    exact resultBits_packWords (by omega)
  have hword := fun {r c : ℕ} (hr : r < padded m.shape.rows) (hc : c < 32) =>
    outputWord_deviceOutput hlaws hrep hr hc
  rw [← hbits] at hword
  refine ⟨?_, fun r hr => ?_, fun r c hr hc hother => ?_⟩
  · rw [hbits, hpages, hshape]
    omega
  · rw [hshape] at hr
    rw [hword (hr.trans_le (le_padded _)) (by norm_num), if_pos rfl,
      QuantizedMatrix.sum_paddedValue hr, hrep.row_eq hr]
    rfl
  · rw [hshape] at hr hother
    rw [hword hr hc]
    split_ifs with hc0
    · rw [QuantizedMatrix.sum_paddedValue_of_le (not_lt.mp fun hlt => hother ⟨hlt, hc0⟩),
        roundToBf16_zero]
      rfl
    · rfl

/-- Some schedule finishes, and leaves these pages. -/
theorem exists_kernelReadback (hlaws : RowSumLaws engine (fillScaler scalerArgument) read)
    {ht wt : ℕ} (upload : List Word32) (hlen : output.length = ht * 512) :
    KernelReadback engine ht wt upload output
      (packWords (deviceOutput engine (fillScaler scalerArgument) ht wt (resultBits upload))) := by
  obtain ⟨s, hs, hfinished, _⟩ := exists_finished_deviceOutput (launchConfig engine ht wt upload)
    (resultBits upload) rfl (fun _ => []) (fun _ => []) (fun _ => []) engine.acquire
  have h : KernelReadback engine ht wt upload output
      (packWords (writePages (resultBits output) s.written)) :=
    ⟨_, _, _, _, s, hs, hfinished, rfl⟩
  rwa [h.eq_packWords hlaws hlen] at h

/-- Any input passes on its rounded row sums, whether generated or from a file. -/
theorem CorrectReadback.status {env : HostEnv} {options : Options} {first : PreparedInput} {i : ℕ}
    {pattern : String} {exact : Bool} (hwords : CorrectReadback options prepared words)
    (hlaunched : Launched env options first i pattern prepared m exact words)
    (hlabel : (i = 0 ∧ options.inputFile ≠ "" ∧ pattern = "file") ∨
      ∃ p : Pattern, pattern = p.name ∧ (i = 0 → p.name = options.pattern) ∧
        Generated options p prepared) :
    (launchRecord env options i pattern prepared m exact words).status = "pass" := by
  have hshape := hlaunched.launchInput.shape
  have hrep := hlaunched.launchInput.represents
  have hexact := hlaunched.launchInput.exact
  rw [launchRecord_status_iff]
  rcases hlabel with ⟨_, _, rfl⟩ | ⟨p, rfl, _, hgenerated⟩
  · obtain rfl : false = exact := Except.ok.inj hexact
    have hpadding := hwords.padding
    rw [hshape] at hpadding
    refine ⟨fun r hr => ?_, hpadding⟩
    have hs := QuantizedMatrix.rowSum_onGrid hr
    have hrow : (prepared.row r).sum = m.rowSum r := by
      rw [hrep.row_eq hr]
      rfl
    rw [hwords.rows r (hshape ▸ hr), hrow, roundToBf16, bf16Value_encode_of_onGrid hs]
    exact rowPasses_of_abs_sub_le env.rd hs (m.rowAbsSum_nonneg r) m.valid.2.2.2
      (abs_round_sub_le_of_onGrid hs)
  · obtain rfl : p.isExact = exact := Except.ok.inj ((launchIsExact_name p).symm.trans hexact)
    exact hwords.passes hgenerated hshape hrep

end Readback

section Run

variable {Dest : Type} {engine : TileEngine (List Bf16Word) Dest} {read : Dest → ℕ → ℕ → ℚ}
  {env : HostEnv} {files : String → Option InputFile} {args : List String} {options : Options}
  {first : PreparedInput} {ht wt : ℕ}

/-- A device that runs the kernels raises nothing. -/
theorem Device.RunsKernels.quiet {d : Device}
    (hlaws : RowSumLaws engine (fillScaler scalerArgument) read) (h : d.RunsKernels engine ht wt) :
    d.Quiet ht where
  wormhole := h.wormhole
  setup := h.setup
  launch i upload output hlen := by
    obtain ⟨words, hwords, hkernels⟩ := h.launch i upload output hlen
    refine ⟨words, hwords, ?_⟩
    have hpages := length_deviceOutput hlaws ht wt (resultBits upload)
    rw [hkernels.eq_packWords hlaws hlen, packWords, List.length_map, List.length_range]
    omega
  readProfiler := h.readProfiler

/-- Kernels launched by an accepted command return correct readbacks. -/
theorem Device.RunsKernels.correct (hlaws : RowSumLaws engine (fillScaler scalerArgument) read)
    (hbefore : beforeDevice env files args = .ok (options, first))
    (h : env.device.RunsKernels engine (padded options.shape.rows / 32)
      (padded options.shape.cols / 32)) : CorrectDevice env options first := by
  intro i pattern prepared upload words hinput hupload hread
  obtain ⟨m, hshape, hrep⟩ := inputSequence_represented hbefore hinput
  have hlen := length_poison (prepared.paddedRows / 32)
  rw [← hshape] at h
  rw [hrep.paddedRows] at hlen hread
  obtain ⟨words', hwords, hkernels⟩ := h.launch i upload _ hlen
  obtain rfl := Except.ok.inj (hwords.symm.trans hread)
  rw [transferWords_eq_ok hupload] at hkernels
  exact hkernels.correct hlaws hshape.symm hrep hlen

/-- Every launch of an accepted command is delivered and passes. -/
theorem Device.RunsKernels.onDevice_eq (hagree : env.upstream.UploadAgrees)
    (hup : env.upstream.UntilizeAgrees)
    (hlaws : RowSumLaws engine (fillScaler scalerArgument) read)
    (hbefore : beforeDevice env files args = .ok (options, first))
    (h : env.device.RunsKernels engine (padded options.shape.rows / 32)
      (padded options.shape.cols / 32)) :
    onDevice env options first = ((run env options first).1, .ok true) ∧
      (run env options first).1.length = options.repeats ∧
      ∀ record ∈ (run env options first).1, record.status = "pass" := by
  have hcorrect := h.correct hlaws hbefore
  obtain ⟨pass, hok⟩ := (run_quiet hup hbefore (h.quiet hlaws)).2 hagree
  obtain ⟨hrecords, hverdict⟩ := run_spec hup hbefore
  obtain ⟨hlength, hpass⟩ := hverdict pass hok
  have hstatus : ∀ record ∈ (run env options first).1, record.status = "pass" := by
    intro record hmem
    obtain ⟨i, hi⟩ := List.mem_iff_getElem?.mp hmem
    obtain ⟨pattern, prepared, m, exact, words, hlaunched, rfl⟩ := hrecords i record hi
    obtain ⟨upload, hupload, hread⟩ := hlaunched.readback
    obtain ⟨hc, _⟩ := beforeDevice_runContext hup hbefore
    exact (hcorrect i _ _ upload words hlaunched.input hupload hread).status hlaunched
      (inputSequence_label hc.valid hc.nodes (fun hf => beforeDevice_generated hbefore hf)
        hlaunched.input)
  have hall : pass = true := by
    rw [hpass, List.all_eq_true]
    exact fun record hmem => decide_eq_true (hstatus record hmem)
  refine ⟨?_, hlength, hstatus⟩
  rw [onDevice, h.createUnitMesh, ← Prod.mk.eta (p := run env options first), hok, hall, h.close]
  rfl

/-- On its own kernels, under every schedule, the program accepts every launch of every accepted
command, generated or from a file. -/
theorem main_runsKernels (hagree : env.upstream.UploadAgrees) (hup : env.upstream.UntilizeAgrees)
    (hlaws : RowSumLaws engine (fillScaler scalerArgument) read)
    (hbefore : beforeDevice env files args = .ok (options, first))
    (h : env.device.RunsKernels engine (padded options.shape.rows / 32)
      (padded options.shape.cols / 32)) :
    (main env files args).exitCode = 0 ∧ (main env files args).errors = [] ∧
      (main env files args).records.length = options.repeats ∧
      ∀ record ∈ (main env files args).records, record.status = "pass" := by
  obtain ⟨hdevice, hlength, hstatus⟩ := h.onDevice_eq hagree hup hlaws hbefore
  rw [main_of_beforeDevice hbefore, hdevice]
  exact ⟨rfl, rfl, hlength, hstatus⟩

end Run

/-- A device whose launches leave what the kernels leave over rational arithmetic. -/
def kernelDevice (ht wt : ℕ) : Device :=
  { idleDevice with
    launch := fun _ upload _ => .ok
      (packWords (deviceOutput rationalEngine (fillScaler scalerArgument)
        ht wt (resultBits upload))) }

/-- The device of the kernels runs them. -/
theorem kernelDevice_runsKernels (ht wt : ℕ) :
    (kernelDevice ht wt).RunsKernels rationalEngine ht wt where
  createUnitMesh := rfl
  wormhole := rfl
  setup := rfl
  launch _ upload _ hlen :=
    ⟨_, rfl, exists_kernelReadback (rationalEngine_laws (fillScaler scalerArgument)) upload hlen⟩
  readProfiler _ := rfl
  close := rfl

def kernelEnv (ht wt : ℕ) : HostEnv := { idleEnv with device := kernelDevice ht wt }

/-- Three launches of the default input, one page each. -/
theorem main_runsKernels_rational : ∃ options first,
    beforeDevice (kernelEnv 1 1) (fun _ => none) ["--repeat", "3"] = .ok (options, first) ∧
      (main (kernelEnv 1 1) (fun _ => none) ["--repeat", "3"]).exitCode = 0 ∧
      (main (kernelEnv 1 1) (fun _ => none) ["--repeat", "3"]).records.length = 3 := by
  have hspell : SpellsAll [.repeats 3] ["--repeat", "3"] :=
    SpellsAll.cons (.repeats ⟨by decide, by decide, by decide, by decide⟩) SpellsAll.nil
  obtain ⟨⟨options, first⟩, hbefore⟩ := (@exists_beforeDevice_iff (kernelEnv 1 1) (fun _ => none)
    projectUpstream_uploadAgrees ["--repeat", "3"]).mpr ⟨_, hspell, ⟨by decide, by decide⟩,
      by decide, rfl, by simp, Or.inl ⟨rfl, .random, rfl⟩⟩
  have hparse : parseOptions ["--repeat", "3"] = .ok { repeats := 3 } := by decide +kernel
  obtain rfl := Except.ok.inj ((parseOptions_of_beforeDevice hbefore).symm.trans hparse)
  have hrun := @main_runsKernels _ rationalEngine _ (kernelEnv 1 1) (fun _ => none)
    ["--repeat", "3"] _ first projectUpstream_uploadAgrees projectUpstream_untilizeAgrees
    (rationalEngine_laws (fillScaler scalerArgument)) hbefore (kernelDevice_runsKernels 1 1)
  exact ⟨_, first, hbefore, hrun.1, hrun.2.2.1⟩

end RowReduce
