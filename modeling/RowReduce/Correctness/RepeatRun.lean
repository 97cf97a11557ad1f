import RowReduce.Core.Transition
import RowReduce.Correctness.PatternSums
import RowReduce.Correctness.RowSums
import RowReduce.Correctness.Verdict

/-!
# What the repeat loop keeps

Between launches the loop replaces input, label and reference, while the
program's tile counts, the buffers and the options stay. The invariant holds at
every launch of a run, from any accepted first input.
-/

namespace RowReduce

open BinaryFloat Fallible Grid Transition

variable {env : HostEnv} {files : String → Option InputFile} {args : List String}
  {options : Options} {first : PreparedInput}

/-- One completed pass of the loop, its counter included. -/
def LoopStep (env : HostEnv) (options : Options) (ht : ℕ) (a b : ℕ × RunState) : Prop :=
  a.1 < options.repeats ∧ b.1 = a.1 + 1 ∧
    (∃ record, runIteration env options ht a.2 a.1 = .ok (record, b.2)) ∧
    (options.profile = true → env.device.readProfiler a.1 = .ok ())

/-- The loop stands before iteration `i` in state `s`. -/
def Reaches (env : HostEnv) (options : Options) (first : PreparedInput) (i : ℕ) (s : RunState) :
    Prop :=
  Reachable (LoopStep env options (first.paddedRows / 32))
    (0, ⟨firstPattern options, first, true⟩) (i, s)

/-- What a completed pass did. -/
theorem runIteration_cases {ht i : ℕ} {s s' : RunState} {record : ResultRecord}
    (h : runIteration env options ht s i = .ok (record, s')) :
    ∃ pattern prepared upload words j, launchInput env options s i = .ok (pattern, prepared) ∧
      transferWords env.upstream prepared = .ok upload ∧
      env.device.launch i upload (poison ht) = .ok words ∧ words.length = (poison ht).length ∧
      judgeReadback env options pattern prepared (resultBits words) = .ok j ∧
      record = emitResult env options pattern i prepared j (resultBits words)
        (env.device.seconds i) ∧
      s'.pattern = pattern ∧ s'.prepared = prepared := by
  simp only [runIteration, bind_eq_ok_iff, throwIf_eq_ok_iff, not_not, pure_eq_ok,
    Except.ok.injEq, Prod.mk.injEq] at h
  obtain ⟨⟨pattern, prepared⟩, hin, upload, hupload, words, hwords, _, hlen, j, hj, hrecord,
      rfl⟩ := h
  exact ⟨pattern, prepared, upload, words, j, hin, hupload, hwords, hlen, hj, hrecord.symm,
    rfl, rfl⟩

/-- The input of a reached iteration is the one of the sequence, and the
state holds the one before. -/
theorem Reaches.inputs {i : ℕ} {s : RunState} (h : Reaches env options first i s) :
    launchInput env options s i = inputSequence env options first i ∧
      inputSequence env options first (i - 1) = .ok (s.pattern, s.prepared) := by
  refine @Reachable.invariant _ _ _ _ (fun a => launchInput env options a.2 a.1 =
    inputSequence env options first a.1 ∧
      inputSequence env options first (a.1 - 1) = .ok (a.2.pattern, a.2.prepared)) h
    ⟨rfl, rfl⟩ ?_
  rintro ⟨i, s⟩ ⟨i', s'⟩ ⟨hinput, _⟩ ⟨_, hi, ⟨record, hstep⟩, _⟩
  obtain ⟨pattern, prepared, _, _, _, hin, _, _, _, _, _, hpattern, hprepared⟩ :=
    runIteration_cases hstep
  dsimp only at hi hinput ⊢
  subst hi
  have hsequence : inputSequence env options first i = .ok (s'.pattern, s'.prepared) := by
    rw [← hinput, hin, hpattern, hprepared]
  exact ⟨launchInput_succ hsequence, hsequence⟩

section Upload

variable {m : QuantizedMatrix} {prepared : PreparedInput}

/-- A constant pattern uploads one word everywhere. -/
theorem Generated.quantized_eq {p : Pattern} {w : Bf16Word}
    (hgenerated : Generated options p prepared) (hp : p ≠ .random)
    (hw : ∀ rows cols : ℤ, ∀ r c : ℕ, patternWord rows cols r c p = w)
    (hshape : options.shape = m.shape) (hrep : m.Represents prepared) :
    ∀ bits ∈ prepared.quantized, bits = w := by
  rw [hrep.quantized, QuantizedMatrix.words, List.forall_mem_map]
  intro q hq
  obtain ⟨hr, hc⟩ := mem_positions.mp hq
  rw [hgenerated.word_eq hp hshape hrep hr hc, hw]

private theorem QuantizedMatrix.Represents.quantized_ne_nil (hrep : m.Represents prepared) :
    prepared.quantized ≠ [] := by
  have hpos := Nat.mul_pos m.valid.1 m.valid.2.2.1
  rw [hrep.quantized, ← List.length_pos_iff, QuantizedMatrix.words, List.length_map,
    length_positions]
  exact hpos

/-- The words a launch uploads are the packed tiles. -/
theorem transferWords_eq_ok {up : Upstream} {upload : List Word32}
    (h : transferWords up prepared = .ok upload) : upload = packWords prepared.tiled := by
  simp only [transferWords, bind_eq_ok_iff, throwIf_eq_ok_iff, not_not, pure_eq_ok,
    Except.ok.injEq] at h
  obtain ⟨_, htiled, rfl⟩ := h
  rw [htiled]

/-- The uploaded words are the tiles. -/
theorem QuantizedMatrix.Represents.resultBits_upload (hrep : m.Represents prepared) :
    resultBits (packWords prepared.tiled) = prepared.tiled := by
  have := padded_mod m.shape.rows
  refine resultBits_packWords ?_
  rw [hrep.length_tiled, Nat.mul_mod, show padded m.shape.rows % 2 = 0 by omega, Nat.zero_mul]

/-- Equal uploads of represented inputs of one shape have equal words. -/
theorem quantized_eq_of_packWords_eq {m' : QuantizedMatrix} {prepared' : PreparedInput}
    (hrep : m.Represents prepared) (hrep' : m'.Represents prepared') (hshape : m'.shape = m.shape)
    (h : packWords prepared'.tiled = packWords prepared.tiled) :
    prepared'.quantized = prepared.quantized := by
  have htiled : prepared'.tiled = prepared.tiled := by
    rw [← hrep'.resultBits_upload, h, hrep.resultBits_upload]
  rw [hrep'.quantized, hrep.quantized, QuantizedMatrix.words, QuantizedMatrix.words, hshape]
  apply List.map_congr_left
  intro p hp
  obtain ⟨hr, hc⟩ := mem_positions.mp hp
  have hpr := hr.trans_le (le_padded m.shape.rows)
  have hpc := hc.trans_le (le_padded m.shape.cols)
  have hword := hrep.getElem?_tiled hpr hpc
  rw [← hshape] at hpr hpc
  have hword' := hrep'.getElem?_tiled hpr hpc
  rw [hshape, htiled, hword] at hword'
  have := Option.some.inj hword'
  rw [QuantizedMatrix.paddedWord, QuantizedMatrix.paddedWord, hshape, if_pos ⟨hr, hc⟩,
    if_pos ⟨hr, hc⟩] at this
  exact this.symm

private theorem length_packWords_tiled (hrep : m.Represents prepared) :
    (packWords prepared.tiled).length =
      padded m.shape.rows / 32 * (padded m.shape.cols / 32) * 512 := by
  obtain ⟨a, ha⟩ := Nat.dvd_of_mod_eq_zero (padded_mod m.shape.rows)
  obtain ⟨b, hb⟩ := Nat.dvd_of_mod_eq_zero (padded_mod m.shape.cols)
  rw [packWords, List.length_map, List.length_range, hrep.length_tiled, ha, hb,
    Nat.mul_div_cancel_left _ (by norm_num), Nat.mul_div_cancel_left _ (by norm_num),
    show 32 * a * (32 * b) = a * b * 512 * 2 by ring, Nat.mul_div_cancel _ (by norm_num)]

end Upload

/-- Iteration `i` is reached in state `s` and uploads these words for its input. -/
structure Launching (env : HostEnv) (options : Options) (first : PreparedInput) (i : ℕ)
    (s : RunState) (pattern : String) (prepared : PreparedInput) (upload : List Word32) : Prop where
  reached : Reaches env options first i s
  input : launchInput env options s i = .ok (pattern, prepared)
  upload : transferWords env.upstream prepared = .ok upload

/-- What every launch finds: the dimensions of the program, a truthful label, its own reference. -/
structure LaunchInvariant (options : Options) (first : PreparedInput) (i : ℕ) (pattern : String)
    (prepared : PreparedInput) (upload : List Word32) : Prop where
  represented : ∃ m : QuantizedMatrix, m.shape = options.shape ∧ m.Represents prepared
  paddedRows : prepared.paddedRows = first.paddedRows
  paddedCols : prepared.paddedCols = first.paddedCols
  upload_eq : upload = packWords prepared.tiled
  pages : upload.length = first.paddedRows / 32 * (first.paddedCols / 32) * 512
  label : (i = 0 ∧ options.inputFile ≠ "" ∧ pattern = "file") ∨
    ∃ p : Pattern, pattern = p.name ∧ (i = 0 → p.name = options.pattern) ∧
      Generated options p prepared
  reference : prepared.reference = (List.range options.shape.rows).map fun r =>
    { sum := .finite (prepared.row r).sum, absSum := .finite ((prepared.row r).map abs).sum }

/-- The result rows as the program untilizes them. -/
def resultRows (env : HostEnv) (options : Options) (paddedRows : ℕ) (words : List Word32) :
    List Float32 :=
  let rowMajor := env.upstream.untilizeNfaces (resultBits words) paddedRows 32
  (List.range options.shape.rows).map fun r => bf16ToFloat (rowMajor.getD (r * 32) 0)

/-- What a printed record says about its launch. -/
structure RecordInvariant (env : HostEnv) (options : Options) (first : PreparedInput) (i : ℕ)
    (pattern : String) (prepared : PreparedInput) (upload words : List Word32)
    (record : ResultRecord) : Prop where
  readback : env.device.launch i upload (poison (first.paddedRows / 32)) = .ok words
  length : words.length = first.paddedRows / 32 * 512
  pattern_eq : record.pattern = pattern
  quantizedBitsHex : record.quantizedBitsHex = quantizedBitsHex prepared.quantized
  exact : launchIsExact pattern = .ok record.exact
  comparison : compareRows env.rd (resultRows env options first.paddedRows words)
    prepared.reference options.shape.cols record.exact = .ok record.comparison

/-- What the readback was judged by. -/
theorem judgeReadback_cases {pattern : String} {prepared : PreparedInput} {words : List Word32}
    {j : Judgement}
    (h : judgeReadback env options pattern prepared (resultBits words) = .ok j) :
    launchIsExact pattern = .ok j.exact ∧
      compareRows env.rd (resultRows env options prepared.paddedRows words) prepared.reference
        options.shape.cols j.exact = .ok j.comparison := by
  simp only [judgeReadback, bind_eq_ok_iff] at h
  obtain ⟨exact, hexact, comparison, hcomparison, h⟩ := h
  split_ifs at h with hpass
  · simp only [bind_eq_ok_iff, pure_eq_ok, Except.ok.injEq] at h
    obtain ⟨_, _, _, _, rfl⟩ := h
    exact ⟨hexact, hcomparison⟩
  · obtain rfl := Except.ok.inj h
    exact ⟨hexact, hcomparison⟩

section Accepted

variable (h : beforeDevice env files args = .ok (options, first))

include h

/-- Every input of the sequence represents a matrix of the run's shape. -/
theorem inputSequence_represented {i : ℕ} {pattern : String} {prepared : PreparedInput}
    (hinput : inputSequence env options first i = .ok (pattern, prepared)) :
    ∃ m : QuantizedMatrix, m.shape = options.shape ∧ m.Represents prepared := by
  obtain ⟨hv, hnodes, _, _, hfirst⟩ := beforeDevice_launchInput h
  obtain ⟨m, _, hlaunch⟩ := inputSequence_launchInput hv hnodes hfirst hinput
  exact ⟨m, hlaunch.shape.symm, hlaunch.represents⟩

/-- A launch keeps the invariant. -/
theorem Launching.invariant {i : ℕ} {s : RunState} {pattern : String} {prepared : PreparedInput}
    {upload : List Word32} (hl : Launching env options first i s pattern prepared upload) :
    LaunchInvariant options first i pattern prepared upload := by
  obtain ⟨hv, hnodes, _, _, hfirst⟩ := beforeDevice_launchInput h
  have hinput := hl.reached.inputs.1.symm.trans hl.input
  obtain ⟨m, hshape, hrep⟩ := inputSequence_represented h hinput
  have hrows : first.paddedRows = padded m.shape.rows := by
    rw [hfirst.represents.paddedRows, ← hfirst.shape, hshape]
  have hcols : first.paddedCols = padded m.shape.cols := by
    rw [hfirst.represents.paddedCols, ← hfirst.shape, hshape]
  have hupload := transferWords_eq_ok hl.upload
  refine ⟨⟨m, hshape, hrep⟩, by rw [hrep.paddedRows, hrows], by rw [hrep.paddedCols, hcols],
    hupload, ?_, inputSequence_label hv hnodes (beforeDevice_generated h) hinput, ?_⟩
  · rw [hupload, length_packWords_tiled hrep, hrows, hcols]
  · rw [hrep.reference, ← hshape]
    apply List.map_congr_left
    intro r hr
    rw [hrep.row_eq (List.mem_range.mp hr), List.map_map]
    rfl

/-- The input of a later launch is generated, from ones or else from zeros. -/
theorem nextInput_generated {previous prepared : PreparedInput} {pattern : String}
    (hnext : nextInput env options previous = .ok (pattern, prepared)) :
    ∃ p : Pattern,
      p = (if previous.quantized.all (fun bits => bits == 0x3f80#16) then .zero else .ones) ∧
      pattern = p.name ∧ Generated options p prepared ∧
      ∃ m : QuantizedMatrix, m.shape = options.shape ∧ m.Represents prepared := by
  obtain ⟨hv, hnodes, _⟩ := beforeDevice_launchInput h
  obtain ⟨p, prepared', values, haccept, hp, hmake, hrep, _, hok | herr⟩ :=
    nextInput_cases env hv hnodes previous
  · obtain ⟨rfl, rfl⟩ := Prod.mk.inj (Except.ok.inj (hok.symm.trans hnext))
    exact ⟨p, hp, rfl, ⟨values, hmake, by rw [hrep.quantized, words_quantize]⟩, _, rfl, hrep⟩
  · rw [herr] at hnext
    cases hnext

/-- The input of a later launch differs from the one before in its words. -/
theorem nextInput_quantized_ne {previous prepared : PreparedInput} {pattern : String}
    {m : QuantizedMatrix} (hrep : m.Represents previous)
    (hnext : nextInput env options previous = .ok (pattern, prepared)) :
    prepared.quantized ≠ previous.quantized := by
  obtain ⟨p, hp, _, hgenerated, m', hshape', hrep'⟩ := nextInput_generated h hnext
  intro heq
  obtain ⟨bits, hbits⟩ := List.exists_mem_of_ne_nil _ hrep.quantized_ne_nil
  split_ifs at hp with hall
  · -- the previous words were all ones, the new ones are zeros
    have hone := List.all_eq_true.mp hall bits hbits
    have hzero := hgenerated.quantized_eq (w := 0) (by rw [hp]; decide)
      (fun _ _ _ _ => by rw [hp, patternWord]) hshape'.symm hrep' bits (heq ▸ hbits)
    rw [hzero] at hone
    exact absurd hone (by decide)
  · refine hall (List.all_eq_true.mpr fun w hw => beq_iff_eq.mpr ?_)
    exact hgenerated.quantized_eq (by rw [hp]; decide)
      (fun _ _ _ _ => by rw [hp, patternWord]) hshape'.symm hrep' w (heq ▸ hw)

omit h in
/-- The next launch takes its input from the words of this one. -/
theorem Launching.nextInput_eq {i : ℕ} {s s' : RunState} {pattern pattern' : String}
    {prepared prepared' : PreparedInput} {upload upload' : List Word32}
    (hl : Launching env options first i s pattern prepared upload)
    (hstep : LoopStep env options (first.paddedRows / 32) (i, s) (i + 1, s'))
    (hl' : Launching env options first (i + 1) s' pattern' prepared' upload') :
    nextInput env options prepared = .ok (pattern', prepared') := by
  obtain ⟨_, _, ⟨record, hiteration⟩, _⟩ := hstep
  obtain ⟨_, _, _, _, _, hin, _, _, _, _, _, _, hs'⟩ := runIteration_cases hiteration
  obtain ⟨rfl, rfl⟩ := Prod.mk.inj (Except.ok.inj (hin.symm.trans hl.input))
  have hnext := hl'.input
  rwa [launchInput, if_neg (Nat.succ_ne_zero i), hs'] at hnext

/-- Successive launches upload different words. -/
theorem Launching.upload_ne {i : ℕ} {s s' : RunState} {pattern pattern' : String}
    {prepared prepared' : PreparedInput} {upload upload' : List Word32}
    (hl : Launching env options first i s pattern prepared upload)
    (hstep : LoopStep env options (first.paddedRows / 32) (i, s) (i + 1, s'))
    (hl' : Launching env options first (i + 1) s' pattern' prepared' upload') :
    upload' ≠ upload := by
  obtain ⟨m, hshape, hrep⟩ := (hl.invariant h).represented
  obtain ⟨m', hshape', hrep'⟩ := (hl'.invariant h).represented
  rw [transferWords_eq_ok hl.upload, transferWords_eq_ok hl'.upload]
  exact fun heq => nextInput_quantized_ne h hrep (hl.nextInput_eq hstep hl')
    (quantized_eq_of_packWords_eq hrep hrep' (hshape'.trans hshape.symm) heq)

/-- On a quiet device with agreeing conversions every reached iteration launches and completes. -/
theorem exists_launching (hagree : env.upstream.UploadAgrees) (hup : env.upstream.UntilizeAgrees)
    (hq : env.device.Quiet (padded options.shape.rows / 32)) {i : ℕ} {s : RunState}
    (hreach : Reaches env options first i s) (hi : i < options.repeats) :
    ∃ pattern prepared upload s', Launching env options first i s pattern prepared upload ∧
      LoopStep env options (first.paddedRows / 32) (i, s) (i + 1, s') := by
  obtain ⟨hc, hht⟩ := beforeDevice_runContext hup h
  obtain ⟨hinput, hprevious⟩ := hreach.inputs
  obtain ⟨⟨record, s'⟩, hiteration⟩ := (runIteration_quiet hc hht (hht ▸ hq) hinput fun h0 => by
    rw [h0] at hprevious ⊢
    exact hprevious).2 hagree
  obtain ⟨pattern, prepared, upload, _, _, hin, hupload, _⟩ := runIteration_cases hiteration
  exact ⟨pattern, prepared, upload, s', ⟨hreach, hin, hupload⟩, hi, rfl, ⟨record, hiteration⟩,
    fun _ => hq.readProfiler i⟩

end Accepted

/-- Every record of the loop comes from a reached iteration. -/
theorem runLoop_reaches {n i : ℕ} {s : RunState} (hreach : Reaches env options first i s)
    (hn : i + n = options.repeats) {j : ℕ} {record : ResultRecord}
    (hj : (runLoop env options (first.paddedRows / 32) (List.range' i n) s).1[j]? = some record) :
    ∃ s₁ s₂, Reaches env options first (i + j) s₁ ∧
      runIteration env options (first.paddedRows / 32) s₁ (i + j) = .ok (record, s₂) := by
  induction n generalizing i s j with
  | zero => simp [runLoop] at hj
  | succ n ih =>
    rw [List.range'_succ, runLoop] at hj
    cases hiter : runIteration env options (first.paddedRows / 32) s i with
    | error e => simp [hiter] at hj
    | ok result =>
      obtain ⟨record', s'⟩ := result
      rw [hiter] at hj
      dsimp only at hj
      cases j with
      | zero =>
        -- the first record is out whether the profiler answers or not
        have hrecord : record' = record := by
          split at hj <;> exact Option.some.inj hj
        exact ⟨s, s', hreach, hrecord ▸ hiter⟩
      | succ j =>
        split at hj
        · simp at hj
        · rename_i hprofiler
          have hstep : LoopStep env options (first.paddedRows / 32) (i, s) (i + 1, s') := by
            refine ⟨by dsimp only; omega, rfl, ⟨record', hiter⟩, fun hp => ?_⟩
            rwa [if_pos hp] at hprofiler
          obtain ⟨s₁, s₂, hs₁, hrun⟩ := ih (hreach.tail hstep) (by omega) hj
          rw [show i + 1 + j = i + (j + 1) by omega] at hs₁ hrun
          exact ⟨s₁, s₂, hs₁, hrun⟩

/-- Every record is that of a reached iteration. -/
theorem run_reaches {i : ℕ} {record : ResultRecord}
    (hi : (run env options first).1[i]? = some record) :
    ∃ s₁ s₂, Reaches env options first i s₁ ∧
      runIteration env options (first.paddedRows / 32) s₁ i = .ok (record, s₂) := by
  rw [run] at hi
  split_ifs at hi with hw
  · simp at hi
  · cases hsetup : env.device.setup with
    | error e => simp [hsetup] at hi
    | ok _ =>
      rw [hsetup, List.range_eq_range'] at hi
      have hstart : Reaches env options first 0 ⟨firstPattern options, first, true⟩ :=
        Relation.ReflTransGen.refl
      simpa only [Nat.zero_add] using runLoop_reaches hstart (Nat.zero_add _) hi

/-- A record describes the launch it was printed for. -/
theorem runIteration_record (h : beforeDevice env files args = .ok (options, first)) {i : ℕ}
    {s s' : RunState} {record : ResultRecord} (hreach : Reaches env options first i s)
    (hrun : runIteration env options (first.paddedRows / 32) s i = .ok (record, s')) :
    ∃ pattern prepared upload words,
      Launching env options first i s pattern prepared upload ∧
      RecordInvariant env options first i pattern prepared upload words record := by
  obtain ⟨pattern, prepared, upload, words, j, hin, hupload, hwords, hlen, hj, rfl, _, _⟩ :=
    runIteration_cases hrun
  have hl : Launching env options first i s pattern prepared upload := ⟨hreach, hin, hupload⟩
  obtain ⟨hexact, hcompare⟩ := judgeReadback_cases hj
  have hflag : (emitResult env options pattern i prepared j (resultBits words)
      (env.device.seconds i)).exact = j.exact := by
    rw [emitResult, hexact]
    rfl
  rw [(hl.invariant h).paddedRows] at hcompare
  rw [length_poison] at hlen
  refine ⟨pattern, prepared, upload, words, hl, hwords, hlen, rfl, rfl, ?_, ?_⟩
  · rw [hflag, hexact]
  · rw [hflag, hcompare]
    rfl

/-- At every launch of a run the invariant holds and the words uploaded are new; every record
carries the label, the words, the exact flag and the reference of its own launch. -/
theorem run_launches (h : beforeDevice env files args = .ok (options, first)) :
    (∀ i s pattern prepared upload, Launching env options first i s pattern prepared upload →
      LaunchInvariant options first i pattern prepared upload ∧
      ∀ s' pattern' prepared' upload',
        LoopStep env options (first.paddedRows / 32) (i, s) (i + 1, s') →
        Launching env options first (i + 1) s' pattern' prepared' upload' → upload' ≠ upload) ∧
    ∀ i record, (run env options first).1[i]? = some record →
      ∃ s pattern prepared upload words,
        Launching env options first i s pattern prepared upload ∧
        RecordInvariant env options first i pattern prepared upload words record := by
  refine ⟨fun i s pattern prepared upload hl => ⟨hl.invariant h, ?_⟩, fun i record hi => ?_⟩
  · exact fun s' pattern' prepared' upload' hstep hl' => hl.upload_ne h hstep hl'
  · obtain ⟨s, _, hreach, hrun⟩ := run_reaches hi
    exact ⟨s, runIteration_record h hreach hrun⟩

/-- Three launches of the default input on a device that leaves its output alone. -/
theorem run_launches_idle : ∃ options first,
    beforeDevice idleEnv (fun _ => none) ["--repeat", "3"] = .ok (options, first) ∧
      (run idleEnv options first).1.length = options.repeats ∧
      ∀ record ∈ (run idleEnv options first).1,
        launchIsExact record.pattern = .ok record.exact := by
  have hspell : SpellsAll [.repeats 3] ["--repeat", "3"] :=
    SpellsAll.cons (.repeats ⟨by decide, by decide, by decide, by decide⟩) SpellsAll.nil
  obtain ⟨⟨options, first⟩, h⟩ := (@exists_beforeDevice_iff idleEnv (fun _ => none)
    projectUpstream_uploadAgrees ["--repeat", "3"]).mpr ⟨_, hspell, ⟨by decide, by decide⟩,
      by decide, rfl, by simp, Or.inl ⟨rfl, .random, rfl⟩⟩
  have hidle : idleEnv.device.Quiet (padded options.shape.rows / 32) :=
    ⟨rfl, rfl, fun _ _ output hlen => ⟨output, rfl, hlen⟩, fun _ => rfl⟩
  obtain ⟨pass, hpass⟩ :=
    (run_quiet projectUpstream_untilizeAgrees h hidle).2 projectUpstream_uploadAgrees
  refine ⟨options, first, h, ((run_spec projectUpstream_untilizeAgrees h).2 pass hpass).1, ?_⟩
  intro record hrecord
  obtain ⟨i, hi⟩ := List.mem_iff_getElem?.mp hrecord
  obtain ⟨_, pattern, _, _, _, _, hrecord⟩ := (run_launches h).2 i record hi
  rw [hrecord.pattern_eq, hrecord.exact]

end RowReduce
