import RowReduce.Correctness.Launches

/-!
# What the program reports

From an accepted command on, every printed verdict is the exact one, and the
exit code is zero only for complete runs of passing launches.
-/

namespace RowReduce

open BinaryFloat Fallible

variable {env : HostEnv} {files : String → Option InputFile} {args : List String}
  {options : Options} {prepared : PreparedInput}

/-- A lone `--help` is answered before anything is checked. -/
theorem beforeDevice_help_ne_ok {result : Options × PreparedInput} :
    beforeDevice env files ["--help"] ≠ .ok result := by
  simp [beforeDevice, parseOptions, parseArguments]

/-- An accepted command has a valid shape on one node and a represented first input. -/
theorem beforeDevice_launchInput (h : beforeDevice env files args = .ok (options, prepared)) :
    options.shape.Valid ∧ options.nodes = 1 ∧
      ∃ m exact, LaunchInput options (firstPattern options) prepared m exact := by
  simp only [beforeDevice, bind_eq_ok_iff, throwIf_eq_ok_iff, pure_eq_ok, Except.ok.injEq,
    Prod.mk.injEq] at h
  obtain ⟨o, _, values, hvalues, p, hprepare, _, _, _, _, _, _, rfl, rfl⟩ := h
  obtain ⟨hnodes, haccept, hrep⟩ := (prepareInput_eq_ok_iff env.rd).mp hprepare
  refine ⟨haccept.shape_valid, hnodes, quantize o.shape values haccept, ?_⟩
  by_cases hfile : o.inputFile = ""
  · rw [originalInput, if_pos hfile] at hvalues
    obtain ⟨_, _, q, hq, _⟩ := makeInput_eq_ok_iff.mp hvalues
    refine ⟨q.isExact, rfl, hrep, ?_⟩
    rw [firstPattern, if_pos hfile, hq, launchIsExact_name]
  · refine ⟨false, rfl, hrep, ?_⟩
    rw [firstPattern, if_neg hfile, launchIsExact, if_pos rfl]

/-- An accepted command starts a run on a represented input. -/
theorem beforeDevice_runContext (hup : env.upstream.UntilizeAgrees)
    (h : beforeDevice env files args = .ok (options, prepared)) :
    RunContext env options prepared ∧
      prepared.paddedRows / 32 = padded options.shape.rows / 32 := by
  obtain ⟨hv, hnodes, m, exact, hfirst⟩ := beforeDevice_launchInput h
  exact ⟨⟨hup, hv, hnodes, m, exact, hfirst⟩, by rw [hfirst.represents.paddedRows, hfirst.shape]⟩

/-- The options are those of the command line. -/
theorem parseOptions_of_beforeDevice (h : beforeDevice env files args = .ok (options, prepared)) :
    parseOptions args = .ok options := by
  simp only [beforeDevice, bind_eq_ok_iff, throwIf_eq_ok_iff, pure_eq_ok, Except.ok.injEq,
    Prod.mk.injEq] at h
  obtain ⟨o, ho, _, _, _, _, _, _, _, _, _, _, rfl, _⟩ := h
  exact ho

/-- The first input of an accepted command without a file is generated. -/
theorem beforeDevice_generated (h : beforeDevice env files args = .ok (options, prepared))
    (hfile : options.inputFile = "") :
    ∃ p : Pattern, options.pattern = p.name ∧ Generated options p prepared := by
  simp only [beforeDevice, bind_eq_ok_iff, throwIf_eq_ok_iff, pure_eq_ok, Except.ok.injEq,
    Prod.mk.injEq] at h
  obtain ⟨o, _, values, hvalues, p, hprepare, _, _, _, _, _, _, rfl, rfl⟩ := h
  obtain ⟨_, haccept, hrep⟩ := (prepareInput_eq_ok_iff env.rd).mp hprepare
  rw [originalInput, if_pos hfile] at hvalues
  obtain ⟨_, _, q, hq, hmake⟩ := makeInput_eq_ok_iff.mp hvalues
  refine ⟨q, hq, values, hmake, ?_⟩
  rw [hrep.quantized, words_quantize]

/-- The whole run of an accepted command. -/
theorem run_spec (hup : env.upstream.UntilizeAgrees)
    (h : beforeDevice env files args = .ok (options, prepared)) :
    (∀ i record, (run env options prepared).1[i]? = some record →
      RecordOf env options prepared i record) ∧
    ∀ pass, (run env options prepared).2 = .ok pass →
      (run env options prepared).1.length = options.repeats ∧
        pass = (run env options prepared).1.all fun record => decide (record.status = "pass") := by
  obtain ⟨hc, hht⟩ := beforeDevice_runContext hup h
  unfold run
  split_ifs with hw
  · simp
  · cases env.device.setup with
    | error e => simp
    | ok _ =>
      have hrun := runLoop_spec hc hht (n := options.repeats) (i := 0)
        (s := ⟨firstPattern options, prepared, true⟩) rfl (Prod.mk.eta).symm
      simpa only [Nat.zero_add, Bool.true_and, ← List.range_eq_range'] using hrun

/-- Without an input file every record is that of a launch on a generated input. -/
theorem run_generated (hup : env.upstream.UntilizeAgrees)
    (h : beforeDevice env files args = .ok (options, prepared)) (hfile : options.inputFile = "")
    {i : ℕ} {record : ResultRecord} (hrecord : (run env options prepared).1[i]? = some record) :
    ∃ (p : Pattern) (input : PreparedInput) (m : QuantizedMatrix) (words : List Word32),
      Launched env options prepared i p.name input m p.isExact words ∧
      (i = 0 → p.name = options.pattern) ∧ Generated options p input ∧
      record = launchRecord env options i p.name input m p.isExact words := by
  obtain ⟨pattern, input, m, exact, words, hlaunched, rfl⟩ := (run_spec hup h).1 i record hrecord
  obtain ⟨hc, _⟩ := beforeDevice_runContext hup h
  rcases inputSequence_label hc.valid hc.nodes (fun hf => beforeDevice_generated h hf)
    hlaunched.input with ⟨_, hno, _⟩ | ⟨p, rfl, hfirst, hgenerated⟩
  · exact absurd hfile hno
  · obtain rfl : exact = p.isExact :=
      Except.ok.inj (hlaunched.launchInput.exact.symm.trans (launchIsExact_name p))
    exact ⟨p, input, m, words, hlaunched, hfirst, hgenerated, rfl⟩

/-- On a quiet device the run of an accepted command can only fail its upload checks. -/
theorem run_quiet (hup : env.upstream.UntilizeAgrees)
    (h : beforeDevice env files args = .ok (options, prepared))
    (hq : env.device.Quiet (padded options.shape.rows / 32)) :
    ((∃ pass, (run env options prepared).2 = .ok pass) ∨
      (run env options prepared).2 = .error tilizerDisagrees ∨
      (run env options prepared).2 = .error converterDisagrees) ∧
    (env.upstream.UploadAgrees → ∃ pass, (run env options prepared).2 = .ok pass) := by
  obtain ⟨hc, hht⟩ := beforeDevice_runContext hup h
  rw [run, hq.wormhole, if_neg (by simp), hq.setup, hht, List.range_eq_range']
  exact runLoop_quiet hc rfl hq rfl fun _ => rfl

/-- Past the checks, the program's result is that of its device part. -/
theorem main_of_beforeDevice (h : beforeDevice env files args = .ok (options, prepared)) :
    main env files args =
      match onDevice env options prepared with
      | (records, .error e) =>
        { exitCode := 1, usage := false, records, errors := [errorRecord false e],
          reachedDevice := true }
      | (records, .ok success) =>
        { exitCode := if success then 0 else 1, usage := false, records, errors := [],
          reachedDevice := true } := by
  have hhelp : args ≠ ["--help"] := by
    rintro rfl
    exact beforeDevice_help_ne_ok h
  rw [main, if_neg hhelp]
  generalize beforeDevice env files args = result at h
  subst h
  rfl

/-- An accepted command prints no usage text. -/
theorem main_usage (h : beforeDevice env files args = .ok (options, prepared)) :
    (main env files args).usage = false := by
  rw [main_of_beforeDevice h]
  cases onDevice env options prepared with
  | mk records outcome => cases outcome <;> rfl

/-- The program rejects its arguments before the device, or ends with exit code 0 or 1. -/
theorem main_cases (env : HostEnv) (files : String → Option InputFile) (args : List String) :
    (∃ e, beforeDevice env files args = .error e ∧
      main env files args =
        { exitCode := 2, usage := false, records := [], errors := [errorRecord true e],
          reachedDevice := false }) ∨
    (args = ["--help"] ∨ ∃ p, beforeDevice env files args = .ok p) ∧
      ((main env files args).exitCode = 0 ∨ (main env files args).exitCode = 1) := by
  by_cases hhelp : args = ["--help"]
  · exact Or.inr ⟨Or.inl hhelp, by simp [main, hhelp]⟩
  · cases hbefore : beforeDevice env files args with
    | error e =>
      refine Or.inl ⟨e, rfl, ?_⟩
      rw [main, if_neg hhelp, hbefore]
    | ok p =>
      refine Or.inr ⟨Or.inr ⟨p, rfl⟩, ?_⟩
      rw [main_of_beforeDevice hbefore]
      cases onDevice env p.1 p.2 with
      | mk records outcome =>
        cases outcome with
        | error e => exact Or.inr rfl
        | ok success => cases success <;> simp

/-- The printed records come from the run, and all of them when the mesh device opens. -/
theorem main_records (h : beforeDevice env files args = .ok (options, prepared)) :
    ((main env files args).records = [] ∨
      (main env files args).records = (run env options prepared).1) ∧
    (env.device.createUnitMesh = .ok () →
      (main env files args).records = (run env options prepared).1) := by
  rw [main_of_beforeDevice h, onDevice]
  cases env.device.createUnitMesh with
  | error e => simp
  | ok _ =>
    cases hrun : run env options prepared with
    | mk records outcome =>
      cases outcome with
      | error e => simp
      | ok pass => cases env.device.close <;> simp [Except.map]

/-- Exit code zero: nothing raised, everything launched, passed and closed. -/
theorem main_exitCode_iff (hup : env.upstream.UntilizeAgrees)
    (h : beforeDevice env files args = .ok (options, prepared)) :
    (main env files args).exitCode = 0 ↔
      (main env files args).errors = [] ∧
      (main env files args).records.length = options.repeats ∧
      (∀ record ∈ (main env files args).records, record.status = "pass") ∧
      env.device.close = .ok true := by
  obtain ⟨_, hpass⟩ := run_spec hup h
  rw [main_of_beforeDevice h, onDevice]
  cases env.device.createUnitMesh with
  | error e => simp
  | ok _ =>
    cases hrun : run env options prepared with
    | mk records outcome =>
      cases outcome with
      | error e => simp
      | ok pass =>
        rw [hrun] at hpass
        obtain ⟨hlen, hall⟩ := hpass pass rfl
        have hall' : pass = true ↔ ∀ record ∈ records, record.status = "pass" := by
          rw [hall, List.all_eq_true]
          simp only [decide_eq_true_eq]
        cases env.device.close with
        | error e => simp [Except.map]
        | ok closed => cases closed <;> simp [Except.map, hlen, ← hall']

private theorem poison_mem_resultBits {ht : ℕ} (h : 0 < ht) :
    0x7fc1#16 ∈ resultBits (poison ht) := by
  refine List.mem_flatMap.mpr ⟨0x7fc17fc1#32, List.mem_replicate.mpr ⟨?_, rfl⟩, ?_⟩
  · omega
  · decide

/-- Verdicts are exact, a poisoned readback never passes, no launch raises the untilizer's
error, and the exit code is zero exactly for complete passing runs. -/
theorem main_verdicts (hup : env.upstream.UntilizeAgrees)
    (h : beforeDevice env files args = .ok (options, prepared)) :
    (∀ i record, (main env files args).records[i]? = some record →
      ∃ pattern input m exact words,
        Launched env options prepared i pattern input m exact words ∧
        record = launchRecord env options i pattern input m exact words ∧
        (record.status = "pass" ↔ ReadbackPasses env.rd exact m (resultBits words)) ∧
        (0x7fc1#16 ∈ resultBits words → record.status ≠ "pass")) ∧
    (env.device.createUnitMesh = .ok () → env.device.Quiet (padded options.shape.rows / 32) →
      (run env options prepared).2 ≠ .error untilizerDisagrees ∧
      (env.upstream.UploadAgrees →
        (main env files args).records.length = options.repeats)) ∧
    ((main env files args).exitCode = 0 ↔
      (main env files args).errors = [] ∧
      (main env files args).records.length = options.repeats ∧
      (∀ record ∈ (main env files args).records, record.status = "pass") ∧
      env.device.close = .ok true) := by
  obtain ⟨hrecords, hpass⟩ := run_spec hup h
  obtain ⟨hmain, hmesh⟩ := main_records h
  refine ⟨?_, ?_, main_exitCode_iff hup h⟩
  · intro i record hi
    rcases hmain with hnil | hrun
    · simp [hnil] at hi
    · rw [hrun] at hi
      obtain ⟨pattern, input, m, exact, words, hlaunched, rfl⟩ := hrecords i record hi
      refine ⟨pattern, input, m, exact, words, hlaunched, rfl, launchRecord_status_iff, ?_⟩
      intro hpoison hstatus
      exact not_readbackPasses_of_poison hlaunched.length_resultBits hpoison
        (launchRecord_status_iff.mp hstatus)
  · intro hcreate hq
    obtain ⟨hcases, hagree⟩ := run_quiet hup h hq
    constructor
    · rcases hcases with ⟨pass, hok⟩ | herr | herr
      · simp [hok]
      · rw [herr]
        decide
      · rw [herr]
        decide
    · intro hupload
      obtain ⟨pass, hok⟩ := hagree hupload
      rw [hmesh hcreate]
      exact (hpass pass hok).1

/-- On a device that leaves its output alone, the default command fails. -/
theorem main_verdicts_idle : ∃ options prepared,
    beforeDevice idleEnv (fun _ => none) [] = .ok (options, prepared) ∧
      (main idleEnv (fun _ => none) []).records.length = options.repeats ∧
      ∀ record ∈ (main idleEnv (fun _ => none) []).records, record.status ≠ "pass" := by
  obtain ⟨⟨options, prepared⟩, h⟩ := (@exists_beforeDevice_iff idleEnv (fun _ => none)
    projectUpstream_uploadAgrees []).mpr ⟨[], SpellsAll.nil, ⟨by decide, by decide⟩, by decide,
      rfl, by simp, Or.inl ⟨rfl, .random, rfl⟩⟩
  obtain ⟨hrecords, hquiet, _⟩ := main_verdicts projectUpstream_untilizeAgrees h
  refine ⟨options, prepared, h, ?_, ?_⟩
  · have hidle : idleEnv.device.Quiet (padded options.shape.rows / 32) :=
      ⟨rfl, rfl, fun _ _ output hlen => ⟨output, rfl, hlen⟩, fun _ => rfl⟩
    exact (hquiet rfl hidle).2 projectUpstream_uploadAgrees
  · intro record hmem
    obtain ⟨i, hi, rfl⟩ := List.getElem_of_mem hmem
    obtain ⟨_, input, m, _, words, hlaunched, _, _, hpoison⟩ :=
      hrecords i _ (List.getElem?_eq_getElem hi)
    obtain ⟨_, _, hwords⟩ := hlaunched.readback
    obtain rfl : poison (input.paddedRows / 32) = words := Except.ok.inj hwords
    refine hpoison (poison_mem_resultBits ?_)
    have hmod := padded_mod m.shape.rows
    have hpos := padded_pos m.valid.1
    rw [hlaunched.launchInput.represents.paddedRows]
    omega

end RowReduce
