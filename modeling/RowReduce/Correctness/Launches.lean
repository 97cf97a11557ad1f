import RowReduce.Correctness.Acceptance

/-!
# Runs of launches

Every record printed by a run comes from one launch on a represented input, and
reports exactly whether the readback of that launch passes.
-/

namespace RowReduce

open BinaryFloat Fallible

variable {env : HostEnv} {options : Options} {first : PreparedInput}

/-- Pattern and input of each launch: the first is given, the others follow from the last. -/
def inputSequence (env : HostEnv) (options : Options) (first : PreparedInput) :
    ℕ → Except HostException (String × PreparedInput)
  | 0 => .ok (firstPattern options, first)
  | i + 1 => do
    let previous ← inputSequence env options first i
    nextInput env options previous.2

/-- An input that represents a matrix of the requested shape under a known pattern. -/
structure LaunchInput (options : Options) (pattern : String) (prepared : PreparedInput)
    (m : QuantizedMatrix) (exact : Bool) : Prop where
  shape : options.shape = m.shape
  represents : m.Represents prepared
  exact : launchIsExact pattern = .ok exact

/-- A pattern's own name tells its exactness. -/
theorem launchIsExact_name (p : Pattern) : launchIsExact p.name = .ok p.isExact := by
  have hne : p.name ≠ "file" := by cases p <;> decide
  rw [launchIsExact, if_neg hne, comparisonIsExact, findPattern_name]

/-- The later launches alternate between two exact patterns, by the previous bits. -/
theorem nextInput_cases (env : HostEnv) (hv : options.shape.Valid) (hnodes : options.nodes = 1)
    (previous : PreparedInput) :
    (∃ (p : Pattern) (prepared : PreparedInput) (values : List Float32)
      (h : AcceptedValues options.shape values),
      p = (if previous.quantized.all (fun bits => bits == 0x3f80#16) then .zero else .ones) ∧
      makeInput options.shape p.name options.seed = .ok values ∧
      (quantize options.shape values h).Represents prepared ∧
      (env.upstream.UploadAgrees →
        nextInput env options previous = .ok (p.name, prepared)) ∧
      (nextInput env options previous = .ok (p.name, prepared) ∨
        nextInput env options previous = .error converterDisagrees)) := by
  set p : Pattern := if previous.quantized.all (fun bits => bits == 0x3f80#16) then .zero else .ones
    with hp
  have hname : (if previous.quantized.all (fun bits => bits == 0x3f80#16) then "zero" else "ones") =
      p.name := by
    rw [hp]
    split_ifs <;> rfl
  obtain ⟨values, hmake, haccept, _⟩ := generated_agrees hv p options.seed
  obtain ⟨prepared, hprepare, hrep⟩ := prepareInput_eq_ok env.rd haccept
  have hnext : nextInput env options previous =
      (checkUpstreamQuantization env.upstream values prepared >>= fun _ =>
        .ok (p.name, prepared)) := by
    simp only [nextInput, hname, hmake, ok_bind, hnodes, hprepare, pure_eq_ok]
  refine ⟨p, prepared, values, haccept, rfl, hmake, hrep, ?_, ?_⟩
  · intro hup
    rw [hnext, checkUpstreamQuantization_ok hup haccept hrep, ok_bind]
  · rcases checkUpstreamQuantization_cases env.upstream values prepared with h | h
    · exact Or.inl (by rw [hnext, h, ok_bind])
    · exact Or.inr (by rw [hnext, h, error_bind])

/-- Every input of a run represents a matrix when the first one does. -/
theorem inputSequence_launchInput (hv : options.shape.Valid) (hnodes : options.nodes = 1)
    {m : QuantizedMatrix} {exact : Bool}
    (hfirst : LaunchInput options (firstPattern options) first m exact) {i : ℕ} {pattern : String}
    {prepared : PreparedInput}
    (h : inputSequence env options first i = .ok (pattern, prepared)) :
    ∃ m exact, LaunchInput options pattern prepared m exact := by
  cases i with
  | zero =>
    obtain ⟨rfl, rfl⟩ := Prod.mk.inj (Except.ok.inj h)
    exact ⟨m, exact, hfirst⟩
  | succ i =>
    obtain ⟨previous, _, hnext⟩ := bind_eq_ok_iff.mp h
    obtain ⟨p, prepared', values, haccept, _, _, hrep, _, hok | herr⟩ :=
      nextInput_cases env hv hnodes previous.2
    · obtain ⟨rfl, rfl⟩ := Prod.mk.inj (Except.ok.inj (hok.symm.trans hnext))
      exact ⟨_, _, rfl, hrep, launchIsExact_name p⟩
    · rw [herr] at hnext
      cases hnext

/-- The words of an input are the quantized values of a pattern of the run's shape and seed. -/
def Generated (options : Options) (p : Pattern) (prepared : PreparedInput) : Prop :=
  ∃ values, makeInput options.shape p.name options.seed = .ok values ∧
    prepared.quantized = values.map floatToBf16

/-- Generated words are those the runner regenerates. -/
theorem Generated.regenerated {p : Pattern} {prepared : PreparedInput}
    (h : Generated options p prepared) :
    expectedInputBytes options.shape.rows options.shape.cols p.name options.seed.toNat =
      .ok (littleEndian prepared.quantized) := by
  obtain ⟨values, hmake, hwords⟩ := h
  obtain ⟨values', hmake', _, hbytes⟩ :=
    generated_agrees (makeInput_eq_ok_iff.mp hmake).1 p options.seed
  obtain rfl := Except.ok.inj (hmake.symm.trans hmake')
  rw [hwords, hbytes]

/-- Only a first input can come from a file; all others have the pattern of their label. -/
theorem inputSequence_label (hv : options.shape.Valid) (hnodes : options.nodes = 1)
    (hfirst : options.inputFile = "" → ∃ p : Pattern, options.pattern = p.name ∧
      Generated options p first) {i : ℕ} {pattern : String} {prepared : PreparedInput}
    (h : inputSequence env options first i = .ok (pattern, prepared)) :
    (i = 0 ∧ options.inputFile ≠ "" ∧ pattern = "file") ∨
      ∃ p : Pattern, pattern = p.name ∧ (i = 0 → p.name = options.pattern) ∧
        Generated options p prepared := by
  cases i with
  | zero =>
    obtain ⟨rfl, rfl⟩ := Prod.mk.inj (Except.ok.inj h)
    by_cases hfile : options.inputFile = ""
    · obtain ⟨p, hp, hgenerated⟩ := hfirst hfile
      rw [firstPattern, if_pos hfile]
      exact Or.inr ⟨p, hp, fun _ => hp.symm, hgenerated⟩
    · rw [firstPattern, if_neg hfile]
      exact Or.inl ⟨rfl, hfile, rfl⟩
  | succ i =>
    obtain ⟨previous, _, hnext⟩ := bind_eq_ok_iff.mp h
    obtain ⟨p, prepared', values, haccept, _, hmake, hrep, _, hok | herr⟩ :=
      nextInput_cases env hv hnodes previous.2
    · obtain ⟨rfl, rfl⟩ := Prod.mk.inj (Except.ok.inj (hok.symm.trans hnext))
      refine Or.inr ⟨p, rfl, fun h0 => absurd h0 (Nat.succ_ne_zero i), values, hmake, ?_⟩
      rw [hrep.quantized, words_quantize]
    · rw [herr] at hnext
      cases hnext

/-- The record of a launch on a represented input, from its readback words. -/
def launchRecord (env : HostEnv) (options : Options) (i : ℕ) (pattern : String)
    (prepared : PreparedInput) (m : QuantizedMatrix) (exact : Bool) (words : List Word32) :
    ResultRecord :=
  emitResult env options pattern i prepared (judgementOf env.rd exact m (resultBits words))
    (resultBits words) (env.device.seconds i)

/-- The `i`-th launch of a run: its input, its upload and what came back. -/
structure Launched (env : HostEnv) (options : Options) (first : PreparedInput) (i : ℕ)
    (pattern : String) (prepared : PreparedInput) (m : QuantizedMatrix) (exact : Bool)
    (words : List Word32) : Prop where
  input : inputSequence env options first i = .ok (pattern, prepared)
  launchInput : LaunchInput options pattern prepared m exact
  readback : ∃ upload, transferWords env.upstream prepared = .ok upload ∧
    env.device.launch i upload (poison (prepared.paddedRows / 32)) = .ok words
  length : words.length = (poison (prepared.paddedRows / 32)).length

/-- The poison fills the output buffer. -/
theorem length_poison (ht : ℕ) : (poison ht).length = ht * 512 := by
  rw [poison, List.length_replicate]
  omega

/-- A launch reads back all padded rows. -/
theorem Launched.length_resultBits {i : ℕ} {pattern : String} {prepared : PreparedInput}
    {m : QuantizedMatrix} {exact : Bool} {words : List Word32}
    (h : Launched env options first i pattern prepared m exact words) :
    (resultBits words).length = padded m.shape.rows * 32 := by
  have := padded_mod m.shape.rows
  rw [RowReduce.length_resultBits, h.length, length_poison, h.launchInput.represents.paddedRows]
  omega

/-- A launch is recorded as passed where its readback passes. -/
theorem launchRecord_status_iff {i : ℕ} {pattern : String} {prepared : PreparedInput}
    {m : QuantizedMatrix} {exact : Bool} {words : List Word32} :
    (launchRecord env options i pattern prepared m exact words).status = "pass" ↔
      ReadbackPasses env.rd exact m (resultBits words) := by
  rw [← judgementOf_pass_iff]
  simp only [launchRecord, emitResult]
  split_ifs with h <;> simp [h]

/-- A completed pass of the loop is a launch with its record and verdict. -/
theorem runIteration_eq_ok (hup : env.upstream.UntilizeAgrees) (hv : options.shape.Valid)
    {ht i : ℕ} {s s' : RunState} {record : ResultRecord} {m : QuantizedMatrix} {exact : Bool}
    (hfirst : LaunchInput options (firstPattern options) first m exact)
    (hnodes : options.nodes = 1) (hht : ht = padded options.shape.rows / 32)
    (hinput : launchInput env options s i = inputSequence env options first i)
    (h : runIteration env options ht s i = .ok (record, s')) :
    ∃ pattern prepared m exact words,
      Launched env options first i pattern prepared m exact words ∧
      record = launchRecord env options i pattern prepared m exact words ∧
      s' = ⟨pattern, prepared, decide (record.status = "pass") && s.pass⟩ := by
  simp only [runIteration, bind_eq_ok_iff, throwIf_eq_ok_iff, not_not, pure_eq_ok,
    Except.ok.injEq, Prod.mk.injEq] at h
  obtain ⟨⟨pattern, prepared⟩, hin, upload, hupload, words, hwords, _, hlen, j, hj, hrecord,
      hs⟩ := h
  rw [hinput] at hin
  obtain ⟨m', exact', hlaunch⟩ := inputSequence_launchInput hv hnodes hfirst hin
  have hpadded : ht = prepared.paddedRows / 32 := by
    rw [hht, hlaunch.represents.paddedRows, hlaunch.shape]
  subst hpadded
  have hlaunched : Launched env options first i pattern prepared m' exact' words :=
    ⟨hin, hlaunch, ⟨upload, hupload, hwords⟩, hlen⟩
  rw [judgeReadback_eq hup hlaunch.shape hlaunch.represents hlaunched.length_resultBits
    hlaunch.exact] at hj
  obtain rfl := Except.ok.inj hj
  have hrecord' : record = launchRecord env options i pattern prepared m' exact' words :=
    hrecord.symm
  refine ⟨pattern, prepared, m', exact', words, hlaunched, hrecord', ?_⟩
  rw [← hs, hrecord']
  congr 2
  rw [Bool.eq_iff_iff, decide_eq_true_iff, launchRecord_status_iff, judgementOf_pass_iff]

/-- A record of the `i`-th launch of a run. -/
def RecordOf (env : HostEnv) (options : Options) (first : PreparedInput) (i : ℕ)
    (record : ResultRecord) : Prop :=
  ∃ pattern prepared m exact words, Launched env options first i pattern prepared m exact words ∧
    record = launchRecord env options i pattern prepared m exact words

/-- What holds throughout a run: agreeing untilizers, a valid shape and a represented input. -/
structure RunContext (env : HostEnv) (options : Options) (first : PreparedInput) : Prop where
  untilize : env.upstream.UntilizeAgrees
  valid : options.shape.Valid
  nodes : options.nodes = 1
  first : ∃ m exact, LaunchInput options (firstPattern options) first m exact

/-- The loop's next input is the next one of the sequence. -/
theorem launchInput_succ {i : ℕ} {s : RunState}
    (h : inputSequence env options first i = .ok (s.pattern, s.prepared)) :
    launchInput env options s (i + 1) = inputSequence env options first (i + 1) := by
  rw [launchInput, if_neg (Nat.succ_ne_zero i), inputSequence, h, ok_bind]

/-- The records are those of successive launches; a completed loop has them
all and their verdict. -/
theorem runLoop_spec (hc : RunContext env options first) {ht : ℕ}
    (hht : ht = padded options.shape.rows / 32) {n i : ℕ} {s : RunState}
    {records : List ResultRecord} {outcome : Except HostException Bool}
    (hinput : launchInput env options s i = inputSequence env options first i)
    (h : runLoop env options ht (List.range' i n) s = (records, outcome)) :
    (∀ j record, records[j]? = some record → RecordOf env options first (i + j) record) ∧
      ∀ pass, outcome = .ok pass → records.length = n ∧
        pass = (s.pass && records.all fun record => decide (record.status = "pass")) := by
  induction n generalizing i s records outcome with
  | zero =>
    obtain ⟨rfl, rfl⟩ := Prod.mk.inj h
    simp [eq_comm]
  | succ n ih =>
    obtain ⟨m, exact, hfirst⟩ := hc.first
    rw [List.range'_succ, runLoop] at h
    cases hiter : runIteration env options ht s i with
    | error e =>
      rw [hiter] at h
      obtain ⟨rfl, rfl⟩ := Prod.mk.inj h
      simp
    | ok result =>
      obtain ⟨record, s'⟩ := result
      obtain ⟨pattern, prepared, m', exact', words, hlaunch, hrecord, hs'⟩ :=
        runIteration_eq_ok hc.untilize hc.valid hfirst hc.nodes hht hinput hiter
      have hhead : RecordOf env options first i record :=
        ⟨pattern, prepared, m', exact', words, hlaunch, hrecord⟩
      rw [hiter] at h
      dsimp only at h
      cases hprofiler : (if options.profile then env.device.readProfiler i else .ok ()) with
      | error e =>
        rw [hprofiler] at h
        obtain ⟨rfl, rfl⟩ := Prod.mk.inj h
        refine ⟨?_, by simp⟩
        intro j record' hj
        cases j with
        | zero =>
          obtain rfl := Option.some.inj hj
          exact hhead
        | succ j => simp at hj
      | ok _ =>
        rw [hprofiler] at h
        dsimp only at h
        have hnext : launchInput env options s' (i + 1) =
            inputSequence env options first (i + 1) := by
          rw [hs']
          exact launchInput_succ hlaunch.input
        cases hrest : runLoop env options ht (List.range' (i + 1) n) s' with
        | mk records' outcome' =>
          rw [hrest] at h
          obtain ⟨rfl, rfl⟩ := Prod.mk.inj h
          obtain ⟨hrecords, hpass⟩ := ih hnext hrest
          constructor
          · intro j record' hj
            cases j with
            | zero =>
              obtain rfl := Option.some.inj hj
              exact hhead
            | succ j =>
              have := hrecords j record' hj
              rwa [Nat.add_right_comm] at this
          · intro pass hok
            obtain ⟨hlen, hp⟩ := hpass pass hok
            refine ⟨by rw [List.length_cons, hlen], ?_⟩
            rw [hp, hs', List.all_cons]
            cases s.pass <;> simp

/-- A device that raises nothing and reads back vectors of the expected length. -/
structure Device.Quiet (d : Device) (ht : ℕ) : Prop where
  wormhole : d.wormhole = true
  setup : d.setup = .ok ()
  launch : ∀ i upload output, output.length = ht * 512 →
    ∃ words, d.launch i upload output = .ok words ∧ words.length = ht * 512
  readProfiler : ∀ i, d.readProfiler i = .ok ()

/-- On a quiet device a launch can only fail its upload checks. -/
theorem runIteration_quiet (hc : RunContext env options first) {ht i : ℕ} {s : RunState}
    (hht : ht = padded options.shape.rows / 32) (hq : env.device.Quiet ht)
    (hinput : launchInput env options s i = inputSequence env options first i)
    (hprevious : i = 0 → inputSequence env options first i = .ok (s.pattern, s.prepared)) :
    ((∃ result, runIteration env options ht s i = .ok result) ∨
      runIteration env options ht s i = .error tilizerDisagrees ∨
      runIteration env options ht s i = .error converterDisagrees) ∧
    (env.upstream.UploadAgrees → ∃ result, runIteration env options ht s i = .ok result) := by
  obtain ⟨m, exact, hfirst⟩ := hc.first
  have hrest : ∀ {pattern prepared}, launchInput env options s i = .ok (pattern, prepared) →
      ((∃ result, runIteration env options ht s i = .ok result) ∨
        runIteration env options ht s i = .error tilizerDisagrees) ∧
      (env.upstream.UploadAgrees → ∃ result, runIteration env options ht s i = .ok result) := by
    intro pattern prepared hin
    obtain ⟨m', exact', hlaunch⟩ :=
      inputSequence_launchInput hc.valid hc.nodes hfirst (hinput.symm.trans hin)
    have hok : ∀ {upload}, transferWords env.upstream prepared = .ok upload →
        ∃ result, runIteration env options ht s i = .ok result := by
      intro upload hupload
      obtain ⟨words, hwords, hlen⟩ := hq.launch i upload (poison ht) (length_poison ht)
      have hbits : (resultBits words).length = padded m'.shape.rows * 32 := by
        have := padded_mod m'.shape.rows
        rw [length_resultBits, hlen, hht, hlaunch.shape]
        omega
      have hj := judgeReadback_eq hc.untilize hlaunch.shape hlaunch.represents hbits hlaunch.exact
      simp only [runIteration, hin, ok_bind, hupload, hwords, length_poison, hlen, ne_eq,
        not_true_eq_false, throwIf_of_not not_false, hj]
      exact ⟨_, rfl⟩
    constructor
    · rcases transferWords_cases env.upstream prepared with ⟨upload, hupload⟩ | herr
      · exact Or.inl (hok hupload)
      · right
        simp only [runIteration, hin, ok_bind, herr, error_bind]
    · intro hup
      obtain ⟨upload, hupload⟩ := transferWords_ok hup hlaunch.represents
      exact hok hupload
  cases i with
  | zero =>
    have h := hrest (hinput.trans (hprevious rfl))
    exact ⟨h.1.imp_right Or.inl, h.2⟩
  | succ i =>
    obtain ⟨p, prepared, _, _, _, _, _, hagree, hok | herr⟩ :=
      nextInput_cases env hc.valid hc.nodes s.prepared
    · have h := hrest (show launchInput env options s (i + 1) = .ok (p.name, prepared) from hok)
      exact ⟨h.1.imp_right Or.inl, h.2⟩
    · constructor
      · right
        right
        simp only [runIteration, launchInput, Nat.succ_ne_zero, if_false, herr, error_bind]
      · intro hup
        rw [hagree hup] at herr
        cases herr

/-- On a quiet device a run can only fail its upload checks. -/
theorem runLoop_quiet (hc : RunContext env options first) {ht : ℕ}
    (hht : ht = padded options.shape.rows / 32) (hq : env.device.Quiet ht) {n i : ℕ} {s : RunState}
    (hinput : launchInput env options s i = inputSequence env options first i)
    (hprevious : i = 0 → inputSequence env options first i = .ok (s.pattern, s.prepared)) :
    ((∃ pass, (runLoop env options ht (List.range' i n) s).2 = .ok pass) ∨
      (runLoop env options ht (List.range' i n) s).2 = .error tilizerDisagrees ∨
      (runLoop env options ht (List.range' i n) s).2 = .error converterDisagrees) ∧
    (env.upstream.UploadAgrees →
      ∃ pass, (runLoop env options ht (List.range' i n) s).2 = .ok pass) := by
  induction n generalizing i s with
  | zero => exact ⟨Or.inl ⟨_, rfl⟩, fun _ => ⟨_, rfl⟩⟩
  | succ n ih =>
    obtain ⟨m, exact, hfirst⟩ := hc.first
    obtain ⟨hcases, hagree⟩ := runIteration_quiet hc hht hq hinput hprevious
    rw [List.range'_succ, runLoop]
    cases hiter : runIteration env options ht s i with
    | error e =>
      simp only [hiter, reduceCtorEq, exists_false, Except.error.injEq, false_or, imp_false]
        at hcases hagree ⊢
      exact ⟨hcases, hagree⟩
    | ok result =>
      obtain ⟨record, s'⟩ := result
      obtain ⟨pattern, prepared, m', exact', words, hlaunch, hrecord, hs'⟩ :=
        runIteration_eq_ok hc.untilize hc.valid hfirst hc.nodes hht hinput hiter
      have hnext : launchInput env options s' (i + 1) =
          inputSequence env options first (i + 1) := by
        rw [hs']
        exact launchInput_succ hlaunch.input
      have hprofiler :
          (if options.profile then env.device.readProfiler i else .ok ()) = .ok () := by
        split_ifs
        · exact hq.readProfiler i
        · rfl
      rw [hprofiler]
      exact ih hnext fun h => absurd h (Nat.succ_ne_zero i)

end RowReduce
