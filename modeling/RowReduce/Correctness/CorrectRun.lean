import RowReduce.Correctness.PrintedRecord
import RowReduce.Correctness.StaleReadback

/-!
# Runs on a correct device

Where every readback holds the rounded row sums of its input, every record of a
run on generated inputs passes and the program ends with exit code 0. What an
exact record prints then are whole numbers.
-/

namespace RowReduce

open BinaryFloat Fallible Grid

section Readback

variable {rd : Rounding binary64} {options : Options} {m : QuantizedMatrix} {p : Pattern}
  {prepared : PreparedInput} {words : List Word32}

/-- The rounded sum of a row of an exact pattern is the sum, a small natural number. -/
theorem Generated.exists_rounded (hgenerated : Generated options p prepared)
    (hexact : p.isExact = true) (hshape : options.shape = m.shape) (hrep : m.Represents prepared)
    {r : ℕ} (hr : r < m.shape.rows) :
    ∃ n : ℕ, n ≤ 128 ∧ m.rowSum r = n ∧ bfloat16.round (m.rowSum r) = n := by
  have hsum := hgenerated.rowSum_eq hexact hshape hrep hr
  have hle := (patternSum_le p m.shape.rows m.shape.cols r m.valid.2.2.1).trans m.valid.2.2.2
  refine ⟨_, hle, hsum, ?_⟩
  rw [hsum, round_natCast hle]

/-- The rounded sum of a row passes under the exactness of its pattern. -/
theorem roundToBf16_passes (hgenerated : Generated options p prepared)
    (hshape : options.shape = m.shape) (hrep : m.Represents prepared) {r : ℕ}
    (hr : r < m.shape.rows) :
    RowPasses rd p.isExact (m.rowSum r) (m.rowAbsSum r) m.shape.cols
      (bf16Value (roundToBf16 (m.rowSum r))) := by
  have hs := QuantizedMatrix.rowSum_onGrid hr
  have habs := m.rowAbsSum_nonneg r
  have hwidth := m.valid.2.2.2
  rw [roundToBf16, bf16Value_encode_of_onGrid hs]
  cases hexact : p.isExact with
  | false => exact rowPasses_of_abs_sub_le rd hs habs hwidth (abs_round_sub_le_of_onGrid hs)
  | true =>
    obtain ⟨n, _, hsum, hround⟩ := hgenerated.exists_rounded hexact hshape hrep hr
    rw [hround, ← hsum]
    exact rowPasses_self rd hs habs hwidth true

/-- A correct readback of a generated input passes. -/
theorem CorrectReadback.passes (hwords : CorrectReadback options prepared words)
    (hgenerated : Generated options p prepared) (hshape : options.shape = m.shape)
    (hrep : m.Represents prepared) : ReadbackPasses rd p.isExact m (resultBits words) := by
  have hpadding := hwords.padding
  rw [hshape] at hpadding
  refine ⟨fun r hr => ?_, hpadding⟩
  rw [hwords.rows r (hshape ▸ hr), hrep.row_eq hr]
  exact roundToBf16_passes hgenerated hshape hrep hr

end Readback

section Run

variable {env : HostEnv} {files : String → Option InputFile} {args : List String}
  {options : Options} {first : PreparedInput}

/-- Whatever is read back for an input of the run are its rounded row sums. -/
def CorrectDevice (env : HostEnv) (options : Options) (first : PreparedInput) : Prop :=
  ∀ i pattern prepared upload words, inputSequence env options first i = .ok (pattern, prepared) →
    transferWords env.upstream prepared = .ok upload →
    env.device.launch i upload (poison (prepared.paddedRows / 32)) = .ok words →
    CorrectReadback options prepared words

/-- A correct device never makes a record of generated inputs fail. -/
theorem CorrectDevice.status (hcorrect : CorrectDevice env options first)
    (hup : env.upstream.UntilizeAgrees) (h : beforeDevice env files args = .ok (options, first))
    (hfile : options.inputFile = "") :
    ∀ record ∈ (run env options first).1, record.status = "pass" := by
  intro record hrecord
  obtain ⟨i, hi⟩ := List.mem_iff_getElem?.mp hrecord
  obtain ⟨p, input, m, words, hlaunched, _, hgenerated, rfl⟩ := run_generated hup h hfile hi
  obtain ⟨upload, hupload, hread⟩ := hlaunched.readback
  have hwords := hcorrect i _ _ upload words hlaunched.input hupload hread
  exact launchRecord_status_iff.mpr
    (hwords.passes hgenerated hlaunched.launchInput.shape hlaunched.launchInput.represents)

/-- On a correct device that raises nothing and closes, the program ends with exit code 0. -/
theorem CorrectDevice.main_exitCode (hcorrect : CorrectDevice env options first)
    (hagree : env.upstream.UploadAgrees) (hup : env.upstream.UntilizeAgrees)
    (h : beforeDevice env files args = .ok (options, first)) (hfile : options.inputFile = "")
    (hmesh : env.device.createUnitMesh = .ok ())
    (hquiet : env.device.Quiet (padded options.shape.rows / 32))
    (hclose : env.device.close = .ok true) : (main env files args).exitCode = 0 := by
  obtain ⟨pass, hok⟩ := (run_quiet hup h hquiet).2 hagree
  obtain ⟨_, hpass⟩ := (run_spec hup h).2 pass hok
  have hall : pass = true := by
    rw [hpass, List.all_eq_true]
    exact fun record hrecord => decide_eq_true (hcorrect.status hup h hfile record hrecord)
  have hdevice : onDevice env options first = ((run env options first).1, .ok true) := by
    rw [onDevice, hmesh, ← Prod.mk.eta (p := run env options first), hok, hall, hclose]
    rfl
  rw [main_of_beforeDevice h, hdevice]
  rfl

end Run

section Values

variable {env : HostEnv} {files : String → Option InputFile} {args : List String}
  {options : Options} {first prepared : PreparedInput} {m : QuantizedMatrix} {words : List Word32}

/-- A record whose results equal natural references prints natural numbers and its wall time. -/
theorem launchRecord_values {i : ℕ} {pattern : String}
    (hwords : ∀ r < m.shape.rows, ∃ n : ℕ, n ≤ 128 ∧ m.rowSum r = n ∧
      bf16Value (outputWord (resultBits words) r 0) = .finite n) {x : FloatValue}
    (hx : x ∈ (launchRecord env options i pattern prepared m true words).fields.flatMap
      fun field => field.2.values) :
    x = env.device.seconds i ∨ ∃ n : ℕ, n ≤ 128 ∧ x = .finite n := by
  have hrow : ∀ r ∈ List.range m.shape.rows, ∃ n : ℕ, n ≤ 128 ∧
      comparedRow env.rd true (m.rowSum r) (m.rowAbsSum r) m.shape.cols
        (bf16Value (outputWord (resultBits words) r 0)) =
      { actual := .finite n, reference := .finite n, absError := .finite 0, tolerance := .finite 0,
        scaledError := .finite 0, finite := true, pass := true } := by
    intro r hr
    obtain ⟨n, hn, hsum, hvalue⟩ := hwords r (List.mem_range.mp hr)
    rw [hsum, hvalue]
    exact ⟨n, hn, comparedRow_self env.rd n _ _⟩
  have hzero : ((List.range m.shape.rows).map fun _ => (0 : ℚ)).foldl max 0 = 0 := by
    induction List.range m.shape.rows with
    | nil => rfl
    | cons r l ih => simpa using ih
  have hmaxima := @foldl_push_max _ (fun r => comparedRow env.rd true (m.rowSum r) (m.rowAbsSum r)
    m.shape.cols (bf16Value (outputWord (resultBits words) r 0))) (fun _ => 0) (fun _ => 0)
    (List.range m.shape.rows) ?_ {} 0 0 rfl rfl
  · rw [hzero] at hmaxima
    have hnone : x = .finite 0 → ∃ n : ℕ, n ≤ 128 ∧ x = .finite n := fun h =>
      ⟨0, by norm_num, by rw [h, Nat.cast_zero]⟩
    rcases ResultRecord.mem_values hx with ⟨_, hmem, hvalue⟩ | h | h | h
    · rw [launchRecord, emitResult, judgementOf_rows] at hmem
      obtain ⟨r, hr, rfl⟩ := List.mem_map.mp hmem
      obtain ⟨n, hn, heq⟩ := hrow r hr
      rw [heq] at hvalue
      rcases hvalue with h | h | h | h
      · exact Or.inr ⟨n, hn, h⟩
      · exact Or.inr ⟨n, hn, h⟩
      · exact Or.inr (hnone h)
      · exact Or.inr (hnone h)
    · exact Or.inr (hnone (h.trans hmaxima.1))
    · exact Or.inr (hnone (h.trans hmaxima.2))
    · exact Or.inl h
  · intro r hr
    obtain ⟨n, _, heq⟩ := hrow r hr
    rw [heq]
    exact ⟨rfl, rfl, rfl⟩

/-- On a correct device the records of exact patterns print natural numbers and their wall time. -/
theorem CorrectDevice.record_values (hcorrect : CorrectDevice env options first)
    (hup : env.upstream.UntilizeAgrees) (h : beforeDevice env files args = .ok (options, first))
    (hfile : options.inputFile = "") {i : ℕ} {record : ResultRecord}
    (hrecord : (run env options first).1[i]? = some record) (hexact : record.exact = true)
    {x : FloatValue} (hx : x ∈ record.fields.flatMap fun field => field.2.values) :
    x = env.device.seconds i ∨ ∃ n : ℕ, n ≤ 128 ∧ x = .finite n := by
  obtain ⟨p, input, m, words, hlaunched, _, hgenerated, rfl⟩ := run_generated hup h hfile hrecord
  obtain ⟨upload, hupload, hread⟩ := hlaunched.readback
  have hshape := hlaunched.launchInput.shape
  have hrep := hlaunched.launchInput.represents
  have hp : p.isExact = true := by
    rw [launchRecord, emitResult, launchIsExact_name] at hexact
    exact hexact
  rw [hp] at hx
  refine launchRecord_values (fun r hr => ?_) hx
  obtain ⟨n, hn, hsum, hround⟩ := hgenerated.exists_rounded hp hshape hrep hr
  have hwords := hcorrect i _ _ upload words hlaunched.input hupload hread
  have hrow : (input.row r).sum = m.rowSum r := by
    rw [hrep.row_eq hr]
    rfl
  refine ⟨n, hn, hsum, ?_⟩
  rw [hwords.rows r (hshape ▸ hr), hrow, roundToBf16,
    bf16Value_encode_of_onGrid (QuantizedMatrix.rowSum_onGrid hr), hround]

end Values

end RowReduce
