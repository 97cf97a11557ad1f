import RowReduce.Correctness.CpuReference
import RowReduce.Correctness.RepeatRun

/-!
# Reading back the previous result

A launch that returned the correct result of the launch before it would be
caught by its comparison, except after a first input that rounds to the row
sums of ones without being all ones.
-/

namespace RowReduce

open BinaryFloat Fallible Grid

variable {env : HostEnv} {files : String → Option InputFile} {args : List String}
  {options : Options} {first prepared : PreparedInput}

/-- The readback of a correct launch: rounded row sums in column zero, zeros elsewhere. -/
structure CorrectReadback (options : Options) (prepared : PreparedInput) (words : List Word32) :
    Prop where
  length : (resultBits words).length = padded options.shape.rows * 32
  rows : ∀ r < options.shape.rows,
    outputWord (resultBits words) r 0 = roundToBf16 (prepared.row r).sum
  padding : PaddingZero options.shape.rows (resultBits words)

/-- Not all ones, yet every rounded row sum is the number of columns. -/
def RoundsToOnes (options : Options) (prepared : PreparedInput) : Prop :=
  (∃ bits ∈ prepared.quantized, bits ≠ 0x3f80#16) ∧
    ∀ r < options.shape.rows, bfloat16.round (prepared.row r).sum = options.shape.cols

/-- An exact comparison with an integer passes just for that integer. -/
theorem exactRow_passes_iff (rd : Rounding binary64) {s a : ℚ} {width n : ℕ}
    (hs : OnGrid (-15) (2 ^ 22) s) :
    RowPasses rd true n a width (bf16Value (roundToBf16 s)) ↔ bfloat16.round s = n := by
  rw [roundToBf16, bf16Value_encode_of_onGrid hs]
  obtain ⟨b, hround⟩ := OnGrid.round bfloat16 s
  have hn : OnGrid 0 n (n : ℚ) := ⟨n, by simp, by simp⟩
  obtain ⟨c, hn⟩ := hn.finer (show bfloat16.minExponent ≤ 0 by decide)
  constructor
  · rintro ⟨q, hq, hle⟩
    obtain rfl := FloatValue.finite.inj hq
    by_contra hne
    rw [toleranceValue, if_pos rfl] at hle
    rw [sub_eq_add_neg] at hle
    exact (hround.add hn.neg).round_ne_zero rd (by decide)
      (by rwa [← sub_eq_add_neg, sub_ne_zero]) (abs_nonpos_iff.mp hle)
  · intro h
    exact ⟨_, rfl, by simp [h, toleranceValue]⟩

/-- A natural number up to the width of a row is kept. -/
theorem round_natCast {n : ℕ} (hn : n ≤ 128) : bfloat16.round n = n :=
  bfloat16.round_of_representable (representable_natCast hn)

/-- A matrix of ones has the number of columns as its row sums. -/
theorem rowSum_of_ones {m : QuantizedMatrix} (hrep : m.Represents prepared)
    (hones : ∀ bits ∈ prepared.quantized, bits = 0x3f80#16) {r : ℕ} (hr : r < m.shape.rows) :
    m.rowSum r = m.shape.cols := by
  have hvalue : ∀ c ∈ List.range m.shape.cols, m.value r c = 1 := by
    intro c hc
    have hmem : m.word r c ∈ prepared.quantized := by
      rw [hrep.quantized, QuantizedMatrix.words, List.mem_map]
      exact ⟨(r, c), mem_positions.mpr ⟨hr, List.mem_range.mp hc⟩, rfl⟩
    rw [QuantizedMatrix.value, hones _ hmem, bf16Value_one, FloatValue.toRat_finite]
  rw [QuantizedMatrix.rowSum, List.map_congr_left hvalue]
  simp

section Accepted

variable (h : beforeDevice env files args = .ok (options, first))

include h

/-- Later inputs are all ones, or all zeros. -/
theorem nextInput_not_roundsToOnes {previous : PreparedInput} {pattern : String}
    (hnext : nextInput env options previous = .ok (pattern, prepared)) :
    ¬RoundsToOnes options prepared := by
  rintro ⟨⟨bits, hbits, hne⟩, hrows⟩
  obtain ⟨p, hp, _, hgenerated, m, hshape, hrep⟩ := nextInput_generated h hnext
  rw [← hshape] at hrows
  split_ifs at hp with hall
  · have hsum := hrows 0 m.valid.1
    rw [hrep.row_eq m.valid.1] at hsum
    have hzero := hgenerated.rowSum_eq (by rw [hp]; rfl) hshape.symm hrep m.valid.1
    rw [hp, patternSum, Nat.cast_zero] at hzero
    have hround : bfloat16.round (m.rowSum 0) = m.shape.cols := hsum
    rw [hzero, ← Nat.cast_zero, round_natCast (Nat.zero_le _), Nat.cast_inj] at hround
    exact m.valid.2.2.1.ne hround
  · exact hne (hgenerated.quantized_eq (by rw [hp]; decide)
      (fun _ _ _ _ => by rw [hp, patternWord]) hshape.symm hrep bits hbits)

/-- How the next launch judges the correct readback of this one. -/
theorem judgeReadback_stale (hup : env.upstream.UntilizeAgrees) {m : QuantizedMatrix}
    (hshape : m.shape = options.shape) (hrep : m.Represents prepared) {pattern' : String}
    {prepared' : PreparedInput} (hnext : nextInput env options prepared = .ok (pattern', prepared'))
    {words : List Word32} (hwords : CorrectReadback options prepared words) :
    ∃ j, judgeReadback env options pattern' prepared' (resultBits words) = .ok j ∧
      (j.comparison.pass = true ↔ RoundsToOnes options prepared) := by
  obtain ⟨p, hp, rfl, hgenerated, m', hshape', hrep'⟩ := nextInput_generated h hnext
  have hexact : p.isExact = true := by
    rw [hp]
    split_ifs <;> rfl
  have hlen := hwords.length
  rw [← hshape'] at hlen
  have hjudge := judgeReadback_eq hup hshape'.symm hrep' hlen (launchIsExact_name p)
  rw [hexact] at hjudge
  have hpass : (judgementOf env.rd true m' (resultBits words)).comparison.pass = true ↔
      ∀ r < m.shape.rows, bfloat16.round (m.rowSum r) =
        patternSum m.shape.rows m.shape.cols r p := by
    rw [judgementOf, judgedRows, comparedRows_pass_iff fun r => bf16Value
      (outputWord (resultBits words) r 0), hshape', ← hshape]
    refine forall₂_congr fun r hr => ?_
    have hsum := hgenerated.rowSum_eq hexact hshape'.symm hrep' (r := r)
      (by rw [hshape', ← hshape]; exact hr)
    rw [hsum, hwords.rows r (hshape ▸ hr), hrep.row_eq hr, hshape', ← hshape]
    exact exactRow_passes_iff env.rd (QuantizedMatrix.rowSum_onGrid hr)
  have hrow : ∀ r < m.shape.rows, (prepared.row r).sum = m.rowSum r := by
    intro r hr
    rw [hrep.row_eq hr]
    rfl
  refine ⟨_, hjudge, hpass.trans ?_⟩
  rw [RoundsToOnes, ← hshape]
  split_ifs at hp with hall
  · -- zeros follow ones, whose sums round to the number of columns
    have hones : ∀ bits ∈ prepared.quantized, bits = 0x3f80#16 :=
      fun bits hbits => beq_iff_eq.mp (List.all_eq_true.mp hall bits hbits)
    constructor
    · intro hzero
      have hround := hzero 0 m.valid.1
      rw [rowSum_of_ones hrep hones m.valid.1, round_natCast m.valid.2.2.2, hp, patternSum,
        Nat.cast_inj] at hround
      exact absurd hround m.valid.2.2.1.ne'
    · rintro ⟨⟨bits, hbits, hne⟩, _⟩
      exact absurd (hones bits hbits) hne
  · have hother : ∃ bits ∈ prepared.quantized, bits ≠ 0x3f80#16 := by
      by_contra hn
      push Not at hn
      exact hall (List.all_eq_true.mpr fun bits hbits => beq_iff_eq.mpr (hn bits hbits))
    simp only [hother, true_and]
    refine forall₂_congr fun r hr => ?_
    rw [hrow r hr, hp, patternSum]

end Accepted

/-- The correct readback of a launch, returned again by the next one, passes its comparison just
when it is the first launch's and the first input rounds to ones. -/
theorem staleReadback_pass_iff (hup : env.upstream.UntilizeAgrees)
    (h : beforeDevice env files args = .ok (options, first)) {k : ℕ} {s s' : RunState}
    {pattern pattern' : String} {prepared' : PreparedInput} {upload upload' words : List Word32}
    (hl : Launching env options first k s pattern prepared upload)
    (hstep : LoopStep env options (first.paddedRows / 32) (k, s) (k + 1, s'))
    (hl' : Launching env options first (k + 1) s' pattern' prepared' upload')
    (hwords : CorrectReadback options prepared words) :
    ∃ j, judgeReadback env options pattern' prepared' (resultBits words) = .ok j ∧
      (j.comparison.pass = true ↔ k = 0 ∧ RoundsToOnes options first) := by
  obtain ⟨m, hshape, hrep⟩ := (hl.invariant h).represented
  obtain ⟨j, hj, hpass⟩ := judgeReadback_stale h hup hshape hrep (hl.nextInput_eq hstep hl') hwords
  refine ⟨j, hj, hpass.trans ?_⟩
  cases k with
  | zero =>
    have hfirst := hl.reached.inputs.1.symm.trans hl.input
    obtain ⟨_, rfl⟩ := Prod.mk.inj (Except.ok.inj hfirst)
    simp
  | succ k =>
    have hinput := hl.input
    rw [launchInput, if_neg (Nat.succ_ne_zero k)] at hinput
    have hrounds := nextInput_not_roundsToOnes h hinput
    simp [hrounds]

/-- No launch accepts the correct readback of the launch before it. -/
def StaleRejected (env : HostEnv) (options : Options) (first : PreparedInput) : Prop :=
  ∀ k s s' pattern pattern' prepared prepared' upload upload' words j,
    Launching env options first k s pattern prepared upload →
    LoopStep env options (first.paddedRows / 32) (k, s) (k + 1, s') →
    Launching env options first (k + 1) s' pattern' prepared' upload' →
    CorrectReadback options prepared words →
    judgeReadback env options pattern' prepared' (resultBits words) = .ok j →
    j.comparison.pass = false

def roundingArguments : List String :=
  ["--rows", "1", "--cols", "2", "--repeat", "2", "--input-file", "input.txt"]

def roundingOptions : Options := { shape := ⟨1, 2⟩, repeats := 2, inputFile := "input.txt" }

/-- One row: one and the largest number below it. -/
def roundingFiles (name : String) : Option InputFile :=
  if name = "input.txt" then some ⟨"1 0.99609375", true⟩ else none

def roundingValues : List Float32 := [0x3f800000#32, 0x3f7f0000#32]

private theorem roundingValues_accepted : AcceptedValues ⟨1, 2⟩ roundingValues := by
  refine ⟨by decide, rfl, ?_, ?_⟩ <;> intro v hv <;>
    simp only [roundingValues, List.mem_cons, List.not_mem_nil, or_false] at hv <;>
    rcases hv with rfl | rfl <;> decide +kernel

private theorem exists_rounding_input : ∃ first,
    beforeDevice idleEnv roundingFiles roundingArguments = .ok (roundingOptions, first) ∧
      (quantize ⟨1, 2⟩ roundingValues roundingValues_accepted).Represents first := by
  obtain ⟨first, _, hrep⟩ := prepareInput_eq_ok idleEnv.rd roundingValues_accepted
  have htokens : tokens "1 0.99609375" = ["1".toList, "0.99609375".toList] := by decide
  have hvalues : originalInput roundingFiles roundingOptions = .ok roundingValues := by
    rw [originalInput, if_neg (by decide)]
    refine readInputFile_eq_ok_iff.mpr ⟨⟨"1 0.99609375", true⟩, rfl, rfl, ?_, by decide⟩
    rw [htokens]
    exact .cons (by decide +kernel) (.cons (by decide +kernel) .nil)
  exact ⟨first, (beforeDevice_eq_ok_iff projectUpstream_uploadAgrees).mpr
    ⟨rfl, rfl, by simp [roundingOptions], roundingValues, hvalues, roundingValues_accepted, hrep⟩,
    hrep⟩

/-- Two in the first result word, zeros in all others. -/
def roundingReadback : List Word32 := 0x00004000#32 :: List.replicate 511 0

private theorem resultBits_roundingReadback :
    resultBits roundingReadback = 0x4000#16 :: List.replicate 1023 0 := by
  rw [roundingReadback, resultBits, List.flatMap_cons]
  change [0x4000#16, 0] ++ resultBits (List.replicate 511 0) = _
  rw [resultBits_replicate_zero]
  rfl

private theorem roundingInput_row {first : PreparedInput}
    (hrep : (quantize ⟨1, 2⟩ roundingValues roundingValues_accepted).Represents first) :
    (first.row 0).sum = 511 / 256 := by
  have hone : bf16Value (floatToBf16 0x3f800000#32) = .finite 1 := by decide +kernel
  have hbelow : bf16Value (floatToBf16 0x3f7f0000#32) = .finite (255 / 256) := by decide +kernel
  rw [hrep.row_eq (by decide)]
  change (bf16Value (floatToBf16 0x3f800000#32)).toRat +
    ((bf16Value (floatToBf16 0x3f7f0000#32)).toRat + 0) = _
  rw [hone, hbelow, FloatValue.toRat_finite, FloatValue.toRat_finite]
  norm_num

private theorem roundingInput_roundsToOnes {first : PreparedInput}
    (hrep : (quantize ⟨1, 2⟩ roundingValues roundingValues_accepted).Represents first) :
    RoundsToOnes roundingOptions first := by
  constructor
  · refine ⟨floatToBf16 0x3f7f0000#32, ?_, by decide +kernel⟩
    rw [hrep.quantized, words_quantize]
    simp [roundingValues]
  · intro r hr
    obtain rfl : r = 0 := by simpa [roundingOptions] using hr
    rw [roundingInput_row hrep]
    decide +kernel

private theorem roundingReadback_correct {first : PreparedInput}
    (hrep : (quantize ⟨1, 2⟩ roundingValues roundingValues_accepted).Represents first) :
    CorrectReadback roundingOptions first roundingReadback := by
  refine ⟨?_, fun r hr => ?_, fun r c hr hc hother => ?_⟩
  · rw [resultBits_roundingReadback, List.length_cons, List.length_replicate]
    decide
  · obtain rfl : r = 0 := by simpa [roundingOptions] using hr
    rw [roundingInput_row hrep, resultBits_roundingReadback]
    decide +kernel
  · -- only the first place holds a nonzero word
    have hindex : tileFaceIndexUnchecked r c 32 ≠ 0 := by
      intro h0
      have heq := @tileFaceIndex_injective 32 (r, c) (0, 0) (by norm_num) hc (by norm_num) h0
      obtain ⟨rfl, rfl⟩ := Prod.mk.inj heq
      exact hother ⟨by decide, rfl⟩
    obtain ⟨k, hk⟩ := Nat.exists_eq_succ_of_ne_zero hindex
    have hzero : ∀ k : ℕ, (List.replicate 1023 (0 : Bf16Word)).getD k 0 = 0 := by
      intro k
      rw [List.getD_eq_getElem?_getD, List.getElem?_replicate]
      split_ifs <;> rfl
    rw [resultBits_roundingReadback, outputWord, hk, List.getD_cons_succ, hzero]
    rfl

/-- Both launches of the command complete. -/
theorem exists_rounding_launches : ∃ first s s' pattern pattern' prepared' upload upload',
    beforeDevice idleEnv roundingFiles roundingArguments = .ok (roundingOptions, first) ∧
    Launching idleEnv roundingOptions first 0 s pattern first upload ∧
    LoopStep idleEnv roundingOptions (first.paddedRows / 32) (0, s) (1, s') ∧
    Launching idleEnv roundingOptions first 1 s' pattern' prepared' upload' ∧
    RoundsToOnes roundingOptions first ∧
      CorrectReadback roundingOptions first roundingReadback := by
  obtain ⟨first, h, hrep⟩ := exists_rounding_input
  have hidle : idleEnv.device.Quiet (padded roundingOptions.shape.rows / 32) :=
    ⟨rfl, rfl, fun _ _ output hlen => ⟨output, rfl, hlen⟩, fun _ => rfl⟩
  have hstart : Reaches idleEnv roundingOptions first 0
      ⟨firstPattern roundingOptions, first, true⟩ := Relation.ReflTransGen.refl
  obtain ⟨pattern, prepared, upload, s', hl, hstep⟩ := exists_launching h
    projectUpstream_uploadAgrees projectUpstream_untilizeAgrees hidle hstart (by decide)
  obtain ⟨pattern', prepared', upload', _, hl', _⟩ := exists_launching h
    projectUpstream_uploadAgrees projectUpstream_untilizeAgrees hidle
    (hstart.tail hstep) (by decide)
  obtain ⟨_, rfl⟩ := Prod.mk.inj (Except.ok.inj hl.input)
  exact ⟨_, _, s', pattern, pattern', prepared', upload, upload', h, hl, hstep, hl',
    roundingInput_roundsToOnes hrep, roundingReadback_correct hrep⟩

/-- After one and the number below it, ones accept the stale two. -/
theorem not_staleRejected_rounding : ∃ first,
    beforeDevice idleEnv roundingFiles roundingArguments = .ok (roundingOptions, first) ∧
      ¬StaleRejected idleEnv roundingOptions first := by
  obtain ⟨first, s, s', pattern, pattern', prepared', upload, upload', h, hl, hstep, hl', hrounds,
    hwords⟩ := exists_rounding_launches
  refine ⟨first, h, fun hrejected => ?_⟩
  obtain ⟨m, hshape, hrep⟩ := (hl.invariant h).represented
  obtain ⟨j, hj, hpass⟩ := judgeReadback_stale h projectUpstream_untilizeAgrees hshape hrep
    (hl.nextInput_eq hstep hl') hwords
  have hfail := hrejected 0 s s' pattern pattern' first prepared' upload upload' _ j hl hstep hl'
    hwords hj
  rw [hpass.mpr hrounds] at hfail
  cases hfail

/-- The same run through the exact condition. -/
theorem staleReadback_pass_iff_rounding : ∃ first pattern' prepared' j,
    beforeDevice idleEnv roundingFiles roundingArguments = .ok (roundingOptions, first) ∧
    nextInput idleEnv roundingOptions first = .ok (pattern', prepared') ∧
    judgeReadback idleEnv roundingOptions pattern' prepared' (resultBits roundingReadback) = .ok j ∧
    j.comparison.pass = true := by
  obtain ⟨first, s, s', pattern, pattern', prepared', upload, upload', h, hl, hstep, hl', hrounds,
    hwords⟩ := exists_rounding_launches
  obtain ⟨j, hj, hpass⟩ :=
    staleReadback_pass_iff projectUpstream_untilizeAgrees h hl hstep hl' hwords
  exact ⟨first, pattern', prepared', j, h, hl.nextInput_eq hstep hl', hj, hpass.mpr ⟨rfl, hrounds⟩⟩

end RowReduce
