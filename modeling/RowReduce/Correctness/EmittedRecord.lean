import RowReduce.Correctness.ValidatedResult
import RowReduce.Correctness.Verdict
import RowReduce.Runner.HostRecord

/-!
# Emitted records under the runner's checks

Every printed record of a generated input, read back, passes all the checks of
the runner, which then recomputes the host's own values and verdict.
-/

namespace RowReduce

open BinaryFloat Fallible Grid Hexadecimal

/-- What is printed without a point is in the double range. -/
theorem num_not_overflows {q : ℚ} (h : q.den = 1 ∧ |q| < 10 ^ 17) :
    FloatReading.ieee.overflows (q.num : ℚ) = false := by
  rw [← Bool.not_eq_true, ieee_overflows_iff, not_le]
  have habs : ((|q.num| : ℤ) : ℚ) < ((10 ^ 17 : ℤ) : ℚ) := by
    rw [Int.cast_abs, (Rat.den_eq_one_iff q).mp h.1]
    exact_mod_cast h.2
  exact (Int.cast_lt.mp habs).trans (by decide +kernel)

/-- A finite double is read back as itself, printed with or without a point. -/
theorem numberOf_readNumber {q : ℚ} (h : q.den = 1 → binary64.round q = q) :
    NumberOf (readNumber (.finite q)) q := by
  rw [readNumber]
  split_ifs with hint
  · have hnumber := NumberOf.int (num_not_overflows hint)
    rwa [(Rat.den_eq_one_iff q).mp hint.1, h hint.1] at hnumber
  · exact .float q

/-- A nonnegative number is read back as a nonnegative one. -/
theorem exists_numberOf_readNumber {t : ℚ} (ht : 0 ≤ t) :
    ∃ x, NumberOf (readNumber (.finite t)) x ∧ 0 ≤ x := by
  rw [readNumber]
  split_ifs with hint
  · have hnum : (0 : ℚ) ≤ t.num := by exact_mod_cast Rat.num_nonneg.mpr ht
    exact ⟨_, .int (num_not_overflows hint), binary64.round_nonneg hnum⟩
  · exact ⟨t, .float t, ht⟩

/-- Below `2 ^ 53` every integer is a double. -/
theorem numberOf_readNumber_of_abs_lt {q : ℚ} (h : |q| < 2 ^ 53) :
    NumberOf (readNumber (.finite q)) q := by
  refine numberOf_readNumber fun hden => ?_
  have hq : ((q.num : ℤ) : ℚ) = q := Rat.den_eq_one_iff q |>.mp hden
  have hnum : |q.num| < 2 ^ binary64.precision := by
    have habs : ((|q.num| : ℤ) : ℚ) < ((2 ^ 53 : ℤ) : ℚ) := by
      rw [Int.cast_abs, hq]
      exact_mod_cast h
    exact Int.cast_lt.mp habs
  have hround := (Rounding.nearestEven binary64).round_intCast_mul hnum
    (by decide : binary64.minExponent ≤ 0)
  rw [zpow_zero, mul_one, hq] at hround
  exact hround

/-- A printed double reads as its number. -/
theorem numberOf_readNumber_of_representable {q : ℚ} (h : binary64.Representable q) :
    NumberOf (readNumber (.finite q)) q :=
  numberOf_readNumber fun _ => binary64.round_of_representable h

/-- A finite word's value is a double. -/
theorem bf16Value_representable {w : Bf16Word} (h : (bf16Value w).isFinite = true) :
    binary64.Representable (bf16Value w).toRat := by
  have hmagnitude := (bfloat16.magnitude_representable (wordMagnitude w)).mono
    (by decide : bfloat16.precision ≤ binary64.precision)
    (by decide : binary64.minExponent ≤ bfloat16.minExponent)
  have hlt := (isFinite_bf16Value_iff w).mp h
  rw [bf16Value_eq, if_neg (by omega), if_neg (by omega), FloatValue.toRat_finite]
  split_ifs
  · exact hmagnitude.neg
  · exact hmagnitude

/-- A printed list of numbers is read back as a vector. -/
theorem vectorOf_readNumber {xs : List ℚ} (h : ∀ q ∈ xs, NumberOf (readNumber (.finite q)) q) :
    VectorOf (Emitted.numbers (xs.map .finite)).toJson xs.length xs := by
  refine ⟨_, rfl, by simp, ?_⟩
  rw [List.map_map, List.forall₂_map_left_iff, List.forall₂_same]
  exact h

section Rows

variable {m : QuantizedMatrix} {r : ℕ}

/-- A row of the uploaded values is the matrix's row. -/
theorem rowValues_words (hr : r < m.shape.rows) :
    rowValues (wordValues m.words) m.shape.cols r =
      (List.range m.shape.cols).map fun c => m.value r c := by
  have hvalues : wordValues m.words =
      (positions m.shape.rows m.shape.cols).map fun p => m.value p.1 p.2 := by
    simp only [wordValues, QuantizedMatrix.words, List.map_map, Function.comp_def,
      QuantizedMatrix.value]
  have hlen : (wordValues m.words).length = m.shape.rows * m.shape.cols := by
    rw [hvalues, List.length_map, length_positions]
  have hrow : r * m.shape.cols + m.shape.cols ≤ m.shape.rows * m.shape.cols := by
    rw [← Nat.succ_mul]
    exact Nat.mul_le_mul_right _ hr
  rw [rowValues, Int.toNat_natCast]
  apply List.ext_getElem?
  intro c
  by_cases hc : c < m.shape.cols
  · rw [List.getElem?_take_of_lt hc, List.getElem?_drop, hvalues, getElem?_map_positions hr hc,
      List.getElem?_map, List.getElem?_range hc, Option.map_some]
  · rw [List.getElem?_eq_none (by simp; omega), List.getElem?_eq_none (by simp; omega)]

/-- The sums the runner takes of the words are those of the matrix. -/
theorem sum_rowValues_words (hr : r < m.shape.rows) :
    (rowValues (wordValues m.words) m.shape.cols r).sum = m.rowSum r ∧
      ((rowValues (wordValues m.words) m.shape.cols r).map abs).sum = m.rowAbsSum r := by
  rw [rowValues_words hr, List.map_map]
  exact ⟨rfl, rfl⟩

/-- The row sums are doubles. -/
theorem rowSum_representable (hr : r < m.shape.rows) : binary64.Representable (m.rowSum r) :=
  (QuantizedMatrix.rowSum_onGrid hr).representable (by decide) (by decide)

private theorem rowAbsSum_representable (hr : r < m.shape.rows) :
    binary64.Representable (m.rowAbsSum r) :=
  (QuantizedMatrix.rowAbsSum_onGrid hr).representable (by decide) (by decide)

end Rows

/-- Up to the contract's width the runner's coefficient is the host's. -/
theorem gammaOf_natCast {fr : FloatReading} {width : ℕ} (hw : width ≤ 128) :
    gammaOf fr width = gammaCoefficient fr.rd width := by
  have hround : fr.rd.round ((width + 64 : ℤ) : ℚ) = (width + 64 : ℕ) := by
    have h := fr.rd.round_intCast_mul (n := (width + 64 : ℕ)) (e := 0) ?_ (by decide)
    · rw [zpow_zero, mul_one] at h
      exact_mod_cast h
    · have : width + 64 < 2 ^ 53 := by omega
      rw [Nat.abs_cast]
      exact_mod_cast this
  rw [gammaOf, gammaCoefficient, hround]

private theorem gammaDefined_natCast {fr : FloatReading} {width : ℕ} (hw : width ≤ 128) :
    GammaDefined fr width := by
  refine ⟨fr.not_overflows ?_, by omega⟩
  rw [abs_of_nonneg (by positivity)]
  have : ((width : ℤ) + 64 : ℤ) ≤ 2 ^ 53 := by omega
  exact_mod_cast this

/-- The runner recomputes the host's comparison of a row. -/
theorem validatedRow_words {fr : FloatReading} {m : QuantizedMatrix} {r : ℕ}
    (hr : r < m.shape.rows) (exact : Bool) (q : ℚ) :
    validatedRow fr exact (gammaOf fr m.shape.cols)
        (rowValues (wordValues m.words) m.shape.cols r) q =
      { reference := m.rowSum r
        absSum := m.rowAbsSum r
        tolerance := toleranceValue fr.rd exact (m.rowSum r) (m.rowAbsSum r) m.shape.cols
        error := |fr.rd.round (q - m.rowSum r)|
        failed := !(comparedRow fr.rd exact (m.rowSum r) (m.rowAbsSum r) m.shape.cols
          (.finite q)).pass } := by
  obtain ⟨hsum, habs⟩ := sum_rowValues_words hr
  have hs := fr.rd.representable (rowSum_representable hr)
  have ha := fr.rd.representable (rowAbsSum_representable hr)
  have htolerance : (if exact = true then 0 else runnerBudget fr (gammaOf fr m.shape.cols)
      (m.rowSum r) (m.rowAbsSum r)) =
        toleranceValue fr.rd exact (m.rowSum r) (m.rowAbsSum r) m.shape.cols := by
    rw [gammaOf_natCast m.valid.2.2.2]
    rfl
  simp only [validatedRow, hsum, habs, hs, ha, htolerance, comparedRow,
    FloatValue.isFinite_finite, FloatValue.sub_finite, FloatValue.abs_finite,
    FloatValue.le_finite, Bool.true_and]
  congr 1
  rw [← decide_not]
  exact decide_eq_decide.mpr not_le.symm

/-- The case that a command's options ask for. -/
structure Options.Requests (options : Options) (case : Case) : Prop where
  rows : case.rows = options.shape.rows
  cols : case.cols = options.shape.cols
  pattern : case.pattern = options.pattern
  seed : case.seed = options.seed.toNat
  repeats : case.repeats = options.repeats

/-- A simulator run of a binary built from the pinned commit and a commit of the source. -/
structure HostEnv.Pinned (env : HostEnv) : Prop where
  simulator : env.simulator = true
  upstreamCommit : env.upstreamCommit = metalCommit
  sourceCommit : isCommit env.sourceCommit = true

/-- The values of the words in column zero. -/
def columnValues (rows : ℕ) (bits : List Bf16Word) : List ℚ :=
  (List.range rows).map fun r => (bf16Value (outputWord bits r 0)).toRat

/-- An entry of a list over the rows. -/
theorem getD_map_range {rows r : ℕ} (hr : r < rows) (f : ℕ → ℚ) :
    ((List.range rows).map f).getD r 0 = f r := by
  rw [List.getD_eq_getElem?_getD, List.getElem?_map, List.getElem?_range hr, Option.map_some,
    Option.getD_some]

/-- The value the runner reads for a row. -/
theorem getD_columnValues {rows r : ℕ} (hr : r < rows) (bits : List Bf16Word) :
    (columnValues rows bits).getD r 0 = (bf16Value (outputWord bits r 0)).toRat :=
  getD_map_range hr _

section Record

variable {env : HostEnv} {options : Options} {first prepared : PreparedInput} {case : Case} {i : ℕ}
  {p : Pattern} {m : QuantizedMatrix} {words : List Word32}

/-- The header of a printed record is the one the runner asks for. -/
theorem launchRecord_header (hpinned : env.Pinned) (hcase : options.Requests case)
    (hfirst : i = 0 → p.name = options.pattern) (m : QuantizedMatrix) (words : List Word32) :
    HeaderMatches (launchRecord env options i p.name prepared m p.isExact words).jsonFields case i p
      env.sourceCommit where
  rows := by rw [hcase.rows]; exact decide_eq_true rfl
  cols := by rw [hcase.cols]; exact decide_eq_true rfl
  repeatIndex := decide_eq_true rfl
  pattern := rfl
  first h := by rw [hcase.pattern]; exact hfirst h
  seed := by rw [hcase.seed]; exact decide_eq_true rfl
  backend := congrArg Json.str (if_pos hpinned.simulator)
  stage := congrArg Json.str (if_pos hpinned.simulator)
  sourceCommit := rfl
  isCommit := hpinned.sourceCommit
  nodes := rfl
  repeatCount := by rw [hcase.repeats]; exact decide_eq_true rfl
  upstream := congrArg Json.str hpinned.upstreamCommit
  inputEncoding := rfl
  outputEncoding := rfl
  layoutVerified := rfl
  quantizationVerified := rfl

/-- The printed flag is the pattern's. -/
theorem launchRecord_exact : (launchRecord env options i p.name prepared m p.isExact words).exact =
    p.isExact := by
  rw [launchRecord, emitResult, launchIsExact_name]
  rfl

variable {fr : FloatReading} (hshape : options.shape = m.shape)
  (hfinite : ∀ r < m.shape.rows, (bf16Value (outputWord (resultBits words) r 0)).isFinite = true)

include hfinite in
/-- Finite results are printed as the values of column zero. -/
theorem launchRecord_actual (exact : Bool) :
    (launchRecord env options i p.name prepared m exact words).comparison.rows.map
        RowComparison.actual =
      (columnValues m.shape.rows (resultBits words)).map .finite := by
  rw [launchRecord, emitResult, judgementOf_rows, judgedRows, columnValues, List.map_map,
    List.map_map]
  refine List.map_congr_left fun r hr => ?_
  simp only [Function.comp_apply, comparedRow]
  exact FloatValue.eq_finite_toRat (hfinite r (List.mem_range.mp hr))

/-- The references of a printed record are the row sums. -/
theorem launchRecord_reference (exact : Bool) :
    (launchRecord env options i p.name prepared m exact words).comparison.rows.map
        RowComparison.reference =
      ((List.range m.shape.rows).map m.rowSum).map .finite := by
  rw [launchRecord, emitResult, judgementOf_rows, judgedRows, List.map_map, List.map_map]
  rfl

include hshape hfinite

/-- Every check of the runner holds of the printed record of a generated input. -/
theorem launchRecord_checks (hrep : m.Represents prepared) (hpinned : env.Pinned)
    (hcase : options.Requests case) (hfirst : i = 0 → p.name = options.pattern)
    (hgenerated : Generated options p prepared)
    (hlen : (resultBits words).length = padded m.shape.rows * 32) :
    ResultChecks fr case i (launchRecord env options i p.name prepared m p.isExact words).jsonFields
      p env.sourceCommit m.words (columnValues m.shape.rows (resultBits words))
      (outputPaddingZero m.shape.rows (resultBits words)) := by
  obtain ⟨hr0, hr1, hc0, hc1⟩ := m.valid
  set record := launchRecord env options i p.name prepared m p.isExact words with hrecord
  have hrows : case.rows = m.shape.rows := by rw [hcase.rows, hshape]
  have hcols : case.cols = m.shape.cols := by rw [hcase.cols, hshape]
  have hregenerated := hgenerated.regenerated
  rw [← hcase.rows, ← hcase.cols, ← hcase.seed, hrep.quantized] at hregenerated
  have hwords := (regenerated_spec hregenerated).1
  have hactual : Json.get record.jsonFields "actual" =
      (Emitted.numbers ((columnValues m.shape.rows (resultBits words)).map .finite)).toJson := by
    rw [← launchRecord_actual hfinite p.isExact, ResultRecord.get_jsonFields rfl]
  have hreference : Json.get record.jsonFields "reference" =
      (Emitted.numbers (((List.range m.shape.rows).map m.rowSum).map .finite)).toJson := by
    rw [← launchRecord_reference p.isExact, ResultRecord.get_jsonFields rfl]
  exact {
    header := launchRecord_header hpinned hcase hfirst m words
    input := ⟨⟨quantizedBitsHex prepared.quantized, rfl, by
      rw [length_quantizedBitsHex, hrep.quantized, hwords, hrows, hcols, Int.toNat_natCast,
        Int.toNat_natCast]
      push_cast
      ring, by rw [decode_quantizedBitsHex, hrep.quantized]⟩, hregenerated⟩
    results := by
      rw [hactual, hrows]
      have hvector := @vectorOf_readNumber (columnValues m.shape.rows (resultBits words))
        fun q hq => ?_
      · rwa [columnValues, List.length_map, List.length_range] at hvector
      · obtain ⟨r, hr, rfl⟩ := List.mem_map.mp hq
        exact numberOf_readNumber_of_representable
          (bf16Value_representable (hfinite r (List.mem_range.mp hr)))
    output := by
      rw [hrows]
      refine (decodeOutputBits_eq_ok_iff hlen ?_ (decode_quantizedBitsHex _)).mpr ⟨?_, rfl⟩
      · rw [length_quantizedBitsHex, hlen]
        push_cast
        ring
      · intro r hr
        rw [getD_columnValues hr]
        exact FloatValue.eq_finite_toRat (hfinite r hr)
    reference := by
      refine ⟨(List.range m.shape.rows).map m.rowSum, ?_, ?_⟩
      · rw [hreference, hrows]
        have hvector := @vectorOf_readNumber ((List.range m.shape.rows).map m.rowSum)
          fun q hq => ?_
        · rwa [List.length_map, List.length_range] at hvector
        · obtain ⟨r, hr, rfl⟩ := List.mem_map.mp hq
          exact numberOf_readNumber_of_representable
            (rowSum_representable (List.mem_range.mp hr))
      · intro r hr
        rw [hrows, Int.toNat_natCast] at hr
        rw [hcols, (sum_rowValues_words hr).1, fr.rd.representable (rowSum_representable hr),
          getD_map_range hr]
    exact := by
      rw [ResultRecord.get_jsonFields rfl, ← launchRecord_exact]
      rfl
    gamma := by
      rw [hcols]
      exact gammaDefined_natCast hc1
    status := by
      rw [ResultRecord.get_jsonFields rfl]
      change Json.str (if _ then _ else _) = _ ∨ Json.str (if _ then _ else _) = _
      split_ifs
      · exact Or.inl rfl
      · exact Or.inr rfl
    rows_pos := by
      rw [hrows]
      exact_mod_cast hr0 }

omit hfinite in
/-- The runner's references are the row sums. -/
theorem validatedRows_reference (hcase : options.Requests case) (actual : List ℚ) :
    (validatedRows fr case p m.words actual).map ValidatedRow.reference =
      (List.range m.shape.rows).map m.rowSum := by
  rw [validatedRows, hcase.rows, hcase.cols, hshape, Int.toNat_natCast, List.map_map]
  refine List.map_congr_left fun r hr => ?_
  rw [Function.comp_apply, validatedRow_words (List.mem_range.mp hr)]

variable (hcase : options.Requests case) (hrd : fr.rd = env.rd)
include hcase hrd

/-- The runner fails a row exactly where the host did. -/
theorem validatedRows_getElem? {r : ℕ} (hr : r < m.shape.rows) :
    ((validatedRows fr case p m.words (columnValues m.shape.rows (resultBits words)))[r]?.map
        ValidatedRow.failed).getD false =
      !((launchRecord env options i p.name prepared m p.isExact words).comparison.rows[r]?.map
        RowComparison.pass).getD true := by
  have hrows : case.rows.toNat = m.shape.rows := by
    rw [hcase.rows, hshape, Int.toNat_natCast]
  have hcols : case.cols = m.shape.cols := by rw [hcase.cols, hshape]
  rw [launchRecord, emitResult, judgementOf_rows, judgedRows, validatedRows, hrows, hcols,
    List.getElem?_map, List.getElem?_map, List.getElem?_range hr]
  simp only [Option.map_some, Option.getD_some]
  rw [getD_columnValues hr, validatedRow_words hr, hrd, ← FloatValue.eq_finite_toRat (hfinite r hr)]

/-- The rows the runner fails are those the record fails. -/
theorem launchRecord_failedRows :
    failedRows (validatedRows fr case p m.words (columnValues m.shape.rows (resultBits words))) =
      (launchRecord env options i p.name prepared m p.isExact words).comparison.failedRows := by
  have hlength : (validatedRows fr case p m.words
      (columnValues m.shape.rows (resultBits words))).length = m.shape.rows := by
    rw [validatedRows, List.length_map, List.length_range, hcase.rows, hshape, Int.toNat_natCast]
  have hlength' : (launchRecord env options i p.name prepared m p.isExact
      words).comparison.rows.length = m.shape.rows := by
    rw [launchRecord, emitResult, judgementOf_rows, judgedRows, List.length_map, List.length_range]
  rw [failedRows, Comparison.failedRows, hlength, hlength']
  refine List.filter_congr fun r hr => ?_
  exact validatedRows_getElem? hshape hfinite hcase hrd (List.mem_range.mp hr)

/-- A record that the host reports as passed is validated as passed. -/
theorem launchRecord_validated_pass {sha256 : List Byte → String}
    (hpass : (launchRecord env options i p.name prepared m p.isExact words).status = "pass") :
    (validatedOf fr sha256 case i
      (launchRecord env options i p.name prepared m p.isExact words).jsonFields p env.sourceCommit
      m.words (columnValues m.shape.rows (resultBits words))
      (outputPaddingZero m.shape.rows (resultBits words))).status = "pass" := by
  obtain ⟨hrows, hzero⟩ := launchRecord_status_iff.mp hpass
  have hpadding := outputPaddingZero_eq_true_iff.mpr hzero
  refine validatedOf_status_iff.mpr ⟨?_, congrArg Json.str hpass, hpadding,
    congrArg Json.bool hpadding⟩
  intro row hrow
  obtain ⟨r, hr, rfl⟩ := List.mem_map.mp hrow
  rw [List.mem_range, hcase.rows, hshape, Int.toNat_natCast] at hr
  rw [hcase.cols, hshape, validatedRow_words hr, hrd, getD_columnValues hr,
    ← FloatValue.eq_finite_toRat (hfinite r hr), Bool.not_eq_false', comparedRow_pass_iff]
  exact hrows r hr

end Record

end RowReduce
