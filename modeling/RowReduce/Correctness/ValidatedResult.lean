import RowReduce.Correctness.Validation

/-!
# What validation accepts

A result record is accepted exactly when all its checks hold, and then the
validated record is determined. An exception escapes exactly on the conversion
of a large integer, or where the error coefficient is undefined.
-/

namespace RowReduce

open BinaryFloat Fallible Grid Hexadecimal

variable {fr : FloatReading}

def GammaDefined (fr : FloatReading) (cols : ℤ) : Prop :=
  fr.overflows (cols + 64 : ℤ) = false ∧ cols ≠ 2 ^ 24 - 64

/-- The coefficient's quotient. -/
def gammaOf (fr : FloatReading) (cols : ℤ) : ℚ :=
  let k := fr.rd.round (fr.rd.round (cols + 64 : ℤ) * 2 ^ (-24 : ℤ))
  fr.rd.round (k / fr.rd.round (1 - k))

private theorem round_units (rd : Rounding binary64) {n : ℤ} (hn : |n| ≤ 2 ^ 24) :
    rd.round (n * 2 ^ (-24 : ℤ)) = n * 2 ^ (-24 : ℤ) := by
  refine rd.round_intCast_mul ?_ (by decide)
  calc |n| ≤ 2 ^ 24 := hn
    _ < 2 ^ 53 := by norm_num

private theorem round_integer (rd : Rounding binary64) {n : ℤ} (hn : |n| < 2 ^ 53) :
    rd.round n = n := by
  have h := rd.round_intCast_mul hn (by decide : binary64.minExponent ≤ 0)
  simpa using h

/-- The divisor of the coefficient vanishes only where it does so exactly. -/
theorem gammaDivisor_eq_zero_iff (rd : Rounding binary64) {n : ℤ} :
    rd.round (1 - rd.round (rd.round n * 2 ^ (-24 : ℤ))) = 0 ↔ n = 2 ^ 24 := by
  have hunit : (0 : ℚ) < 2 ^ (-24 : ℤ) := by positivity
  have hsum : (16777216 : ℚ) * 2 ^ (-24 : ℤ) = 1 := by norm_num
  constructor
  · intro h
    by_contra hne
    rcases lt_or_gt_of_ne hne with hlt | hgt
    · have hle : (n : ℚ) ≤ ((2 ^ 24 - 1 : ℤ) : ℚ) := by exact_mod_cast Int.le_sub_one_of_lt hlt
      have hround := rd.mono hle
      rw [round_integer rd (n := 2 ^ 24 - 1) (by norm_num)] at hround
      have hscaled := rd.mono (mul_le_mul_of_nonneg_right hround hunit.le)
      rw [round_units rd (n := 2 ^ 24 - 1) (by norm_num)] at hscaled
      have hdivisor : ((1 : ℤ) : ℚ) * 2 ^ (-24 : ℤ) ≤
          1 - rd.round (rd.round n * 2 ^ (-24 : ℤ)) := by
        push_cast at hscaled ⊢
        linarith
      have := rd.mono hdivisor
      rw [round_units rd (n := 1) (by norm_num), h] at this
      push_cast at this
      linarith
    · have hle : ((2 ^ 24 + 1 : ℤ) : ℚ) ≤ n := by exact_mod_cast hgt
      have hround := rd.mono hle
      rw [round_integer rd (n := 2 ^ 24 + 1) (by norm_num)] at hround
      have hscaled := rd.mono (mul_le_mul_of_nonneg_right hround hunit.le)
      have hrep : rd.round (((2 ^ 24 + 1 : ℤ) : ℚ) * 2 ^ (-24 : ℤ)) =
          ((2 ^ 24 + 1 : ℤ) : ℚ) * 2 ^ (-24 : ℤ) :=
        rd.round_intCast_mul (by norm_num [binary64]) (by decide)
      rw [hrep] at hscaled
      have hdivisor : 1 - rd.round (rd.round n * 2 ^ (-24 : ℤ)) ≤
          ((-1 : ℤ) : ℚ) * 2 ^ (-24 : ℤ) := by
        push_cast at hscaled ⊢
        linarith
      have := rd.mono hdivisor
      rw [round_units rd (n := -1) (by norm_num), h] at this
      push_cast at this
      linarith
  · rintro rfl
    have hk : rd.round ((2 ^ 24 : ℤ) : ℚ) * 2 ^ (-24 : ℤ) = 1 := by
      rw [round_integer rd (n := 2 ^ 24) (by norm_num)]
      norm_num
    have hone := round_integer rd (n := 1) (by norm_num)
    rw [Int.cast_one] at hone
    rw [hk, hone, sub_self, rd.round_zero]

/-- The coefficient is computed where it is defined. -/
theorem runnerGamma_eq_ok_iff {cols : ℤ} {gamma : ℚ} :
    runnerGamma fr cols = .ok gamma ↔ GammaDefined fr cols ∧ gamma = gammaOf fr cols := by
  unfold GammaDefined runnerGamma FloatReading.ofInt
  by_cases ho : fr.overflows (cols + 64 : ℤ) = true
  · rw [if_pos ho, error_bind, ho]
    simp
  · have hcols : cols + 64 = 2 ^ 24 ↔ cols = 2 ^ 24 - 64 := by omega
    simp only [ho, Bool.not_eq_true] at ho ⊢
    simp only [Bool.false_eq_true, if_false, ok_bind, bind_eq_ok_iff, throwIf_eq_ok_iff,
      exists_const, pure_eq_ok, Except.ok.injEq, gammaDivisor_eq_zero_iff, hcols, true_and]
    exact and_congr_right fun _ => eq_comm

/-- What the coefficient raises is never handled. -/
theorem runnerGamma_escapes_iff {cols : ℤ} :
    Escapes PyException.Handled (runnerGamma fr cols) ↔ ¬GammaDefined fr cols := by
  have hescape : ∀ e, runnerGamma fr cols = .error e → ¬e.Handled := by
    intro e h
    unfold runnerGamma FloatReading.ofInt at h
    split_ifs at h with ho
    · obtain rfl := Except.error.inj h
      exact fun hh => hh
    · simp only [ok_bind, bind_eq_error_iff, throwIf_eq_error_iff, pure_eq_ok, reduceCtorEq,
        and_false, exists_false, or_false] at h
      obtain ⟨_, rfl⟩ := h
      exact fun hh => hh
  constructor
  · rintro ⟨e, he, _⟩ hdefined
    rw [runnerGamma_eq_ok_iff.mpr ⟨hdefined, rfl⟩] at he
    cases he
  · intro hundefined
    cases h : runnerGamma fr cols with
    | error e => exact ⟨e, rfl, hescape e h⟩
    | ok gamma => exact absurd (runnerGamma_eq_ok_iff.mp h).1 hundefined

/-- The values recomputed for a row with these inputs and this result. -/
def validatedRow (fr : FloatReading) (exact : Bool) (gamma : ℚ) (inputs : List ℚ) (actual : ℚ) :
    ValidatedRow :=
  let expected := fr.rd.round inputs.sum
  let absoluteSum := fr.rd.round (inputs.map abs).sum
  let tolerance := if exact then 0 else runnerBudget fr gamma expected absoluteSum
  let error := |fr.rd.round (actual - expected)|
  ⟨expected, absoluteSum, tolerance, error, decide (tolerance < error)⟩

/-- A sum of terms up to one is at most their number. -/
theorem abs_sum_le_length {l : List ℚ} (h : ∀ q ∈ l, |q| ≤ 1) : |l.sum| ≤ l.length := by
  induction l with
  | nil => simp
  | cons q l ih =>
    obtain ⟨hq, hl⟩ := List.forall_mem_cons.mp h
    rw [List.sum_cons, List.length_cons]
    push_cast
    linarith [abs_add_le q l.sum, ih hl]

/-- Sums of at most `cols` values of magnitude one overflow no earlier than `cols` does. -/
theorem sum_not_overflows {cols : ℤ} {l : List ℚ} (ho : fr.overflows (cols + 64 : ℤ) = false)
    (hlen : l.length ≤ cols.toNat) (h : ∀ q ∈ l, |q| ≤ 1) : fr.overflows l.sum = false := by
  by_contra hsum
  rw [Bool.not_eq_false] at hsum
  rcases le_or_gt 0 cols with hc | hc
  · have hle : |l.sum| ≤ |((cols + 64 : ℤ) : ℚ)| := by
      have hnonneg : (0 : ℚ) ≤ ((cols + 64 : ℤ) : ℚ) := by
        exact_mod_cast (by omega : (0 : ℤ) ≤ cols + 64)
      rw [abs_of_nonneg hnonneg]
      refine (abs_sum_le_length h).trans ?_
      exact_mod_cast (by omega : (l.length : ℤ) ≤ cols + 64)
    rw [fr.overflows_mono hle hsum] at ho
    cases ho
  · have hnil : l = [] := List.length_eq_zero_iff.mp (by omega)
    rw [hnil, List.sum_nil, fr.not_overflows (by norm_num)] at hsum
    cases hsum

section Rows

variable {case : Case} {exact : Bool} {gamma : ℚ} {values actual hostReference : List ℚ}

/-- A row has at most its width of values. -/
theorem length_rowValues_le (values : List ℚ) (cols : ℤ) (row : ℕ) :
    (rowValues values cols row).length ≤ cols.toNat := by
  rw [rowValues, List.length_take]
  exact min_le_left _ _

/-- Each of them is at most one. -/
theorem abs_le_one_of_mem_rowValues (hvalues : ∀ q ∈ values, |q| ≤ 1) {cols : ℤ} {row : ℕ}
    {q : ℚ} (hq : q ∈ rowValues values cols row) : |q| ≤ 1 :=
  hvalues q (List.mem_of_mem_drop (List.mem_of_mem_take hq))

variable (ho : fr.overflows (case.cols + 64 : ℤ) = false) (hvalues : ∀ q ∈ values, |q| ≤ 1)
include ho hvalues

/-- The accurate sums of a row are rounded once. -/
theorem fsum_rowValues (row : ℕ) :
    fr.fsum (rowValues values case.cols row) =
        .ok (fr.rd.round (rowValues values case.cols row).sum) ∧
      fr.fsum ((rowValues values case.cols row).map abs) =
        .ok (fr.rd.round ((rowValues values case.cols row).map abs).sum) := by
  have hlen := length_rowValues_le values case.cols row
  have hmem : ∀ q ∈ rowValues values case.cols row, |q| ≤ 1 := fun q hq =>
    abs_le_one_of_mem_rowValues hvalues hq
  constructor
  · rw [FloatReading.fsum, sum_not_overflows ho hlen hmem]
    rfl
  · rw [FloatReading.fsum, sum_not_overflows ho (by simpa using hlen)]
    · rfl
    · intro q hq
      obtain ⟨r, hr, rfl⟩ := List.mem_map.mp hq
      rw [abs_abs]
      exact hmem r hr

/-- A row is accepted when the host's reference is the rounded exact sum. -/
theorem validateRow_eq_ok_iff {row : ℕ} {v : ValidatedRow} :
    validateRow fr case exact gamma values actual hostReference row = .ok v ↔
      hostReference.getD row 0 = fr.rd.round (rowValues values case.cols row).sum ∧
        v = validatedRow fr exact gamma (rowValues values case.cols row) (actual.getD row 0) := by
  obtain ⟨hsum, habs⟩ := fsum_rowValues ho hvalues row
  simp only [validateRow, hsum, habs, ok_bind, bind_eq_ok_iff, throwIf_eq_ok_iff, not_not,
    exists_const, pure_eq_ok, Except.ok.injEq]
  exact and_congr_right fun _ => eq_comm

/-- The failures of a row are handled. -/
theorem validateRow_handled (row : ℕ) : RaisesOnly PyException.Handled
    (validateRow fr case exact gamma values actual hostReference row) := by
  obtain ⟨hsum, habs⟩ := fsum_rowValues ho hvalues row
  simp only [validateRow, hsum, habs, ok_bind]
  exact (raisesOnly_throwIf trivial).bind fun _ _ => raisesOnly_ok _

end Rows

/-- The maximum of a list that is not empty. -/
theorem pyMax_eq_ok_iff {l : List ℚ} {m : ℚ} :
    pyMax l = .ok m ↔ l ≠ [] ∧ m = l.tail.foldl max l.headI := by
  cases l <;> simp [pyMax, eq_comm]

/-- The failure of a maximum is handled. -/
theorem pyMax_handled (l : List ℚ) : RaisesOnly PyException.Handled (pyMax l) := by
  cases l
  · exact raisesOnly_error trivial
  · exact raisesOnly_ok _

/-- All the checks on a record: its header, its uploaded words, its reported and physical
results, its references and its flags. -/
structure ResultChecks (fr : FloatReading) (case : Case) (index : ℕ)
    (fields : List (String × Json)) (p : Pattern) (commit : String) (words : List Bf16Word)
    (actual : List ℚ) (paddingZero : Bool) : Prop where
  header : HeaderMatches fields case index p commit
  input : InputMatches fields case p words
  results : VectorOf (Json.get fields "actual") case.rows actual
  output : decodeOutputBits (Json.get fields "output_tiled_bits_hex") case.rows actual =
    .ok paddingZero
  reference : ∃ reference, VectorOf (Json.get fields "reference") case.rows reference ∧
    ∀ r < case.rows.toNat,
      reference.getD r 0 = fr.rd.round (rowValues (wordValues words) case.cols r).sum
  exact : Json.get fields "exact" = .bool p.isExact
  gamma : GammaDefined fr case.cols
  status : Json.get fields "status" = .str "pass" ∨ Json.get fields "status" = .str "numerical-fail"
  rows_pos : 0 < case.rows

section Result

variable {sha256 : List Byte → String} {case : Case} {index : ℕ}

/-- The rows recomputed from uploaded words and results. -/
def validatedRows (fr : FloatReading) (case : Case) (p : Pattern) (words : List Bf16Word)
    (actual : List ℚ) : List ValidatedRow :=
  (List.range case.rows.toNat).map fun r => validatedRow fr p.isExact (gammaOf fr case.cols)
    (rowValues (wordValues words) case.cols r) (actual.getD r 0)

/-- The scaled error of a row. -/
def scaledError (fr : FloatReading) (row : ValidatedRow) : ℚ :=
  fr.rd.round (row.error / max row.absSum (2 ^ (-20 : ℤ)))

/-- The greatest of a nonempty list. -/
def greatest (l : List ℚ) : ℚ := l.tail.foldl max l.headI

/-- What validation records of an accepted result. -/
def validatedOf (fr : FloatReading) (sha256 : List Byte → String) (case : Case) (index : ℕ)
    (fields : List (String × Json)) (p : Pattern) (commit : String) (words : List Bf16Word)
    (actual : List ℚ) (paddingZero : Bool) : Validated :=
  let rows := validatedRows fr case p words actual
  { repeatIndex := index
    pattern := p.name
    seed := case.seed
    compiledSourceCommit := commit
    inputSha256 := sha256 (littleEndian words)
    actual
    reference := rows.map ValidatedRow.reference
    absSums := rows.map ValidatedRow.absSum
    absErrors := rows.map ValidatedRow.error
    tolerances := rows.map ValidatedRow.tolerance
    exact := p.isExact
    maxAbsError := greatest (rows.map ValidatedRow.error)
    maxScaledError := greatest (rows.map (scaledError fr))
    failedRows := failedRows rows
    outputSha256 :=
      sha256 ((decode (Json.get fields "output_tiled_bits_hex").text.toList).getD [])
    paddingZero
    status :=
      if failedRows rows ≠ [] ∨ (Json.get fields "status").eqStr "pass" = false ∨
        paddingZero = false ∨ (Json.get fields "padding_zero").isBool true = false then
        "numerical-fail"
      else "pass" }

private theorem abs_wordValues_le_one {words : List Bf16Word} (h : ∀ w ∈ words, InContract w) :
    ∀ q ∈ wordValues words, |q| ≤ 1 := by
  intro q hq
  obtain ⟨w, hw, rfl⟩ := List.mem_map.mp hq
  obtain ⟨v, hv, hrange⟩ := h w hw
  rw [hv, FloatValue.toRat_finite]
  rcases hrange with rfl | hrange
  · simp
  · exact hrange.2

/-- A decoded output is a hexadecimal string. -/
theorem exists_fromHex_of_decodeOutputBits {encoded : Json} {rows : ℤ} {actual : List ℚ}
    {padding : Bool} (h : decodeOutputBits encoded rows actual = .ok padding) :
    ∃ bytes, decode encoded.text.toList = some bytes := by
  obtain ⟨bytes, hhex, _⟩ := bind_eq_ok_iff.mp h
  obtain ⟨text, rfl, _, hdecode⟩ := fixedHex_eq_ok_iff.mp hhex
  exact ⟨bytes, hdecode⟩

/-- Validation accepts exactly the records whose checks hold. -/
theorem validateResult_eq_ok_iff {result : Json} {v : Validated} :
    validateResult fr sha256 case index result = .ok v ↔
      ∃ fields p commit words actual paddingZero, result = .dict fields ∧
        ResultChecks fr case index fields p commit words actual paddingZero ∧
        v = validatedOf fr sha256 case index fields p commit words actual paddingZero := by
  cases result with
  | dict fields =>
    simp only [validateResult, bind_eq_ok_iff, Prod.exists, validateHeader_eq_ok_iff,
      finiteVector_eq_ok_iff, throwIf_eq_ok_iff, exists_const, runnerGamma_eq_ok_iff,
      pyMax_eq_ok_iff, fromHex_eq_ok_iff, pure_eq_ok, Except.ok.injEq, Json.dict.injEq]
    constructor
    · rintro ⟨_, commit, ⟨p, rfl, hheader⟩, raw, values, hinput, actual, hactual, padding, houtput,
        reference, hreference, hexact, gamma, ⟨hgamma, rfl⟩, rows, hrows, known, hknown, htrue,
        maxAbs, ⟨hne, rfl⟩, maxScaled, ⟨_, rfl⟩, outputRaw, hraw, rfl⟩
      obtain ⟨words, hwords, rfl, rfl⟩ := uploadedInput_eq_ok_iff.mp hinput
      have hcontract := abs_wordValues_le_one (regenerated_spec hwords.regenerated).2
      rw [mapM_eq_ok_iff_forall fun r _ _ => validateRow_eq_ok_iff hgamma.1 hcontract] at hrows
      obtain ⟨hall, rfl⟩ := hrows
      obtain rfl : known = true := by simpa using htrue
      rw [exactPatterns_contains, Bool.not_eq_false, Json.isBool_eq_true_iff] at hexact
      obtain ⟨s, hs, hstatus⟩ := Json.memNames_eq_ok_true_iff.mp hknown
      refine ⟨fields, p, commit, words, actual, padding, rfl, ⟨hheader, hwords, hactual, houtput,
        ⟨reference, hreference, fun r hr => hall r (List.mem_range.mpr hr)⟩, hexact, hgamma,
          ?_, ?_⟩,
        ?_⟩
      · rw [hstatus]
        simpa using hs
      · by_contra hle
        have : case.rows.toNat = 0 := by omega
        simp [this] at hne
      · simp only [validatedOf, validatedRows, exactPatterns_contains, hraw, Option.getD_some]
        rfl
    · rintro ⟨_, p, commit, words, actual, padding, rfl, h, rfl⟩
      have hcontract := abs_wordValues_le_one (regenerated_spec h.input.regenerated).2
      obtain ⟨reference, hreference, hall⟩ := h.reference
      obtain ⟨outputRaw, hraw⟩ := exists_fromHex_of_decodeOutputBits h.output
      have hrows : (List.range case.rows.toNat).mapM (validateRow fr case p.isExact
          (gammaOf fr case.cols) (wordValues words) actual reference) =
          .ok (validatedRows fr case p words actual) :=
        (mapM_eq_ok_iff_forall fun r _ _ => validateRow_eq_ok_iff h.gamma.1 hcontract).mpr
          ⟨fun r hr => hall r (List.mem_range.mp hr), rfl⟩
      have hne : validatedRows fr case p words actual ≠ [] := by
        have := h.rows_pos
        simp only [validatedRows, ne_eq, List.map_eq_nil_iff, List.range_eq_nil]
        omega
      refine ⟨p.name, commit, ⟨p, rfl, h.header⟩, _, _,
        uploadedInput_eq_ok_iff.mpr ⟨words, h.input, rfl, rfl⟩, actual, h.results, padding,
          h.output,
        reference, hreference, ?_, _, ⟨h.gamma, rfl⟩, validatedRows fr case p words actual,
        by rw [exactPatterns_contains]; exact hrows, true, ?_, by simp, _,
        ⟨by simpa using hne, rfl⟩, _, ⟨by simpa using hne, rfl⟩, outputRaw, hraw, ?_⟩
      · rw [exactPatterns_contains, Bool.not_eq_false, Json.isBool_eq_true_iff]
        exact h.exact
      · rw [Json.memNames_eq_ok_true_iff]
        rcases h.status with hs | hs
        · exact ⟨"pass", by simp, hs⟩
        · exact ⟨"numerical-fail", by simp, hs⟩
      · simp only [validatedOf, exactPatterns_contains, hraw, Option.getD_some]
        rfl
  | _ => simp [validateResult]

/-- A record whose validation raises an exception that is not handled. -/
def ResultEscapes (fr : FloatReading) (case : Case) (index : ℕ) (result : Json) : Prop :=
  ∃ fields p commit words, result = .dict fields ∧ HeaderMatches fields case index p commit ∧
    InputMatches fields case p words ∧
    (OverflowingVector (Json.get fields "actual") case.rows ∨
      ∃ actual paddingZero, VectorOf (Json.get fields "actual") case.rows actual ∧
        decodeOutputBits (Json.get fields "output_tiled_bits_hex") case.rows actual =
          .ok paddingZero ∧
        (OverflowingVector (Json.get fields "reference") case.rows ∨
          (∃ reference, VectorOf (Json.get fields "reference") case.rows reference) ∧
            Json.get fields "exact" = .bool p.isExact ∧ ¬GammaDefined fr case.cols))

/-- Validation lets an exception escape exactly on those records. -/
theorem validateResult_escapes_iff {result : Json} :
    Escapes PyException.Handled (validateResult fr sha256 case index result) ↔
      ResultEscapes fr case index result := by
  cases result with
  | dict fields =>
    have hexact : ∀ p : Pattern,
        (¬(Json.get fields "exact").isBool (exactPatterns.contains p.name) = false) ↔
          Json.get fields "exact" = .bool p.isExact := by
      intro p
      rw [exactPatterns_contains, Bool.not_eq_false, Json.isBool_eq_true_iff]
    simp only [validateResult]
    rw [validateHeader_handled.escapes_bind_iff]
    constructor
    · rintro ⟨⟨_, commit⟩, hheader, h⟩
      obtain ⟨p, rfl, hmatch⟩ := validateHeader_eq_ok_iff.mp hheader
      obtain ⟨⟨raw, values⟩, hinput, h⟩ := (uploadedInput_handled p).escapes_bind_iff.mp h
      obtain ⟨words, hwords, rfl, rfl⟩ := uploadedInput_eq_ok_iff.mp hinput
      have hcontract := abs_wordValues_le_one (regenerated_spec hwords.regenerated).2
      refine ⟨fields, p, commit, words, rfl, hmatch, hwords, ?_⟩
      rcases escapes_bind_iff.mp h with h | ⟨actual, hactual, h⟩
      · exact Or.inl (finiteVector_escapes_iff.mp h)
      right
      obtain ⟨padding, hpadding, h⟩ := (decodeOutputBits_handled _ _ _).escapes_bind_iff.mp h
      refine ⟨actual, padding, finiteVector_eq_ok_iff.mp hactual, hpadding, ?_⟩
      rcases escapes_bind_iff.mp h with h | ⟨reference, hreference, h⟩
      · exact Or.inl (finiteVector_escapes_iff.mp h)
      right
      obtain ⟨_, hflag, h⟩ := (raisesOnly_throwIf trivial).escapes_bind_iff.mp h
      refine ⟨⟨reference, finiteVector_eq_ok_iff.mp hreference⟩,
        (hexact p).mp (throwIf_eq_ok_iff.mp hflag), ?_⟩
      rcases escapes_bind_iff.mp h with h | ⟨gamma, hgamma, h⟩
      · exact runnerGamma_escapes_iff.mp h
      -- with the coefficient defined everything that follows is handled
      exfalso
      obtain ⟨hdefined, rfl⟩ := runnerGamma_eq_ok_iff.mp hgamma
      obtain ⟨outputRaw, hraw⟩ := exists_fromHex_of_decodeOutputBits hpadding
      refine RaisesOnly.not_escapes ?_ h
      refine (raisesOnly_mapM fun r _ => validateRow_handled hdefined.1 hcontract r).bind
        fun rows _ => (memNames_handled _ _).bind fun known _ =>
          (raisesOnly_throwIf trivial).bind fun _ _ => (pyMax_handled _).bind fun _ _ =>
            (pyMax_handled _).bind fun _ _ => ?_
      rw [fromHex_eq_ok_iff.mpr hraw, ok_bind]
      exact raisesOnly_ok _
    · rintro ⟨_, p, commit, words, hfields, hheader, hwords, h⟩
      obtain rfl := Json.dict.inj hfields
      refine ⟨(p.name, commit), validateHeader_eq_ok_iff.mpr ⟨p, rfl, hheader⟩,
        (uploadedInput_handled p).escapes_bind_iff.mpr
          ⟨_, uploadedInput_eq_ok_iff.mpr ⟨words, hwords, rfl, rfl⟩, ?_⟩⟩
      rw [escapes_bind_iff, finiteVector_escapes_iff]
      rcases h with h | ⟨actual, padding, hactual, hpadding, h⟩
      · exact Or.inl h
      refine Or.inr ⟨actual, finiteVector_eq_ok_iff.mpr hactual,
        (decodeOutputBits_handled _ _ _).escapes_bind_iff.mpr ⟨padding, hpadding, ?_⟩⟩
      rw [escapes_bind_iff, finiteVector_escapes_iff]
      rcases h with h | ⟨⟨reference, hreference⟩, hflag, hundefined⟩
      · exact Or.inl h
      refine Or.inr ⟨reference, finiteVector_eq_ok_iff.mpr hreference,
        (raisesOnly_throwIf trivial).escapes_bind_iff.mpr
          ⟨(), throwIf_of_not ((hexact p).mpr hflag), ?_⟩⟩
      rw [escapes_bind_iff, runnerGamma_escapes_iff]
      exact Or.inl hundefined
  | _ => simp [validateResult, Escapes, ResultEscapes, PyException.Handled]

/-- A row fails when its error exceeds its tolerance. -/
theorem validatedRow_failed_iff {exact : Bool} {gamma : ℚ} {inputs : List ℚ} {q : ℚ} :
    (validatedRow fr exact gamma inputs q).failed = false ↔
      (validatedRow fr exact gamma inputs q).error ≤
        (validatedRow fr exact gamma inputs q).tolerance := by
  simp [validatedRow]

/-- The failed rows by their indices. -/
theorem mem_failedRows {rows : List ValidatedRow} {r : ℕ} :
    r ∈ failedRows rows ↔ ∃ row, rows[r]? = some row ∧ row.failed = true := by
  simp only [failedRows, List.mem_filter, List.mem_range]
  constructor
  · rintro ⟨hr, h⟩
    rw [List.getElem?_eq_getElem hr] at h ⊢
    exact ⟨_, rfl, h⟩
  · rintro ⟨row, hrow, hfailed⟩
    obtain ⟨hr, rfl⟩ := List.getElem?_eq_some_iff.mp hrow
    exact ⟨hr, by rw [List.getElem?_eq_getElem hr]; exact hfailed⟩

/-- The status combines the recomputed rows with the host's own verdict. -/
theorem validatedOf_status_iff {fields : List (String × Json)} {p : Pattern} {commit : String}
    {words : List Bf16Word} {actual : List ℚ} {paddingZero : Bool} :
    (validatedOf fr sha256 case index fields p commit words actual paddingZero).status = "pass" ↔
      (∀ row ∈ validatedRows fr case p words actual, row.failed = false) ∧
        Json.get fields "status" = .str "pass" ∧ paddingZero = true ∧
        Json.get fields "padding_zero" = .bool true := by
  have hrows : failedRows (validatedRows fr case p words actual) = [] ↔
      ∀ row ∈ validatedRows fr case p words actual, row.failed = false := by
    rw [List.eq_nil_iff_forall_not_mem]
    simp only [mem_failedRows, not_exists, not_and, Bool.not_eq_true]
    constructor
    · intro h row hmem
      obtain ⟨r, hr⟩ := List.mem_iff_getElem?.mp hmem
      exact h r row hr
    · intro h r row hr
      exact h row (List.mem_iff_getElem?.mpr ⟨r, hr⟩)
  rw [← hrows, ← Json.eqStr_eq_true_iff, ← Json.isBool_eq_true_iff]
  simp only [validatedOf]
  split_ifs with h
  · simp only [String.reduceEq, false_iff, not_and]
    intro h1 h2 h3
    simpa [h1, h2, h3] using h
  · simp only [not_or, ne_eq, not_not, Bool.not_eq_false] at h
    simpa using h

end Result

end RowReduce
