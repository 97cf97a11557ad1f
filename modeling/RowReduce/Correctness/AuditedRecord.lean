import RowReduce.Correctness.AuditedWords

/-!
# What the auditor accepts

A host record is accepted exactly when its fields, its words, its vectors and its
reported errors all check, and then the audited values are determined.
-/

namespace RowReduce.Audit

open BinaryFloat Fallible Grid Hexadecimal

variable {fr : FloatReading}

/-- A finite number close to the independently calculated one. -/
def Near (fr : FloatReading) (a : Json) (b : ℚ) : Prop :=
  ∃ x, NumberOf a x ∧ fr.overflows b = false ∧
    isClose fr.rd x (fr.rd.round b) (fr.rd.round (2 / 10 ^ 14)) (fr.rd.round (1 / 10 ^ 18)) = true

/-- A comparison passes where the numbers are near. -/
theorem near_eq_ok_iff {a : Json} {b : ℚ} {label : String} :
    near fr a b label = .ok () ↔ Near fr a b := by
  simp only [near, FloatReading.ofFraction, Near, bind_eq_ok_iff, finite_eq_ok_iff,
    require_eq_ok_iff]
  refine exists_congr fun x => and_congr_right fun _ => ?_
  cases fr.overflows b <;> simp

/-- A number is close to itself. -/
theorem near_of_eq {a : Json} {b : ℚ} (h : NumberOf a (fr.rd.round b))
    (ho : fr.overflows b = false) : Near fr a b :=
  ⟨_, h, ho, by simp [isClose]⟩

/-- The coefficient is defined where its divisor is not zero. -/
theorem auditGamma_eq_ok_iff {cols : ℤ} {gamma : ℚ} : auditGamma cols = .ok gamma ↔
    cols ≠ 2 ^ 24 - 64 ∧ gamma = ((cols + 64 : ℤ) : ℚ) / ((2 ^ 24 - cols - 64 : ℤ) : ℚ) := by
  simp only [auditGamma, bind_eq_ok_iff, throwIf_eq_ok_iff, exists_const, pure_eq_ok,
    Except.ok.injEq]
  constructor
  · rintro ⟨hne, rfl⟩
    exact ⟨by omega, rfl⟩
  · rintro ⟨hne, rfl⟩
    exact ⟨by omega, rfl⟩

/-- The budget of a pattern's row of the given width. -/
def rowLimit (p : Pattern) (cols : ℤ) (inputs : List ℚ) : ℚ :=
  auditBudget p.name (((cols + 64 : ℤ) : ℚ) / ((2 ^ 24 - cols - 64 : ℤ) : ℚ)) inputs.sum
    (inputs.map abs).sum

/-- The exact values of a row with these inputs and this result. -/
def auditedRow (p : Pattern) (cols : ℤ) (inputs : List ℚ) (actual : ℚ) : AuditedRow :=
  ⟨inputs.sum, (inputs.map abs).sum, |actual - inputs.sum|, rowLimit p cols inputs⟩

/-- The checks of one row. -/
structure RowChecks (fr : FloatReading) (p : Pattern) (cols : ℤ) (inputs : List ℚ)
    (cell : Option ℚ) (actual reference error limit : ℚ) : Prop where
  readback : cell = some actual
  reference : reference = inputs.sum
  within : |actual - inputs.sum| ≤ rowLimit p cols inputs
  error : Near fr (.float (.finite error)) |actual - inputs.sum|
  limit : Near fr (.float (.finite limit)) (rowLimit p cols inputs)

/-- What one audited row computes, and what it asks for. -/
theorem auditRow_eq_ok_iff {p : Pattern} {cols : ℤ} {inputs : List ℚ} {matrix : Matrix}
    {actual refs errors limits : List ℚ} {row : ℕ} {audited : AuditedRow} :
    auditRow fr cols p.name inputs matrix actual refs errors limits
        (((cols + 64 : ℤ) : ℚ) / ((2 ^ 24 - cols - 64 : ℤ) : ℚ)) row = .ok audited ↔
      RowChecks fr p cols (rowValues inputs cols row) (matrix (row, 0)) (actual.getD row 0)
        (refs.getD row 0) (errors.getD row 0) (limits.getD row 0) ∧
      audited = auditedRow p cols (rowValues inputs cols row) (actual.getD row 0) := by
  simp only [auditRow, bind_eq_ok_iff, require_eq_ok_iff, near_eq_ok_iff, pure_eq_ok,
    Except.ok.injEq, Unique.exists_iff, PUnit.default_eq_unit]
  constructor
  · rintro ⟨h1, h2, h3, h4, h5, rfl⟩
    exact ⟨⟨h1, h2, h3, h4, h5⟩, rfl⟩
  · rintro ⟨⟨h1, h2, h3, h4, h5⟩, rfl⟩
    exact ⟨h1, h2, h3, h4, h5, rfl⟩

/-- The audited rows of these words and results. -/
def auditedRows (p : Pattern) (rows : ℕ) (cols : ℤ) (inputs : List Bf16Word) (actual : List ℚ) :
    List AuditedRow :=
  (List.range rows).map fun r =>
    auditedRow p cols (rowValues (wordValues inputs) cols r) (actual.getD r 0)

/-- The scaled error of a row. -/
def AuditedRow.scaled (row : AuditedRow) : ℚ := row.error / max row.magnitude (1 / 2 ^ 20)

/-- All the checks on a host record. -/
structure HostChecks (fr : FloatReading) (host : List (String × Json)) (rows cols : ℕ)
    (p : Pattern) (seed repeats : ℤ) (index : ℕ) (inputs outputs : List Bf16Word)
    (actual : List ℚ) : Prop where
  fields : ∀ q ∈ hostFields rows cols p.name seed repeats index, Json.get host q.1 = q.2
  commit : ∃ commit, Json.get host "compiled_source_commit" = .str commit ∧ isCommit commit = true
  input : HexWords (Json.get host "quantized_bits_hex") inputs
  inputLength : inputs.length = rows * cols
  contract : ∀ w ∈ inputs, InContract w
  table : p ≠ .random → inputs =
    (positions rows cols).map fun q => patternWord rows cols q.1 q.2 p
  output : HexWords (Json.get host "output_tiled_bits_hex") outputs
  outputLength : outputs.length = padded rows * 32
  finite : ∀ w ∈ outputs, (bf16Value w).isFinite = true
  padding : PaddingZero rows outputs
  results : VectorOf (Json.get host "actual") rows actual
  vectors : ∃ refs errors limits, VectorOf (Json.get host "reference") rows refs ∧
    VectorOf (Json.get host "abs_errors") rows errors ∧
    VectorOf (Json.get host "tolerances") rows limits ∧
    ∀ r < rows, RowChecks fr p cols (rowValues (wordValues inputs) cols r)
      (some (bf16Value (outputWord outputs r 0)).toRat) (actual.getD r 0) (refs.getD r 0)
      (errors.getD r 0) (limits.getD r 0)
  gamma : (cols : ℤ) ≠ 2 ^ 24 - 64
  maxError : Near fr (Json.get host "max_abs_error")
    (greatest ((auditedRows p rows cols inputs actual).map AuditedRow.error))
  maxScaled : Near fr (Json.get host "max_scaled_error")
    (greatest ((auditedRows p rows cols inputs actual).map AuditedRow.scaled))
  failedRows : Json.get host "failed_rows" = .list []
  wallTime : ∃ t, NumberOf (Json.get host "execute_wall_seconds") t ∧ 0 ≤ t

/-- What the audit returns of a record whose checks hold. -/
def auditedOf (sha256 : List Byte → String) (rows : ℕ) (cols : ℤ) (p : Pattern)
    (inputs outputs : List Bf16Word) (actual : List ℚ) : Audited :=
  let audited := auditedRows p rows cols inputs actual
  { inputSha256 := sha256 (littleEndian inputs)
    outputSha256 := sha256 (littleEndian outputs)
    actual
    reference := audited.map AuditedRow.sum
    absSums := audited.map AuditedRow.magnitude
    absErrors := audited.map AuditedRow.error
    tolerances := audited.map AuditedRow.limit
    maxAbsError := greatest (audited.map AuditedRow.error)
    maxScaledError := greatest (audited.map AuditedRow.scaled)
    inputWords := inputs.map BitVec.toNat }

/-- The audit accepts exactly the records whose checks hold. -/
theorem auditHost_eq_ok_iff {sha256 : List Byte → String} {host : List (String × Json)}
    {rows cols : ℕ} (h0 : 0 < rows) {pattern : String} {seed repeats : ℤ} {index : ℕ}
    {audited : Audited} :
    auditHost fr sha256 host rows cols pattern seed repeats index = .ok audited ↔
      ∃ p inputs outputs actual, pattern = p.name ∧
        HostChecks fr host rows cols p seed repeats index inputs outputs actual ∧
        audited = auditedOf sha256 rows cols p inputs outputs actual := by
  have hcell : ∀ (outputs : List Bf16Word), ∀ r < rows, matrixOf outputs (padded rows) (r, 0) =
      some (bf16Value (outputWord outputs r 0)).toRat := by
    intro outputs r hr
    have := le_padded rows
    rw [matrixOf, if_pos ⟨by simp only; omega, by norm_num⟩]
  have hrows : ∀ (p : Pattern) (inputs outputs : List Bf16Word) (actual refs errors limits : List ℚ)
      (rowsOut : List AuditedRow),
      (List.range rows).mapM (auditRow fr cols p.name (wordValues inputs)
        (matrixOf outputs (padded rows)) actual refs errors limits
        (((cols + 64 : ℤ) : ℚ) / ((2 ^ 24 - cols - 64 : ℤ) : ℚ))) = .ok rowsOut ↔
      (∀ r < rows, RowChecks fr p cols (rowValues (wordValues inputs) cols r)
        (some (bf16Value (outputWord outputs r 0)).toRat) (actual.getD r 0) (refs.getD r 0)
        (errors.getD r 0) (limits.getD r 0)) ∧
      rowsOut = auditedRows p rows cols inputs actual := by
    intro p inputs outputs actual refs errors limits rowsOut
    rw [mapM_eq_ok_iff_forall fun r _ _ => auditRow_eq_ok_iff]
    refine and_congr ?_ Iff.rfl
    simp only [List.mem_range]
    refine forall₂_congr fun r hr => ?_
    rw [hcell outputs r hr]
  have hne : ∀ (p : Pattern) (inputs : List Bf16Word) (actual : List ℚ),
      auditedRows p rows cols inputs actual ≠ [] := by
    intro p inputs actual
    simp only [auditedRows, ne_eq, List.map_eq_nil_iff, List.range_eq_nil]
    omega
  simp only [auditHost, bind_eq_ok_iff, Prod.exists, checkFields_eq_ok_iff, checkHash_eq_ok_iff,
    auditInput_eq_ok_iff, auditOutput_eq_ok_iff, vector_eq_ok_iff, auditGamma_eq_ok_iff,
    pyMax_eq_ok_iff, near_eq_ok_iff, require_eq_ok_iff, Json.eqNil_eq_true_iff, finite_eq_ok_iff,
    Unique.exists_iff, PUnit.default_eq_unit, Int.toNat_natCast, pure_eq_ok, Except.ok.injEq]
  constructor
  · rintro ⟨hfields, hcommit, _, _, _, ⟨p, inputs, rfl, hin, hinlen, hcontract, htable, rfl,
      rfl, rfl⟩,
      _, _, ⟨outputs, hout, houtlen, hfinite, hpadding, rfl, rfl⟩, actual, hactual, refs, hrefs,
      errors, herrors, limits, hlimits, _, ⟨hgamma, rfl⟩, _, hall, _, ⟨_, rfl⟩, _, ⟨_, rfl⟩,
      hmax, hscaled, hfailed, t, ht, hnonneg, rfl⟩
    obtain ⟨hchecks, rfl⟩ := (hrows p inputs outputs actual refs errors limits _).mp hall
    exact ⟨p, inputs, outputs, actual, rfl, ⟨hfields, hcommit, hin, hinlen, hcontract, htable, hout,
      houtlen, hfinite, hpadding, hactual, ⟨refs, errors, limits, hrefs, herrors, hlimits, hchecks⟩,
      hgamma, hmax, hscaled, hfailed, t, ht, hnonneg⟩, rfl⟩
  · rintro ⟨p, inputs, outputs, actual, rfl, h, rfl⟩
    obtain ⟨refs, errors, limits, hrefs, herrors, hlimits, hchecks⟩ := h.vectors
    obtain ⟨t, ht, hnonneg⟩ := h.wallTime
    exact ⟨h.fields, h.commit, _, _, _,
      ⟨p, inputs, rfl, h.input, h.inputLength, h.contract, h.table, rfl, rfl, rfl⟩,
      _, _, ⟨outputs, h.output, h.outputLength, h.finite, h.padding, rfl, rfl⟩, actual, h.results,
      refs, hrefs, errors, herrors, limits, hlimits, _, ⟨h.gamma, rfl⟩, _,
      (hrows p inputs outputs actual refs errors limits _).mpr ⟨hchecks, rfl⟩, _,
      ⟨by simpa using hne p inputs actual, rfl⟩, _, ⟨by simpa using hne p inputs actual, rfl⟩,
      h.maxError, h.maxScaled, h.failedRows, t, ht, hnonneg, rfl⟩

end RowReduce.Audit
