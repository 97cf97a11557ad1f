import RowReduce.Correctness.Recorder

/-!
# What a passing case proves

A case recorded as passed went through every check: the exit code, the number
and order of the records, one source commit, distinct inputs, and for each
record the regenerated input and the physical output within tolerance.
-/

namespace RowReduce

open BinaryFloat Fallible Grid Hexadecimal

variable {env : RunnerEnv} {case : Case} {child : ChildRun}

/-- A list with one distinct element. -/
theorem dedup_length_eq_one_iff {l : List String} :
    l.dedup.length = 1 ↔ ∃ s, l ≠ [] ∧ ∀ t ∈ l, t = s := by
  rw [List.length_eq_one_iff]
  constructor
  · rintro ⟨s, hs⟩
    refine ⟨s, ?_, ?_⟩
    · rintro rfl
      simp at hs
    · intro t ht
      have := List.mem_dedup.mpr ht
      rwa [hs, List.mem_singleton] at this
  · rintro ⟨s, hne, hall⟩
    refine ⟨s, ?_⟩
    have hrep : l = List.replicate l.length s := List.eq_replicate_iff.mpr ⟨rfl, hall⟩
    rw [hrep, List.replicate_dedup (by simpa using hne)]

/-- All elements are distinct when none is lost in the set. -/
theorem dedup_length_eq_iff {l : List String} : l.dedup.length = l.length ↔ l.Nodup := by
  constructor
  · intro h
    rw [← List.dedup_eq_self]
    exact (List.dedup_sublist l).eq_of_length h
  · intro h
    rw [List.dedup_eq_self.mpr h]

/-- Executions pass with one commit, distinct inputs and passing records. -/
theorem classifyExecutions_pass_iff {code : ℤ} {record : CaseRecord} :
    ((classifyExecutions case code record).2 = .ok () ∧
      (classifyExecutions case code record).1.status = some "pass") ↔
    (record.executions.map Validated.compiledSourceCommit).dedup.length = 1 ∧
      (1 < case.repeats →
        ((record.executions.map Validated.inputSha256).dedup.length : ℤ) = case.repeats) ∧
      (∀ r ∈ record.executions, r.status = "pass") ∧ code = 0 := by
  unfold classifyExecutions
  dsimp only
  by_cases h1 : (record.executions.map Validated.compiledSourceCommit).dedup.length ≠ 1
  · rw [if_pos h1]
    simp [h1]
  rw [if_neg h1]
  by_cases h2 : case.repeats > 1 ∧
      ((record.executions.map Validated.inputSha256).dedup.length : ℤ) ≠ case.repeats
  · rw [if_pos h2]
    refine iff_of_false (by simp) ?_
    rintro ⟨_, h, _⟩
    exact h2.2 (h h2.1)
  rw [if_neg h2]
  have h2' : 1 < case.repeats →
      ((record.executions.map Validated.inputSha256).dedup.length : ℤ) = case.repeats :=
    fun h => by_contra fun hn => h2 ⟨h, hn⟩
  by_cases h3 : (record.executions.any fun r => r.status != "pass") = true
  · rw [if_pos h3]
    refine iff_of_false (by simp) ?_
    rintro ⟨_, _, h, _⟩
    simp only [List.any_eq_true, bne_iff_ne] at h3
    obtain ⟨r, hr, hne⟩ := h3
    exact hne (h r hr)
  · rw [if_neg h3]
    have h3' : ∀ r ∈ record.executions, r.status = "pass" := by simpa using h3
    by_cases hcode : code = 0
    · exact iff_of_true ⟨rfl, by simp [hcode]⟩ ⟨not_not.mp h1, h2', h3', hcode⟩
    · exact iff_of_false (by simp [hcode]) (fun h => hcode h.2.2.2)

/-- Entries pass where all of them validate and their executions pass. -/
theorem recordEntries_pass_iff {stdout : List Byte} (hout : child.stdout = some stdout) {code : ℤ}
    {record : CaseRecord} :
    ((recordEntries env case child code record).2 = .ok () ∧
      (recordEntries env case child code record).1.status = some "pass") ↔
    ∃ entries executions, EntriesOf env stdout entries ∧ (entries.length : ℤ) = case.repeats ∧
      validateEntries env case entries = .ok executions ∧
      (executions.map Validated.compiledSourceCommit).dedup.length = 1 ∧
      (1 < case.repeats →
        ((executions.map Validated.inputSha256).dedup.length : ℤ) = case.repeats) ∧
      (∀ r ∈ executions, r.status = "pass") ∧ code = 0 := by
  have hentries := fun entries => @readEntries_eq_ok_iff env child stdout hout entries
  simp only [← hentries]
  unfold recordEntries
  cases hread : readEntries env child with
  | error e => simp
  | ok entries =>
    simp only [Except.ok.injEq, exists_and_left, exists_eq_left']
    by_cases hcount : (entries.length : ℤ) ≠ case.repeats
    · rw [if_pos hcount]
      refine iff_of_false ?_ (fun h => hcount h.1)
      rintro ⟨_, h⟩
      by_cases hcode : code ≠ 0 <;> simp [hcode] at h
    · rw [if_neg hcount]
      cases hvalid : validateEntries env case entries with
      | error e => simp
      | ok executions =>
        simp only [classifyExecutions_pass_iff, Except.ok.injEq, exists_eq_left', not_not.mp hcount,
          true_and]

/-- The runs recorded as passed. -/
theorem runCase_pass_iff {stdout : List Byte} (hout : child.stdout = some stdout) :
    (∃ record, runCase env case child = .ok record ∧ record.status = some "pass") ↔
    ∃ exit entries executions, child.exit = .ok exit ∧ exit.timedOut = false ∧ exit.code = 0 ∧
      EntriesOf env stdout entries ∧ (entries.length : ℤ) = case.repeats ∧
      validateEntries env case entries = .ok executions ∧
      (executions.map Validated.compiledSourceCommit).dedup.length = 1 ∧
      (1 < case.repeats →
        ((executions.map Validated.inputSha256).dedup.length : ℤ) = case.repeats) ∧
      (∀ r ∈ executions, r.status = "pass") := by
  have hbody : (∃ record, runCase env case child = .ok record ∧ record.status = some "pass") ↔
      (runBody env case child).2 = .ok () ∧ (runBody env case child).1.status = some "pass" := by
    rw [runCase]
    cases runBody env case child with
    | mk record outcome =>
      cases outcome with
      | ok _ => simp
      | error e => cases e <;> simp [handleException]
  rw [hbody]
  unfold runBody
  cases hexit : child.exit with
  | error message => simp
  | ok exit =>
    simp only [Except.ok.injEq, exists_and_left, exists_eq_left']
    by_cases htimeout : exit.timedOut = true
    · rw [if_pos htimeout]
      simp [htimeout]
    · rw [if_neg htimeout]
      by_cases hcode : exit.code = 77
      · rw [if_pos hcode]
        simp [hcode]
      · rw [if_neg hcode, recordEntries_pass_iff hout]
        simp only [Bool.not_eq_true] at htimeout
        rw [htimeout]
        constructor
        · rintro ⟨entries, executions, h1, h2, h3, h4, h5, h6, h7⟩
          exact ⟨rfl, h7, entries, h1, h2, executions, h3, h4, h5, h6⟩
        · rintro ⟨_, h7, entries, h1, h2, executions, h3, h4, h5, h6⟩
          exact ⟨entries, executions, h1, h2, h3, h4, h5, h6, h7⟩

/-- Both hexadecimal fields consist of digits only. -/
def HexOnly (result : Json) : Prop :=
  ∀ fields, result = .dict fields → ∀ name ∈ ["quantized_bits_hex", "output_tiled_bits_hex"],
    ∀ text, Json.get fields name = .str text → ∀ c ∈ text.toList, isDigit c = true

/-- The tolerance over exact rationals: zero for the exact patterns, else the budget. -/
def recomputedTolerance (p : Pattern) (cols : ℤ) (sum absSum : ℚ) : ℚ :=
  if p.isExact then 0
  else 2 ^ (-8 : ℤ) * |sum| + (1 + 2 ^ (-8 : ℤ)) * (((cols + 64 : ℤ) * 2 ^ (-24 : ℤ)) /
    (1 - (cols + 64 : ℤ) * 2 ^ (-24 : ℤ))) * absSum + 2 ^ (-20 : ℤ)

/-- What a record shows about its launch: the uploaded bytes are the regenerated input, and the
physical output holds the row sums within tolerance and zeros elsewhere. -/
structure PassingRecord (case : Case) (index : ℕ) (commit : String)
    (fields : List (String × Json)) (p : Pattern) (inputs outputs : List Bf16Word) : Prop where
  repeatIndex : (Json.get fields "repeat_index").eqInt index = true
  sourceCommit : Json.get fields "compiled_source_commit" = .str commit
  pattern : Json.get fields "pattern" = .str p.name
  first : index = 0 → p.name = case.pattern
  uploaded : ∃ text, Json.get fields "quantized_bits_hex" = .str text ∧
    decode text.toList = some (littleEndian inputs)
  regenerated : expectedInputBytes case.rows case.cols p.name case.seed = .ok (littleEndian inputs)
  output : ∃ text, Json.get fields "output_tiled_bits_hex" = .str text ∧
    decode text.toList = some (littleEndian outputs)
  outputLength : outputs.length = padded case.rows.toNat * 32
  rows : ∀ r < case.rows.toNat, ∃ q : ℚ, bf16Value (outputWord outputs r 0) = .finite q ∧
    |q - (rowValues (wordValues inputs) case.cols r).sum| ≤
      recomputedTolerance p case.cols (rowValues (wordValues inputs) case.cols r).sum
        ((rowValues (wordValues inputs) case.cols r).map abs).sum
  padding : PaddingZero case.rows.toNat outputs
  status : Json.get fields "status" = .str "pass"
  paddingZero : Json.get fields "padding_zero" = .bool true

/-- With exact arithmetic the runner's tolerance is the exact one. -/
theorem validatedRow_exact (p : Pattern) (cols : ℤ) (inputs : List ℚ) (q : ℚ) :
    (validatedRow .exact p.isExact (gammaOf .exact cols) inputs q).failed = false ↔
      |q - inputs.sum| ≤ recomputedTolerance p cols inputs.sum (inputs.map abs).sum := by
  rw [validatedRow_failed_iff]
  rfl

/-- An accepted record that passes is evidence of its launch. -/
theorem passingRecord_of_checks {index : ℕ} {fields : List (String × Json)} {p : Pattern}
    {commit : String} {words : List Bf16Word} {actual : List ℚ} {padding : Bool}
    (h : ResultChecks .exact case index fields p commit words actual padding)
    (hhex : HexOnly (.dict fields)) {sha256 : List Byte → String}
    (hpass : (validatedOf .exact sha256 case index fields p commit words actual padding).status =
      "pass") :
    ∃ outputs, PassingRecord case index commit fields p words outputs := by
  obtain ⟨hrows, hstatus, rfl, hpadding⟩ := validatedOf_status_iff.mp hpass
  obtain ⟨inputText, hinput, _, hdecode⟩ := h.input.text
  obtain ⟨bytes, hhexOut, _⟩ := bind_eq_ok_iff.mp h.output
  obtain ⟨text, htext, hlen, _⟩ := fixedHex_eq_ok_iff.mp hhexOut
  obtain ⟨n, hn⟩ : ∃ n : ℕ, case.rows = n := ⟨case.rows.toNat, by have := h.rows_pos; omega⟩
  rw [hn, runnerPaddedRows_natCast] at hlen
  obtain ⟨outputs, houtputs, hlength⟩ := exists_words_of_isDigit (n := padded n * 32)
    (hhex fields rfl "output_tiled_bits_hex" (by simp) text htext) (by omega)
  have hresults := h.results.length
  have hout := h.output
  rw [htext, hn, decodeOutputBits_eq_ok_iff hlength hlen houtputs] at hout
  obtain ⟨hactual, hzero⟩ := hout
  have htoNat : case.rows.toNat = n := by rw [hn, Int.toNat_natCast]
  refine ⟨outputs, h.header.repeatIndex, h.header.sourceCommit, h.header.pattern, h.header.first,
    ⟨inputText, hinput, hdecode⟩, h.input.regenerated, ⟨text, htext, houtputs⟩,
    by rw [htoNat]; exact hlength, ?_, ?_, hstatus, hpadding⟩
  · intro r hr
    refine ⟨_, hactual r (htoNat ▸ hr), (validatedRow_exact p case.cols _ _).mp ?_⟩
    exact hrows _ (List.mem_map.mpr ⟨r, List.mem_range.mpr hr, rfl⟩)
  · rw [htoNat]
    exact outputPaddingZero_eq_true_iff.mp hzero.symm

/-- The hash of a validated record is that of its uploaded bytes. -/
theorem validatedOf_inputSha256 {fr : FloatReading} {sha256 : List Byte → String} {index : ℕ}
    {fields : List (String × Json)} {p : Pattern} {commit : String} {words : List Bf16Word}
    {actual : List ℚ} {padding : Bool} :
    (validatedOf fr sha256 case index fields p commit words actual padding).inputSha256 =
      sha256 (littleEndian words) := rfl

end RowReduce
