import RowReduce.Correctness.CpuProgram
import RowReduce.Correctness.DoubleRecord
import RowReduce.Correctness.InputChecksum
import RowReduce.Correctness.PrintedRecord

/-!
# Reading back the CPU output

Each printed record is one line of the standard output and is decoded to its
fields, with the comparison of every row nested in it.
-/

namespace RowReduce

open BinaryFloat Fallible Hexadecimal HexStream

variable {maxDigits : Option ℕ}

/-- A text without line boundaries that reads as a value. -/
def PrintsAs (maxDigits : Option ℕ) (text : List Char) (value : Json) : Prop :=
  ReadsAs maxDigits text value ∧ ∀ c ∈ text, isLineBoundary c = false

/-- Counters print as they are read. -/
theorem printsAs_natural (hlimit : DigitLimit maxDigits) {n : ℕ} (hn : n < 2 ^ 64) :
    PrintsAs maxDigits (toString n).toList (.int n) :=
  ⟨readsAs_natural hlimit hn, isLineBoundary_toString n⟩

/-- So do flags. -/
theorem printsAs_flag (b : Bool) :
    PrintsAs maxDigits (if b then "true" else "false").toList (.bool b) := by
  refine ⟨readsAs_flag b, ?_⟩
  cases b <;> decide

/-- A text that needs no escape and holds no boundary prints as it stands. -/
def PlainText (s : String) : Prop := PlainName s ∧ ∀ c ∈ s.toList, isLineBoundary c = false

instance (s : String) : Decidable (PlainText s) := inferInstanceAs (Decidable (_ ∧ _))

/-- So do quoted plain texts. -/
theorem printsAs_quoted {s : String} (h : PlainText s) :
    PrintsAs maxDigits (quoted s) (.str s) := by
  constructor
  · have hread := @readsAs_jsonString maxDigits s
    rw [jsonString, h.1] at hread
    exact hread
  · exact List.forall_mem_cons.mpr ⟨by decide, List.forall_mem_append.mpr ⟨h.2, by decide⟩⟩

/-- And arrays of such values. -/
theorem printsAs_array {l : List (List Char × Json)} (h : ∀ p ∈ l, PrintsAs maxDigits p.1 p.2) :
    PrintsAs maxDigits (jsonArray (l.map Prod.fst)) (.list (l.map Prod.snd)) := by
  refine ⟨readsAs_jsonArray fun p hp => (h p hp).1, ?_⟩
  refine List.forall_mem_cons.mpr ⟨by decide, List.forall_mem_append.mpr ⟨?_, by decide⟩⟩
  exact forall_mem_intercalate (by decide) (List.forall_mem_map.mpr fun p hp => (h p hp).2)

/-- A printed object is read back also where it stands inside another value. -/
theorem readsAs_object {l : List (String × List Char × Json)} (hne : l ≠ [])
    (hnames : ∀ p ∈ l, PlainName p.1) (hvalues : ∀ p ∈ l, ReadsAs maxDigits p.2.1 p.2.2)
    (hnodup : (l.map Prod.fst).Nodup) :
    ReadsAs maxDigits (jsonObject (l.map fun p => (p.1, p.2.1)))
      (.dict (l.map fun p => (p.1, p.2.2))) := by
  intro fuel c rest hfuel _
  obtain ⟨tail, htail⟩ := exists_printedMembers_eq (l := l.map fun p => (p.1, p.2.1)) (by simpa)
  have htext : jsonObject (l.map fun p => (p.1, p.2.1)) ++ c :: rest =
      '\x7b' :: (printedMembers (l.map fun p => (p.1, p.2.1)) ++ '\x7d' :: c :: rest) := by
    change '\x7b' :: (printedMembers _ ++ ['\x7d']) ++ c :: rest = _
    rw [List.cons_append, List.append_assoc, List.singleton_append]
  have hlen : (printedMembers (l.map fun p => (p.1, p.2.1))).length + 2 ≤ fuel := by
    change ('\x7b' :: (printedMembers _ ++ ['\x7d'])).length ≤ fuel at hfuel
    rwa [List.length_cons, List.length_append, List.length_singleton] at hfuel
  obtain ⟨n, rfl⟩ : ∃ n, fuel = n + 1 := ⟨fuel - 1, by omega⟩
  have hscan := @scanMembers_printed maxDigits _ n hne hnames hvalues (by omega) (c :: rest)
  have hdict : dictOf (l.map fun p => (p.1, p.2.2)) = l.map fun p => (p.1, p.2.2) :=
    dictOf_eq (by rwa [List.map_map])
  have hopen : ∀ text, scanOnce maxDigits (n + 1 + 1) ('\x7b' :: '"' :: text) =
      (scanMembers maxDigits (n + 1) ('"' :: text)).map fun p => (.dict (dictOf p.1), p.2) := by
    intro text
    simp only [scanOnce, skipBlanks_cons (show isJsonBlank '"' = false by decide)]
    rfl
  rw [htext, skipBlanks_cons (by decide)]
  rw [htail, List.cons_append] at hscan ⊢
  rw [hopen, hscan, Option.map_some, hdict]

/-- The members of an object, each with its printed text and the value it reads as. -/
structure ReadableMembers (maxDigits : Option ℕ) (l : List (String × List Char × Json)) : Prop where
  ne_nil : l ≠ []
  names : ∀ p ∈ l, PlainText p.1
  values : ∀ p ∈ l, PrintsAs maxDigits p.2.1 p.2.2
  nodup : (l.map Prod.fst).Nodup

section Members

variable {l : List (String × List Char × Json)}

/-- And objects of such members. -/
theorem ReadableMembers.printsAs (h : ReadableMembers maxDigits l) :
    PrintsAs maxDigits (jsonObject (l.map fun p => (p.1, p.2.1)))
      (.dict (l.map fun p => (p.1, p.2.2))) := by
  refine ⟨readsAs_object h.ne_nil (fun p hp => (h.names p hp).1) (fun p hp => (h.values p hp).1)
    h.nodup, ?_⟩
  refine List.forall_mem_cons.mpr ⟨by decide, List.forall_mem_append.mpr ⟨?_, by decide⟩⟩
  refine forall_mem_intercalate (by decide) (List.forall_mem_map.mpr fun q hq => ?_)
  obtain ⟨p, hp, rfl⟩ := List.mem_map.mp hq
  exact List.forall_mem_cons.mpr ⟨by decide, List.forall_mem_append.mpr ⟨(h.names p hp).2,
    List.forall_mem_cons.mpr ⟨by decide, List.forall_mem_cons.mpr ⟨by decide, (h.values p hp).2⟩⟩⟩⟩

/-- Alone on its line such an object is decoded. -/
theorem ReadableMembers.jsonLoads (h : ReadableMembers maxDigits l) :
    jsonLoads maxDigits (String.ofList (jsonObject (l.map fun p => (p.1, p.2.1)))) =
      some (.dict (l.map fun p => (p.1, p.2.2))) :=
  jsonLoads_printedObject h.ne_nil (fun p hp => (h.names p hp).1) (fun p hp => (h.values p hp).1)
    h.nodup

end Members

section Comparison

variable {digits : ℚ → String}

/-- The finite numbers of a comparison read back from their digits. -/
structure Comparison.Readable (maxDigits : Option ℕ) (digits : ℚ → String) (c : Comparison) :
    Prop where
  maxAbsError : ∀ q, c.maxAbsError = .finite q → ReadsBack maxDigits digits q
  maxScaledError : ∀ q, c.maxScaledError = .finite q → ReadsBack maxDigits digits q
  rows : ∀ row ∈ c.rows, ∀ x ∈ [row.actual, row.reference, row.absError, row.tolerance,
    row.scaledError], ∀ q, x = .finite q → ReadsBack maxDigits digits q

/-- Fields as read back. -/
def readFields (fields : List (String × Emitted)) : List (String × Json) :=
  fields.map fun p => (p.1, p.2.toJson)

def Comparison.toJson (c : Comparison) : Json :=
  .dict (readFields c.fields ++
    [("rows", .list (c.rows.zipIdx.map fun p => .dict (readFields (p.1.fields p.2))))])

/-- Printed fields are read back under plain names. -/
theorem printsAs_fields {fields : List (String × Emitted)} (hne : fields ≠ [])
    (hnames : ∀ p ∈ fields, PlainText p.1) (hnodup : (fields.map Prod.fst).Nodup)
    (hvalues : ∀ p ∈ fields, PrintsAs maxDigits (p.2.print digits) p.2.toJson) :
    PrintsAs maxDigits (jsonObject (printFields digits fields)) (.dict (readFields fields)) := by
  have hmembers : ReadableMembers maxDigits
      (fields.map fun p => (p.1, p.2.print digits, p.2.toJson)) :=
    ⟨by simpa using hne, List.forall_mem_map.mpr hnames, List.forall_mem_map.mpr hvalues,
      by rwa [List.map_map]⟩
  have hobject := hmembers.printsAs
  rwa [List.map_map, List.map_map] at hobject

/-- A printed value without text and counters is read back and stays on its line. -/
theorem Emitted.printsAs_print {value : Emitted} (hlimit : DigitLimit maxDigits)
    (hcounters : value.counters = []) (htexts : value.texts = [])
    (h : ∀ q, .finite q ∈ value.values → ReadsBack maxDigits digits q) :
    PrintsAs maxDigits (value.print digits) value.toJson := by
  refine ⟨Emitted.readsAs_print hlimit (by simp [hcounters]) h,
    Emitted.isLineBoundary_print h fun s hs => ?_⟩
  rw [htexts] at hs
  exact absurd hs List.not_mem_nil

/-- A printed row reads as its fields. -/
theorem RowComparison.printsAs_fields (hlimit : DigitLimit maxDigits) {row : RowComparison} {i : ℕ}
    (hi : i < 2 ^ 64)
    (h : ∀ x ∈ [row.actual, row.reference, row.absError, row.tolerance, row.scaledError],
      ∀ q, x = .finite q → ReadsBack maxDigits digits q) :
    PrintsAs maxDigits (jsonObject (printFields digits (row.fields i)))
      (.dict (readFields (row.fields i))) := by
  have hnames : ∀ name ∈ ["row", "actual", "reference", "abs_error", "tolerance", "scaled_error",
      "finite", "pass"], PlainText name := by decide
  have hnodup : ["row", "actual", "reference", "abs_error", "tolerance", "scaled_error", "finite",
      "pass"].Nodup := by decide
  refine RowReduce.printsAs_fields (List.cons_ne_nil _ _) ?_ hnodup ?_
  · exact fun p hp => hnames p.1 (List.mem_map_of_mem hp)
  · have hnumber : ∀ x ∈ [row.actual, row.reference, row.absError, row.tolerance, row.scaledError],
        PrintsAs maxDigits ((Emitted.number x).print digits) (Emitted.number x).toJson :=
      fun x hx => Emitted.printsAs_print hlimit rfl rfl fun q hq =>
        h x hx q (List.mem_singleton.mp hq).symm
    simp only [List.forall_mem_cons, List.not_mem_nil, false_implies, implies_true, and_true]
      at hnumber
    obtain ⟨hactual, hreference, herror, htolerance, hscaled⟩ := hnumber
    simp only [RowComparison.fields, List.forall_mem_cons, List.not_mem_nil, false_implies,
      implies_true, and_true]
    exact ⟨printsAs_natural hlimit hi, hactual, hreference, herror, htolerance, hscaled,
      printsAs_flag row.finite, printsAs_flag row.pass⟩

/-- A printed comparison reads as its fields and rows. -/
theorem Comparison.Readable.printsAs (hlimit : DigitLimit maxDigits) {c : Comparison}
    (hrows : c.rows.length < 2 ^ 64) (h : c.Readable maxDigits digits) :
    PrintsAs maxDigits (comparisonJson digits c) c.toJson := by
  have hrows : PrintsAs maxDigits (jsonArray (c.rowTexts digits))
      (.list (c.rows.zipIdx.map fun p => .dict (readFields (p.1.fields p.2)))) := by
    have harray := @printsAs_array maxDigits (c.rows.zipIdx.map fun p =>
      (jsonObject (printFields digits (p.1.fields p.2)), .dict (readFields (p.1.fields p.2)))) ?_
    · rwa [List.map_map, List.map_map] at harray
    · refine List.forall_mem_map.mpr fun p hp => ?_
      have hindex := (List.snd_lt_of_mem_zipIdx hp).trans_le (by simpa using hrows.le)
      exact RowComparison.printsAs_fields hlimit hindex (h.rows p.1 (List.fst_mem_of_mem_zipIdx hp))
  have hnames : ∀ name ∈ ["pass", "max_abs_error", "max_scaled_error", "rows"], PlainText name := by
    decide
  have hnodup : ["pass", "max_abs_error", "max_scaled_error", "rows"].Nodup := by decide
  have hmembers : ReadableMembers maxDigits
      (c.fields.map (fun p => (p.1, p.2.print digits, p.2.toJson)) ++ [("rows",
        jsonArray (c.rowTexts digits),
        .list (c.rows.zipIdx.map fun p => .dict (readFields (p.1.fields p.2))))]) := by
    refine ⟨by simp, fun p hp => hnames _ (List.mem_map_of_mem hp), ?_, hnodup⟩
    have hmax : ∀ x, (∀ q, x = .finite q → ReadsBack maxDigits digits q) →
        PrintsAs maxDigits ((Emitted.number x).print digits) (Emitted.number x).toJson :=
      fun x hx => Emitted.printsAs_print hlimit rfl rfl fun q hq =>
        hx q (List.mem_singleton.mp hq).symm
    simp only [Comparison.fields, List.map_cons, List.map_nil, List.cons_append, List.nil_append,
      List.forall_mem_cons, List.not_mem_nil, false_implies, implies_true, and_true]
    exact ⟨printsAs_flag c.pass, hmax _ h.maxAbsError, hmax _ h.maxScaledError, hrows⟩
  have hobject := hmembers.printsAs
  rw [List.map_append, List.map_append, List.map_map, List.map_map] at hobject
  exact hobject

end Comparison

section Record

variable {digits : ℚ → String} {r : CpuRecord}

/-- A record as read back. -/
def CpuRecord.toJson (r : CpuRecord) : Json :=
  .dict [("validation_level", .str r.validationLevel), ("backend", .str r.backend),
    ("status", .str r.status), ("rows", .int r.shape.rows), ("cols", .int r.shape.cols),
    ("padded_rows", .int r.paddedRows), ("padded_cols", .int r.paddedCols),
    ("pattern", .str r.pattern), ("seed", .int r.seed.toNat), ("exact", .bool r.exact),
    ("quantized_fnv1a64", .str r.quantizedFnv1a64), ("input_bytes_static", .int r.inputBytesStatic),
    ("output_bytes_static", .int r.outputBytesStatic), ("comparison", r.comparison.toJson)]

/-- The texts of a record print as they stand. -/
structure CpuRecord.Plain (r : CpuRecord) : Prop where
  validationLevel : PlainText r.validationLevel
  backend : PlainText r.backend
  status : PlainText r.status
  pattern : PlainText r.pattern
  checksum : PlainText r.quantizedFnv1a64

/-- The counters of a record fit the machine's. -/
structure CpuRecord.Counted (r : CpuRecord) : Prop where
  rows : r.shape.rows < 2 ^ 64
  cols : r.shape.cols < 2 ^ 64
  paddedRows : r.paddedRows < 2 ^ 64
  paddedCols : r.paddedCols < 2 ^ 64
  inputBytes : r.inputBytesStatic < 2 ^ 64
  outputBytes : r.outputBytesStatic < 2 ^ 64
  compared : r.comparison.rows.length < 2 ^ 64

/-- The names of the printed fields. -/
def cpuNames : List String :=
  ["validation_level", "backend", "status", "rows", "cols", "padded_rows", "padded_cols", "pattern",
    "seed", "exact", "quantized_fnv1a64", "input_bytes_static", "output_bytes_static", "comparison"]

/-- The printed members of a record, each with the value it reads as. -/
def CpuRecord.readMembers (digits : ℚ → String) (r : CpuRecord) :
    List (String × List Char × Json) :=
  [("validation_level", quoted r.validationLevel, .str r.validationLevel),
    ("backend", quoted r.backend, .str r.backend), ("status", quoted r.status, .str r.status),
    ("rows", (toString r.shape.rows).toList, .int r.shape.rows),
    ("cols", (toString r.shape.cols).toList, .int r.shape.cols),
    ("padded_rows", (toString r.paddedRows).toList, .int r.paddedRows),
    ("padded_cols", (toString r.paddedCols).toList, .int r.paddedCols),
    ("pattern", quoted r.pattern, .str r.pattern),
    ("seed", (toString r.seed.toNat).toList, .int r.seed.toNat),
    ("exact", (if r.exact then "true" else "false").toList, .bool r.exact),
    ("quantized_fnv1a64", quoted r.quantizedFnv1a64, .str r.quantizedFnv1a64),
    ("input_bytes_static", (toString r.inputBytesStatic).toList, .int r.inputBytesStatic),
    ("output_bytes_static", (toString r.outputBytesStatic).toList, .int r.outputBytesStatic),
    ("comparison", comparisonJson digits r.comparison, r.comparison.toJson)]

/-- The members of a plain record read as its fields. -/
theorem CpuRecord.Plain.readableMembers (h : r.Plain) (hlimit : DigitLimit maxDigits)
    (hcounted : r.Counted) (hread : r.comparison.Readable maxDigits digits) :
    ReadableMembers maxDigits (r.readMembers digits) := by
  have hnames : ∀ name ∈ cpuNames, PlainText name := by decide
  have hnodup : cpuNames.Nodup := by decide
  refine ⟨List.cons_ne_nil _ _, fun p hp => hnames p.1 (List.mem_map_of_mem hp), ?_, hnodup⟩
  simp only [CpuRecord.readMembers, List.forall_mem_cons, List.not_mem_nil, false_implies,
    implies_true, and_true]
  have hseed : r.seed.toNat < 2 ^ 64 := r.seed.isLt.trans (by norm_num)
  exact ⟨printsAs_quoted h.validationLevel, printsAs_quoted h.backend, printsAs_quoted h.status,
    printsAs_natural hlimit hcounted.rows, printsAs_natural hlimit hcounted.cols,
    printsAs_natural hlimit hcounted.paddedRows, printsAs_natural hlimit hcounted.paddedCols,
    printsAs_quoted h.pattern, printsAs_natural hlimit hseed, printsAs_flag _,
    printsAs_quoted h.checksum, printsAs_natural hlimit hcounted.inputBytes,
    printsAs_natural hlimit hcounted.outputBytes, hread.printsAs hlimit hcounted.compared⟩

/-- The digits of a checksum print as they stand. -/
theorem plainText_checksum (bits : List Bf16Word) : PlainText (quantizedFnv1a64 bits) := by
  have hdigit : ∀ n < 16, jsonCharacter (digit n) = [digit n] ∧
      isLineBoundary (digit n) = false := by
    decide
  have hmem : ∀ {k n : ℕ} {c : Char}, c ∈ Stream.fixedDigits k n → ∃ d < 16, c = digit d := by
    intro k
    induction k with
    | zero => simp [Stream.fixedDigits]
    | succ k ih =>
      intro n c hc
      rcases List.mem_append.mp hc with hc | hc
      · exact ih hc
      · exact ⟨n % 16, Nat.mod_lt n (by norm_num), List.mem_singleton.mp hc⟩
  rw [PlainText, PlainName, quantizedFnv1a64_eq, streamedFnv1a64_toList]
  constructor
  · have hself : ∀ l : List Char, (∀ c ∈ l, jsonCharacter c = [c]) →
      l.flatMap jsonCharacter = l := by
      intro l hl
      rw [List.flatMap_congr hl, List.flatMap_singleton']
    refine hself _ fun c hc => ?_
    obtain ⟨d, hd, rfl⟩ := hmem hc
    exact (hdigit d hd).1
  · intro c hc
    obtain ⟨d, hd, rfl⟩ := hmem hc
    exact (hdigit d hd).2

/-- Reported records hold only plain texts. -/
theorem CpuCase.Reports.plain {c : CpuCase} (h : c.Reports r) (hc : c.Accepted) : r.Plain := by
  obtain ⟨_, ⟨p, hp⟩, _⟩ := hc
  obtain ⟨bits, hbits⟩ := h.checksum
  have hname : ∀ p ∈ patterns, PlainText p.name := by decide
  refine ⟨?_, ?_, ?_, ?_, ?_⟩
  · rw [h.validationLevel]
    decide
  · rw [h.backend]
    decide
  · rw [h.status]
    decide
  · rw [h.pattern, hp]
    exact hname p (mem_patterns p)
  · rw [hbits]
    exact plainText_checksum bits

end Record

/-- Lines without boundaries in them are split where they end. -/
theorem splitLines_lines {α : Type} {text : α → List Char} {l : List α}
    (h : ∀ a ∈ l, ∀ c ∈ text a, isLineBoundary c = false) :
    splitLines (l.flatMap fun a => text a ++ ['\n']) = l.map text := by
  induction l with
  | nil => rfl
  | cons a l ih =>
    obtain ⟨ha, hl⟩ := List.forall_mem_cons.mp h
    rw [List.flatMap_cons, List.append_assoc, List.singleton_append,
      splitLines_append_cons ha (by decide) (by decide), ih hl, List.map_cons]

/-- What is printed comes from the cases that are run. -/
theorem exists_cpuRunCase_of_mem {rd : Rounding binary64} {l : List CpuCase} {pass : Bool}
    {record : CpuRecord} (h : record ∈ (runCpuCases rd l pass).1) :
    ∃ c result, cpuRunCase rd (CpuCase.shape c) c.pattern c.seed c.nodes =
      .ok (record, result) := by
  induction l generalizing pass with
  | nil => exact absurd h List.not_mem_nil
  | cons c l ih =>
    rw [runCpuCases] at h
    cases hrun : cpuRunCase rd c.shape c.pattern c.seed c.nodes with
    | error e =>
      rw [hrun] at h
      exact absurd h List.not_mem_nil
    | ok printed =>
      rw [hrun] at h
      rcases List.mem_cons.mp h with rfl | hrest
      · exact ⟨c, _, hrun⟩
      · exact ih hrest

/-- So is every record of the program. -/
theorem exists_cpuRunCase_of_mem_records {rd : Rounding binary64} {args : List String}
    {record : CpuRecord} (h : record ∈ (cpuMain rd args).records) :
    ∃ c result, cpuRunCase rd (CpuCase.shape c) c.pattern c.seed c.nodes =
      .ok (record, result) := by
  unfold cpuMain at h
  split at h
  · exact absurd h List.not_mem_nil
  · exact absurd h List.not_mem_nil
  · rename_i o _
    split_ifs at h
    · exact absurd h List.not_mem_nil
    · refine @exists_cpuRunCase_of_mem rd o.cases true _ ?_
      split at h <;> rename_i hrun <;> rw [hrun] <;> exact h

/-- What a case that is run counts. -/
theorem cpuRunCase_counted {rd : Rounding binary64} {c : CpuCase} {record : CpuRecord} {pass : Bool}
    (h : cpuRunCase rd c.shape c.pattern c.seed c.nodes = .ok (record, pass)) : record.Counted := by
  obtain ⟨values, _, h⟩ := bind_eq_ok_iff.mp h
  obtain ⟨input, hinput, h⟩ := bind_eq_ok_iff.mp h
  obtain ⟨exact, _, h⟩ := bind_eq_ok_iff.mp h
  obtain ⟨comparison, hcompare, h⟩ := bind_eq_ok_iff.mp h
  obtain ⟨rfl, _⟩ := Prod.mk.inj (Except.ok.inj h)
  obtain ⟨_, haccept, hrep⟩ := (prepareInput_eq_ok_iff _).mp hinput
  obtain ⟨_, hrows, _, hcols⟩ := haccept.shape_valid
  have hpaddedRows := padded_le hrows
  have hpaddedCols := padded_le hcols
  have hinputRows : input.paddedRows ≤ 128 := hrep.paddedRows.trans_le hpaddedRows
  have hinputCols : input.paddedCols ≤ 128 := hrep.paddedCols.trans_le hpaddedCols
  have htiled : input.tiled.length ≤ 128 * 128 :=
    hrep.length_tiled.trans_le (Nat.mul_le_mul hpaddedRows hpaddedCols)
  rw [roundedReference_eq hrep] at hcompare
  obtain rfl := Except.ok.inj ((compareRows_represented hrep _).symm.trans hcompare)
  have hsize : ∀ {n : ℕ}, n ≤ 32768 → n < 2 ^ 64 := fun h => by omega
  refine ⟨hsize (hrows.trans (by norm_num)), hsize (hcols.trans (by norm_num)),
    hsize (hinputRows.trans (by norm_num)), hsize (hinputCols.trans (by norm_num)), hsize ?_,
    hsize ?_, hsize ?_⟩
  · exact Nat.mul_le_mul_right 2 htiled
  · exact (Nat.mul_le_mul_right 2 (Nat.mul_le_mul_right 32 hinputRows)).trans (by norm_num)
  · rw [(foldl_push_rows _ _).1, List.nil_append, List.length_map, List.length_range]
    exact hrows.trans (by norm_num)

/-- The standard output of an accepted run has one line for each case, and each decodes to its
record. -/
theorem cpuMain_stdout_decoded (hlimit : DigitLimit maxDigits) {rd : Rounding binary64}
    {args : List String} {o : CpuOptions} (hparse : parseCpuArguments args {} = .ok (.run o))
    (ho : o.Accepted) {digits : ℚ → String}
    (hread : ∀ r ∈ (cpuMain rd args).records, r.comparison.Readable maxDigits digits) :
    splitLines ((cpuMain rd args).stdout digits) =
        (cpuMain rd args).records.map (CpuRecord.text digits) ∧
      (cpuMain rd args).records.length = o.cases.length ∧
      ∀ r ∈ (cpuMain rd args).records,
        jsonLoads maxDigits (String.ofList (r.text digits)) = some r.toJson := by
  have hreported := @cpuMain_accepted rd _ _ hparse ho
  have hplain : ∀ r ∈ (cpuMain rd args).records, r.Plain := by
    intro r hr
    obtain ⟨c, hc, hcr⟩ := exists_left_of_forall₂ hreported.records hr
    exact hcr.plain (ho.2 c hc)
  have hmembers : ∀ r ∈ (cpuMain rd args).records,
      ReadableMembers maxDigits (r.readMembers digits) := by
    intro r hr
    obtain ⟨_, _, hrun⟩ := exists_cpuRunCase_of_mem_records hr
    exact (hplain r hr).readableMembers hlimit (cpuRunCase_counted hrun) (hread r hr)
  refine ⟨?_, hreported.records.length_eq.symm, fun r hr => (hmembers r hr).jsonLoads⟩
  rw [CpuResult.stdout, hreported.usage]
  exact splitLines_lines fun r hr => (hmembers r hr).printsAs.2

/-- A comparison of doubles reads back. -/
theorem Comparison.Doubles.readable (hlimit : DigitLimit maxDigits) {c : Comparison}
    (h : c.Doubles) : c.Readable maxDigits doubleDigits where
  maxAbsError _ hq := h.maxAbsError.readsBack hlimit hq
  maxScaledError _ hq := h.maxScaledError.readsBack hlimit hq
  rows row hrow x hx _ hq := (h.rows row hrow x hx).readsBack hlimit hq

/-- In double precision the rounded references are compared by doubles. -/
theorem cpuRunCase_doubles {c : CpuCase} {record : CpuRecord} {pass : Bool}
    (h : cpuRunCase (.nearestEven binary64) c.shape c.pattern c.seed c.nodes = .ok (record, pass)) :
    record.comparison.Doubles := by
  obtain ⟨values, _, h⟩ := bind_eq_ok_iff.mp h
  obtain ⟨input, hinput, h⟩ := bind_eq_ok_iff.mp h
  obtain ⟨exact, _, h⟩ := bind_eq_ok_iff.mp h
  obtain ⟨comparison, hcompare, h⟩ := bind_eq_ok_iff.mp h
  obtain ⟨rfl, _⟩ := Prod.mk.inj (Except.ok.inj h)
  obtain ⟨_, haccept, hrep⟩ := (prepareInput_eq_ok_iff _).mp hinput
  rw [roundedReference_eq hrep] at hcompare
  obtain rfl := Except.ok.inj ((compareRows_represented hrep _).symm.trans hcompare)
  refine comparison_doubles fun r hr => ?_
  have hs := QuantizedMatrix.rowSum_onGrid hr
  obtain ⟨v, hv, hle⟩ := exists_rounded_rowSum hs
  exact ⟨v, hv, smallResult hs hv hle⟩

/-- Everything the program prints in double precision reads back. -/
theorem cpuMain_readable (hlimit : DigitLimit maxDigits) {args : List String} :
    ∀ r ∈ (cpuMain (.nearestEven binary64) args).records,
      r.comparison.Readable maxDigits doubleDigits := by
  intro r hr
  obtain ⟨c, result, hrun⟩ := exists_cpuRunCase_of_mem_records hr
  exact (cpuRunCase_doubles hrun).readable hlimit

/-- The twelve lines of the matrix. -/
theorem cpuMain_stdout_decoded_matrix :
    splitLines ((cpuMain (.nearestEven binary64) ["--matrix"]).stdout doubleDigits) =
        (cpuMain (.nearestEven binary64) ["--matrix"]).records.map (CpuRecord.text doubleDigits) ∧
      (cpuMain (.nearestEven binary64) ["--matrix"]).records.length = 12 ∧
      ∀ r ∈ (cpuMain (.nearestEven binary64) ["--matrix"]).records,
        jsonLoads (some 4300) (String.ofList (r.text doubleDigits)) = some r.toJson :=
  cpuMain_stdout_decoded digitLimit_default (o := { matrix := true }) (by decide)
    ⟨fun _ => rfl, requiredCases_accepted⟩ (cpuMain_readable digitLimit_default)

end RowReduce
