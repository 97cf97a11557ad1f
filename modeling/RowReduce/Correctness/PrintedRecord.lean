import RowReduce.Correctness.PrintedJson
import RowReduce.Correctness.PrintedLines
import RowReduce.Host.Streams

/-!
# Reading back a printed result

A record whose finite numbers read back from their digits is decoded field by
field; a record whose texts hold no separator is one line of the output.
-/

namespace RowReduce

open BinaryFloat

variable {maxDigits : Option ℕ} {digits : ℚ → String}

/-- The digits of a number read back as that number, and stay on their line. -/
def ReadsBack (maxDigits : Option ℕ) (digits : ℚ → String) (q : ℚ) : Prop :=
  ReadsAs maxDigits (digits q).toList (readNumber (.finite q)) ∧
    ∀ c ∈ (digits q).toList, isLineBoundary c = false

/-- The floating-point numbers of a printed value. -/
def Emitted.values : Emitted → List FloatValue
  | .number x => [x]
  | .numbers xs => xs
  | _ => []

/-- The counters of a printed value. -/
def Emitted.counters : Emitted → List ℕ
  | .natural n => [n]
  | .naturals ns => ns
  | _ => []

/-- A printed number reads as itself, or as `null`. -/
theorem readsAs_jsonNumber {x : FloatValue}
    (h : ∀ q, x = .finite q → ReadsBack maxDigits digits q) :
    ReadsAs maxDigits (jsonNumber digits x) (readNumber x) := by
  cases x with
  | finite q => exact (h q rfl).1
  | infinity negative => exact readsAs_null
  | nan => exact readsAs_null

private theorem Emitted.toJson_naturals (ns : List ℕ) :
    (Emitted.naturals ns).toJson = .list (ns.map fun n : ℕ => Json.int n) := by
  have hcast : ns.flatMap (fun n : ℕ => [(n : ℤ)]) = ns.map fun n : ℕ => (n : ℤ) :=
    List.map_eq_flatMap.symm
  simp only [Emitted.toJson, List.bind_eq_flatMap, List.pure_def, hcast, List.map_map]
  rfl

/-- A printed value is read back. -/
theorem Emitted.readsAs_print {value : Emitted} (hlimit : DigitLimit maxDigits)
    (hcounters : ∀ n ∈ value.counters, n < 2 ^ 64)
    (h : ∀ q, .finite q ∈ value.values → ReadsBack maxDigits digits q) :
    ReadsAs maxDigits (value.print digits) value.toJson := by
  cases value with
  | text s => exact readsAs_jsonString s
  | natural n => exact readsAs_natural hlimit (hcounters n (List.mem_singleton_self n))
  | flag b => exact readsAs_flag b
  | number x => exact readsAs_jsonNumber fun q hq => h q (by simp [Emitted.values, hq])
  | numbers xs =>
    have harray := @readsAs_jsonArray maxDigits
      (xs.map fun x => (jsonNumber digits x, readNumber x)) ?_
    · rwa [List.map_map, List.map_map] at harray
    · intro p hp
      obtain ⟨x, hx, rfl⟩ := List.mem_map.mp hp
      exact readsAs_jsonNumber fun q hq => h q (hq ▸ hx)
  | naturals ns =>
    have harray := @readsAs_jsonArray maxDigits
      (ns.map fun n : ℕ => ((toString n).toList, Json.int n)) ?_
    · rw [Emitted.toJson_naturals]
      rwa [List.map_map, List.map_map] at harray
    · intro p hp
      obtain ⟨n, hn, rfl⟩ := List.mem_map.mp hp
      exact readsAs_natural hlimit (hcounters n hn)

/-- All finite numbers of the record read back from their digits. -/
def ResultRecord.Readable (maxDigits : Option ℕ) (digits : ℚ → String) (r : ResultRecord) :
    Prop :=
  ∀ q, .finite q ∈ r.fields.flatMap (fun p => p.2.values) → ReadsBack maxDigits digits q

/-- All counters of the record fit the machine's. -/
def ResultRecord.Counted (r : ResultRecord) : Prop :=
  ∀ n ∈ r.fields.flatMap (fun p => p.2.counters), n < 2 ^ 64

/-- The numbers of each field read back. -/
theorem ResultRecord.Readable.field {r : ResultRecord} (h : r.Readable maxDigits digits)
    {p : String × Emitted} (hp : p ∈ r.fields) (q : ℚ) (hq : .finite q ∈ p.2.values) :
    ReadsBack maxDigits digits q :=
  h q (List.mem_flatMap.mpr ⟨p, hp, hq⟩)

/-- The numbers of a record: those of its rows, their maxima and the wall time. -/
theorem ResultRecord.mem_values {r : ResultRecord} {x : FloatValue}
    (h : x ∈ r.fields.flatMap fun field => field.2.values) :
    (∃ row ∈ r.comparison.rows,
      x = row.actual ∨ x = row.reference ∨ x = row.absError ∨ x = row.tolerance) ∨
      x = r.comparison.maxAbsError ∨ x = r.comparison.maxScaledError ∨
      x = r.executeWallSeconds := by
  simp only [ResultRecord.fields, Emitted.values, List.flatMap_cons, List.flatMap_nil,
    List.nil_append, List.append_nil, List.mem_append, List.mem_map, List.mem_cons,
    List.not_mem_nil, or_false] at h
  rcases h with ⟨row, hrow, rfl⟩ | ⟨row, hrow, rfl⟩ | ⟨row, hrow, rfl⟩ | ⟨row, hrow, rfl⟩ | h
  · exact Or.inl ⟨row, hrow, Or.inl rfl⟩
  · exact Or.inl ⟨row, hrow, Or.inr (Or.inl rfl)⟩
  · exact Or.inl ⟨row, hrow, Or.inr (Or.inr (Or.inl rfl))⟩
  · exact Or.inl ⟨row, hrow, Or.inr (Or.inr (Or.inr rfl))⟩
  · exact Or.inr h

/-- The names of the printed fields. -/
def resultNames : List String :=
  ["status", "validation_stage", "backend", "upstream_commit", "compiled_source_commit", "rows",
    "cols", "padded_rows", "padded_cols", "nodes", "pattern", "seed", "repeat_index",
    "repeat_count", "exact", "padding_zero", "input_layout_verified_against_upstream",
    "input_quantization_verified_against_upstream", "quantized_bits_encoding",
    "quantized_bits_hex", "output_bits_encoding", "output_tiled_bits_hex", "actual", "reference",
    "abs_errors", "tolerances", "max_abs_error", "max_scaled_error", "failed_rows",
    "execute_wall_seconds", "measurement_kind", "timing_scope"]

private theorem ResultRecord.fields_names (r : ResultRecord) :
    r.fields.map Prod.fst = resultNames := rfl

private theorem ResultRecord.text_eq (r : ResultRecord) :
    r.text digits = printedObject (r.fields.map fun p => (p.1, p.2.print digits)) := by
  simp [ResultRecord.text, printedObject, printedMembers, Function.comp_def]

/-- A readable record is decoded field by field. -/
theorem ResultRecord.jsonLoads_text {r : ResultRecord} (hlimit : DigitLimit maxDigits)
    (hcounted : r.Counted) (h : r.Readable maxDigits digits) :
    jsonLoads maxDigits (String.ofList (r.text digits)) = some r.toJson := by
  have hplain : ∀ name ∈ resultNames, PlainName name := by decide
  have hnodup : resultNames.Nodup := by decide
  have hloads := @jsonLoads_printedObject maxDigits
    (r.fields.map fun p => (p.1, p.2.print digits, p.2.toJson)) ?_ ?_ ?_ ?_
  · rw [List.map_map, List.map_map] at hloads
    rw [ResultRecord.text_eq]
    exact hloads
  · exact List.cons_ne_nil _ _
  · intro p hp
    obtain ⟨field, hfield, rfl⟩ := List.mem_map.mp hp
    exact hplain field.1 (r.fields_names ▸ List.mem_map_of_mem hfield)
  · intro p hp
    obtain ⟨field, hfield, rfl⟩ := List.mem_map.mp hp
    exact Emitted.readsAs_print hlimit
      (fun n hn => hcounted n (List.mem_flatMap.mpr ⟨field, hfield, hn⟩)) (h.field hfield)
  · rw [List.map_map]
    exact hnodup

/-- The text of a printed value. -/
def Emitted.texts : Emitted → List String
  | .text s => [s]
  | _ => []

/-- No text of the record holds a separator. -/
def ResultRecord.OnOneLine (r : ResultRecord) : Prop :=
  ∀ s ∈ r.fields.flatMap (fun p => p.2.texts), ∀ c ∈ s.toList, separates c = false

/-- What holds of the comma and of each text holds of their concatenation. -/
theorem forall_mem_intercalate {P : Char → Prop} (hcomma : P ',') {texts : List (List Char)}
    (h : ∀ text ∈ texts, ∀ c ∈ text, P c) : ∀ c ∈ [','].intercalate texts, P c := by
  induction texts with
  | nil => simp [List.intercalate]
  | cons text texts ih =>
    obtain ⟨htext, htexts⟩ := List.forall_mem_cons.mp h
    cases texts with
    | nil => simpa [List.intercalate] using htext
    | cons next texts =>
      have hsplit : [','].intercalate (text :: next :: texts) =
          text ++ ',' :: [','].intercalate (next :: texts) := by simp [List.intercalate]
      rw [hsplit]
      exact List.forall_mem_append.mpr ⟨htext, List.forall_mem_cons.mpr ⟨hcomma, ih htexts⟩⟩

/-- A digit ends no line. -/
theorem isLineBoundary_of_isDigit {c : Char} (h : c.isDigit = true) : isLineBoundary c = false := by
  obtain ⟨h1, h2⟩ := charIsDigit_iff.mp h
  rw [← Char.ofNat_toNat c]
  generalize c.toNat = n at h1 h2
  interval_cases n <;> rfl

/-- Printed naturals stay on their line. -/
theorem isLineBoundary_toString (n : ℕ) : ∀ c ∈ (toString n).toList, isLineBoundary c = false := by
  have hdigits : (toString n).toList = Nat.toDigits 10 n := Nat.toList_repr
  rw [hdigits]
  exact fun c hc => isLineBoundary_of_isDigit
    (Nat.isDigit_of_mem_toDigits (by norm_num) (by norm_num) hc)

/-- Printed values stay on their line. -/
theorem Emitted.isLineBoundary_print {value : Emitted}
    (hnumber : ∀ q, .finite q ∈ value.values → ReadsBack maxDigits digits q)
    (htext : ∀ s ∈ value.texts, ∀ c ∈ s.toList, separates c = false) :
    ∀ c ∈ value.print digits, isLineBoundary c = false := by
  have hnull : ∀ c ∈ "null".toList, isLineBoundary c = false := by decide
  have htrue : ∀ c ∈ "true".toList, isLineBoundary c = false := by decide
  have hfalse : ∀ c ∈ "false".toList, isLineBoundary c = false := by decide
  have hnumbers : ∀ x, (∀ q, x = .finite q → ReadsBack maxDigits digits q) →
      ∀ c ∈ jsonNumber digits x, isLineBoundary c = false := by
    intro x hx
    cases x with
    | finite q => exact (hx q rfl).2
    | infinity negative => exact hnull
    | nan => exact hnull
  have harray : ∀ items : List (List Char), (∀ item ∈ items, ∀ c ∈ item, isLineBoundary c = false) →
      ∀ c ∈ jsonArray items, isLineBoundary c = false := by
    intro items hitems
    refine List.forall_mem_cons.mpr ⟨by decide, List.forall_mem_append.mpr ⟨?_, by decide⟩⟩
    exact forall_mem_intercalate (by decide) hitems
  cases value with
  | text s =>
    exact List.forall_mem_cons.mpr ⟨by decide, List.forall_mem_append.mpr
      ⟨isLineBoundary_of_mem_flatMap (htext s (List.mem_singleton_self s)), by decide⟩⟩
  | natural n => exact isLineBoundary_toString n
  | flag b =>
    cases b with
    | true => exact htrue
    | false => exact hfalse
  | number x => exact hnumbers x fun q hq => hnumber q (by simp [Emitted.values, hq])
  | numbers xs =>
    refine harray _ (List.forall_mem_map.mpr fun x hx => ?_)
    exact hnumbers x fun q hq => hnumber q (hq ▸ hx)
  | naturals ns => exact harray _ (List.forall_mem_map.mpr fun n _ => isLineBoundary_toString n)

/-- A printed record stays on its line. -/
theorem ResultRecord.isLineBoundary_text {r : ResultRecord} (hread : r.Readable maxDigits digits)
    (hline : r.OnOneLine) : ∀ c ∈ r.text digits, isLineBoundary c = false := by
  have hnames : ∀ name ∈ resultNames, ∀ c ∈ name.toList, isLineBoundary c = false := by decide
  refine List.forall_mem_cons.mpr ⟨by decide, List.forall_mem_append.mpr ⟨?_, by decide⟩⟩
  refine forall_mem_intercalate (by decide) (List.forall_mem_map.mpr fun p hp => ?_)
  have hname := hnames p.1 (r.fields_names ▸ List.mem_map_of_mem hp)
  have hvalue := Emitted.isLineBoundary_print (hread.field hp) fun s hs =>
    hline s (List.mem_flatMap.mpr ⟨p, hp, hs⟩)
  exact List.forall_mem_cons.mpr ⟨by decide, List.forall_mem_append.mpr ⟨hname,
    List.forall_mem_cons.mpr ⟨by decide, List.forall_mem_cons.mpr ⟨by decide, hvalue⟩⟩⟩⟩

/-- The result lines of the printed records are their objects. -/
theorem resultTexts_lines {records : List ResultRecord}
    (hread : ∀ r ∈ records, r.Readable maxDigits digits)
    (hline : ∀ r ∈ records, r.OnOneLine) :
    resultTexts (String.ofList (records.flatMap (ResultRecord.line digits))) =
      records.map fun r => String.ofList (r.text digits) := by
  have hmarker : ∀ c ∈ resultPrefix.toList, isLineBoundary c = false := by decide
  have hsplit : splitLines (records.flatMap (ResultRecord.line digits)) =
      records.map fun r => resultPrefix.toList ++ r.text digits := by
    induction records with
    | nil => rfl
    | cons r records ih =>
      obtain ⟨hr, hread⟩ := List.forall_mem_cons.mp hread
      obtain ⟨hl, hline⟩ := List.forall_mem_cons.mp hline
      have htext := List.forall_mem_append.mpr ⟨hmarker, ResultRecord.isLineBoundary_text hr hl⟩
      have hprinted : ResultRecord.line digits r =
          resultPrefix.toList ++ (r.text digits ++ ['\n']) := rfl
      have hfirst : (r :: records).flatMap (ResultRecord.line digits) =
          (resultPrefix.toList ++ r.text digits) ++
            '\n' :: records.flatMap (ResultRecord.line digits) := by
        simp only [List.flatMap_cons, hprinted, List.append_assoc, List.cons_append,
          List.nil_append]
      rw [hfirst, splitLines_append_cons htext (by decide) (by decide), ih hread hline,
        List.map_cons]
  rw [resultTexts, String.toList_ofList, hsplit, List.filter_eq_self.mpr, List.map_map]
  · refine List.map_congr_left fun r _ => ?_
    rw [Function.comp_apply, ← String.length_toList, List.drop_left]
  · intro line hline
    obtain ⟨r, _, rfl⟩ := List.mem_map.mp hline
    exact List.isPrefixOf_iff_prefix.mpr (List.prefix_append _ _)

end RowReduce
