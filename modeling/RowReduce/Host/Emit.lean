import RowReduce.Host.Run

/-!
# Printing a result

The object printed after `TT_ROW_REDUCE_RESULT=`, field by field in order. The
seventeen digits of a finite double are the library's, and a parameter here.
-/

namespace RowReduce

open BinaryFloat

/-- The value of a printed field. -/
inductive Emitted where
  | text (s : String)
  | natural (n : ℕ)
  | flag (b : Bool)
  | number (x : FloatValue)
  | numbers (xs : List FloatValue)
  | naturals (ns : List ℕ)

/-- One character of `json_string`. -/
def jsonCharacter (c : Char) : List Char :=
  if c = '\\' ∨ c = '"' then ['\\', c]
  else if c.toNat < 32 then
    ['\\', 'u', '0', '0', Hexadecimal.digit (c.toNat / 16), Hexadecimal.digit (c.toNat % 16)]
  else [c]

def jsonString (value : String) : List Char :=
  '"' :: (value.toList.flatMap jsonCharacter ++ ['"'])

def jsonNumber (digits : ℚ → String) : FloatValue → List Char
  | .finite q => (digits q).toList
  | _ => "null".toList

/-- The items of an array, separated by commas. -/
def jsonArray (items : List (List Char)) : List Char :=
  '[' :: ([','].intercalate items ++ [']'])

def Emitted.print (digits : ℚ → String) : Emitted → List Char
  | .text s => jsonString s
  | .natural n => (toString n).toList
  | .flag b => (if b then "true" else "false").toList
  | .number x => jsonNumber digits x
  | .numbers xs => jsonArray (xs.map (jsonNumber digits))
  | .naturals ns => jsonArray (ns.map fun n => (toString n).toList)

/-- The indices of the rows that do not pass. -/
def Comparison.failedRows (c : Comparison) : List ℕ :=
  (List.range c.rows.length).filter fun i => !(c.rows[i]?.map RowComparison.pass).getD true

/-- The printed fields in order. -/
def ResultRecord.fields (r : ResultRecord) : List (String × Emitted) :=
  [("status", .text r.status), ("validation_stage", .text r.validationStage),
    ("backend", .text r.backend), ("upstream_commit", .text r.upstreamCommit),
    ("compiled_source_commit", .text r.compiledSourceCommit), ("rows", .natural r.shape.rows),
    ("cols", .natural r.shape.cols), ("padded_rows", .natural r.paddedRows),
    ("padded_cols", .natural r.paddedCols), ("nodes", .natural 1), ("pattern", .text r.pattern),
    ("seed", .natural r.seed.toNat), ("repeat_index", .natural r.repeatIndex),
    ("repeat_count", .natural r.repeatCount), ("exact", .flag r.exact),
    ("padding_zero", .flag r.paddingZero), ("input_layout_verified_against_upstream", .flag true),
    ("input_quantization_verified_against_upstream", .flag true),
    ("quantized_bits_encoding", .text "logical_row_major_bf16_little_endian"),
    ("quantized_bits_hex", .text r.quantizedBitsHex),
    ("output_bits_encoding", .text "tile_face_bf16_little_endian"),
    ("output_tiled_bits_hex", .text r.outputTiledBitsHex),
    ("actual", .numbers (r.comparison.rows.map RowComparison.actual)),
    ("reference", .numbers (r.comparison.rows.map RowComparison.reference)),
    ("abs_errors", .numbers (r.comparison.rows.map RowComparison.absError)),
    ("tolerances", .numbers (r.comparison.rows.map RowComparison.tolerance)),
    ("max_abs_error", .number r.comparison.maxAbsError),
    ("max_scaled_error", .number r.comparison.maxScaledError),
    ("failed_rows", .naturals r.comparison.failedRows),
    ("execute_wall_seconds", .number r.executeWallSeconds),
    ("measurement_kind", .text r.measurementKind),
    ("timing_scope", .text "enqueue_including_first_run_JIT_and_Finish_excluding_transfers")]

/-- The printed object. -/
def ResultRecord.text (digits : ℚ → String) (r : ResultRecord) : List Char :=
  '\x7b' :: ([','].intercalate (r.fields.map fun p =>
    '"' :: (p.1.toList ++ '"' :: ':' :: p.2.print digits)) ++ ['\x7d'])

/-- The printed line. -/
def ResultRecord.line (digits : ℚ → String) (r : ResultRecord) : List Char :=
  "TT_ROW_REDUCE_RESULT=".toList ++ (r.text digits ++ ['\n'])

end RowReduce
