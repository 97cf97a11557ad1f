import RowReduce.Correctness.Readback
import RowReduce.Correctness.Regeneration
import RowReduce.Runner.RunCase

/-!
# The checks on a result record

What each stage of the runner's validation accepts, and which exceptions it can
raise. Only conversions of large integers and the error coefficient raise
exceptions that are not recorded as a protocol error.
-/

namespace RowReduce

open BinaryFloat Fallible Grid Hexadecimal

/-- The exception classes recorded as a protocol error. -/
def PyException.Handled : PyException → Prop
  | .valueError _ | .typeError _ | .keyError _ | .structError _ => True
  | .overflowError _ | .zeroDivisionError _ | .osError _ | .stopIteration => False

/-- A handled exception is recorded as a protocol error. -/
theorem handleException_of_handled {e : PyException} (h : e.Handled) (record : CaseRecord) :
    handleException record e =
      .ok { record with status := some "protocol-error", error := some e.text } := by
  cases e <;> first | rfl | exact h.elim

/-- The runner's patterns are those of the host. -/
theorem mem_runnerPatterns {s : String} : s ∈ runnerPatterns ↔ ∃ p : Pattern, s = p.name := by
  constructor
  · intro h
    simp only [runnerPatterns, exactPatterns, List.cons_append, List.nil_append, List.mem_cons,
      List.not_mem_nil, or_false] at h
    rcases h with rfl | rfl | rfl | rfl | rfl | rfl | rfl
    exacts [⟨.zero, rfl⟩, ⟨.oneHot, rfl⟩, ⟨.ones, rfl⟩, ⟨.cancellation, rfl⟩,
      ⟨.smallIntegers, rfl⟩, ⟨.decimals, rfl⟩, ⟨.random, rfl⟩]
  · rintro ⟨p, rfl⟩
    cases p <;> decide

/-- The runner and the host call the same patterns exact. -/
theorem exactPatterns_contains (p : Pattern) : exactPatterns.contains p.name = p.isExact := by
  cases p <;> decide

/-- A header that matches the requested execution. -/
structure HeaderMatches (fields : List (String × Json)) (case : Case) (index : ℕ) (p : Pattern)
    (commit : String) : Prop where
  rows : (Json.get fields "rows").eqInt case.rows = true
  cols : (Json.get fields "cols").eqInt case.cols = true
  repeatIndex : (Json.get fields "repeat_index").eqInt index = true
  pattern : Json.get fields "pattern" = .str p.name
  first : index = 0 → p.name = case.pattern
  seed : (Json.get fields "seed").eqInt case.seed = true
  backend : Json.get fields "backend" = .str "ttsim"
  stage : Json.get fields "validation_stage" = .str "C3"
  sourceCommit : Json.get fields "compiled_source_commit" = .str commit
  isCommit : isCommit commit = true
  nodes : (Json.get fields "nodes").eqInt 1 = true
  repeatCount : (Json.get fields "repeat_count").eqInt case.repeats = true
  upstream : Json.get fields "upstream_commit" = .str metalCommit
  inputEncoding :
    Json.get fields "quantized_bits_encoding" = .str "logical_row_major_bf16_little_endian"
  outputEncoding : Json.get fields "output_bits_encoding" = .str "tile_face_bf16_little_endian"
  layoutVerified : (Json.get fields "input_layout_verified_against_upstream").eqTrue = true
  quantizationVerified :
    (Json.get fields "input_quantization_verified_against_upstream").eqTrue = true

section Header

variable {fields : List (String × Json)} {case : Case} {index : ℕ}

/-- What is asked of the requested shape. -/
theorem checkRequested_eq_ok_iff : checkRequested fields case index = .ok () ↔
    (Json.get fields "rows").eqInt case.rows = true ∧
      (Json.get fields "cols").eqInt case.cols = true ∧
      (Json.get fields "repeat_index").eqInt index = true := by
  rw [checkRequested, forM_eq_ok_iff]
  simp

/-- What is asked of the declared pattern. -/
theorem declaredPattern_eq_ok_iff {text : String} : declaredPattern fields case index = .ok text ↔
    ∃ p : Pattern, text = p.name ∧ Json.get fields "pattern" = .str p.name ∧
      (index = 0 → p.name = case.pattern) := by
  simp only [declaredPattern, bind_eq_ok_iff, throwIf_eq_ok_iff, pure_eq_ok, Except.ok.injEq,
    exists_and_left, exists_const]
  constructor
  · rintro ⟨known, hmem, hknown, rfl⟩
    obtain rfl : known = true := by
      cases known
      · exact absurd (Or.inl rfl) hknown
      · rfl
    obtain ⟨s, hs, hget⟩ := Json.memNames_eq_ok_true_iff.mp hmem
    obtain ⟨p, rfl⟩ := mem_runnerPatterns.mp hs
    rw [hget] at hknown ⊢
    refine ⟨p, rfl, rfl, fun h0 => ?_⟩
    by_contra hne
    exact hknown (Or.inr ⟨h0, by simpa using hne⟩)
  · rintro ⟨p, rfl, hget, hfirst⟩
    refine ⟨true, Json.memNames_eq_ok_true_iff.mpr
      ⟨p.name, mem_runnerPatterns.mpr ⟨p, rfl⟩, hget⟩, ?_, by rw [hget]; rfl⟩
    rw [hget]
    rintro (h | ⟨h0, h⟩)
    · cases h
    · rw [hfirst h0] at h
      simp at h

/-- What is asked of the compiled commit. -/
theorem compiledCommit_eq_ok_iff {commit : String} : compiledCommit fields = .ok commit ↔
    Json.get fields "compiled_source_commit" = .str commit ∧ isCommit commit = true := by
  unfold compiledCommit
  cases Json.get fields "compiled_source_commit" with
  | str s =>
    simp only [bind_eq_ok_iff, throwIf_eq_ok_iff, pure_eq_ok, Except.ok.injEq, exists_const,
      Bool.not_eq_false, Json.str.injEq]
    constructor
    · rintro ⟨h, rfl⟩
      exact ⟨rfl, h⟩
    · rintro ⟨rfl, h⟩
      exact ⟨h, rfl⟩
  | _ => simp

/-- What is asked of the remaining header. -/
theorem checkContract_eq_ok_iff : checkContract fields case = .ok () ↔
    (Json.get fields "nodes").eqInt 1 = true ∧
      (Json.get fields "repeat_count").eqInt case.repeats = true ∧
      Json.get fields "upstream_commit" = .str metalCommit ∧
      Json.get fields "quantized_bits_encoding" = .str "logical_row_major_bf16_little_endian" ∧
      Json.get fields "output_bits_encoding" = .str "tile_face_bf16_little_endian" ∧
      (Json.get fields "input_layout_verified_against_upstream").eqTrue = true ∧
      (Json.get fields "input_quantization_verified_against_upstream").eqTrue = true := by
  rw [checkContract, forM_eq_ok_iff]
  simp [contractFields, Json.eqStr_eq_true_iff]

/-- The header checks accept exactly the matching headers. -/
theorem validateHeader_eq_ok_iff {text commit : String} :
    validateHeader fields case index = .ok (text, commit) ↔
      ∃ p : Pattern, text = p.name ∧ HeaderMatches fields case index p commit := by
  simp only [validateHeader, checkExecution, bind_eq_ok_iff, throwIf_eq_ok_iff, pure_eq_ok,
    Except.ok.injEq, Prod.mk.injEq, checkRequested_eq_ok_iff, declaredPattern_eq_ok_iff,
    compiledCommit_eq_ok_iff, checkContract_eq_ok_iff, not_or,
    Bool.not_eq_false, Json.eqStr_eq_true_iff, Unique.exists_iff, PUnit.default_eq_unit]
  constructor
  · rintro ⟨⟨hrows, hcols, hindex⟩, _, ⟨p, rfl, hpattern, hfirst⟩, ⟨hseed, hbackend, hstage⟩, _,
      ⟨hcommit, hhex⟩, ⟨hnodes, hcount, hupstream, hin, hout, hlayout, hquant⟩, rfl, rfl⟩
    exact ⟨p, rfl, hrows, hcols, hindex, hpattern, hfirst, hseed, hbackend, hstage, hcommit, hhex,
      hnodes, hcount, hupstream, hin, hout, hlayout, hquant⟩
  · rintro ⟨p, rfl, h⟩
    exact ⟨⟨h.rows, h.cols, h.repeatIndex⟩, p.name, ⟨p, rfl, h.pattern, h.first⟩,
      ⟨h.seed, h.backend, h.stage⟩, commit, ⟨h.sourceCommit, h.isCommit⟩,
      ⟨h.nodes, h.repeatCount, h.upstream, h.inputEncoding, h.outputEncoding, h.layoutVerified,
        h.quantizationVerified⟩, rfl, rfl⟩

/-- The failure of a membership test is handled. -/
theorem memNames_handled (value : Json) (names : List String) :
    RaisesOnly PyException.Handled (value.memNames names) := by
  cases value <;> first | exact raisesOnly_ok _ | exact raisesOnly_error trivial

/-- The header checks raise only handled exceptions. -/
theorem validateHeader_handled :
    RaisesOnly PyException.Handled (validateHeader fields case index) := by
  have hpattern : RaisesOnly PyException.Handled (declaredPattern fields case index) :=
    (memNames_handled _ _).bind fun _ _ => (raisesOnly_throwIf trivial).bind fun _ _ =>
      raisesOnly_ok _
  have hcommit : RaisesOnly PyException.Handled (compiledCommit fields) := by
    unfold compiledCommit
    split
    · exact (raisesOnly_throwIf trivial).bind fun _ _ => raisesOnly_ok _
    · exact raisesOnly_error trivial
  exact (raisesOnly_forM fun _ _ => raisesOnly_throwIf trivial).bind fun _ _ =>
    hpattern.bind fun _ _ =>
      ((raisesOnly_throwIf trivial).bind fun _ _ => raisesOnly_throwIf trivial).bind fun _ _ =>
        hcommit.bind fun _ _ =>
          (raisesOnly_forM fun _ _ => raisesOnly_throwIf trivial).bind fun _ _ => raisesOnly_ok _

end Header

section Input

variable {fields : List (String × Json)} {case : Case} {p : Pattern} {words : List Bf16Word}

/-- Hexadecimal text is decoded. -/
theorem fromHex_eq_ok_iff {text : String} {bytes : List Byte} :
    fromHex text = .ok bytes ↔ decode text.toList = some bytes := by
  unfold fromHex
  cases decode text.toList <;> simp

/-- Hexadecimal text of a fixed length is decoded. -/
theorem fixedHex_eq_ok_iff {value : Json} {length : ℤ} {message : String} {bytes : List Byte} :
    fixedHex value length message = .ok bytes ↔
      ∃ text, value = .str text ∧ (text.length : ℤ) = length ∧ decode text.toList = some bytes := by
  cases value with
  | str text => simp [fixedHex, bind_eq_ok_iff, fromHex_eq_ok_iff]
  | _ => simp [fixedHex]

/-- Its failures are handled. -/
theorem fixedHex_handled {value : Json} {length : ℤ} {message : String} :
    RaisesOnly PyException.Handled (fixedHex value length message) := by
  cases value with
  | str text =>
    refine (raisesOnly_throwIf trivial).bind fun _ _ => ?_
    unfold fromHex
    split
    · exact raisesOnly_ok _
    · exact raisesOnly_error trivial
  | _ => exact raisesOnly_error trivial

/-- Digits of even length decode to the bytes of words. -/
theorem exists_words_of_isDigit {text : String} (h : ∀ c ∈ text.toList, isDigit c = true) {n : ℕ}
    (hlen : text.length = 4 * n) : ∃ words : List Bf16Word,
      decode text.toList = some (littleEndian words) ∧ words.length = n := by
  obtain ⟨bytes, hdecode, hbytes⟩ := decode_of_isDigit (n := 2 * n) h
    (by rw [String.length_toList, hlen]; ring)
  obtain ⟨words, rfl, hn⟩ := exists_littleEndian hbytes
  exact ⟨words, hdecode, hn⟩

/-- The bytes of a word are unpacked to its value. -/
theorem unpackFloat_wordBytes (w : Bf16Word) : unpackFloat (wordBytes w) = .ok (bf16Value w) := by
  simp only [wordBytes, unpackFloat, bytesWord_wordBytes]

/-- So are those of all words. -/
theorem unpackFloats_littleEndian (words : List Bf16Word) :
    unpackFloats (littleEndian words) = .ok (words.map bf16Value) := by
  induction words with
  | nil => rfl
  | cons w words ih =>
    have hw := unpackFloat_wordBytes w
    rw [wordBytes] at hw
    rw [littleEndian_cons, unpackFloats, hw, ok_bind, ih]
    rfl

/-- The runner's contract test is the host's. -/
theorem violatesContract_eq_false_iff (w : Bf16Word) :
    violatesContract (bf16Value w) = false ↔ InContract w := by
  unfold InContract
  cases bf16Value w with
  | finite q => simp [violatesContract, or_iff_not_imp_left]
  | infinity s => simp [violatesContract, FloatValue.isFinite]
  | nan => simp [violatesContract, FloatValue.isFinite]

/-- The rational values of words. -/
def wordValues (words : List Bf16Word) : List ℚ := words.map fun w => (bf16Value w).toRat

/-- Uploaded bits that are the regenerated input. -/
structure InputMatches (fields : List (String × Json)) (case : Case) (p : Pattern)
    (words : List Bf16Word) : Prop where
  text : ∃ text, Json.get fields "quantized_bits_hex" = .str text ∧
    (text.length : ℤ) = 4 * case.rows * case.cols ∧ decode text.toList = some (littleEndian words)
  regenerated : expectedInputBytes case.rows case.cols p.name case.seed = .ok (littleEndian words)

/-- Regenerated words fill the requested matrix and satisfy the numeric contract. -/
theorem regenerated_spec {rows cols seed : ℤ}
    (h : expectedInputBytes rows cols p.name seed = .ok (littleEndian words)) :
    words.length = rows.toNat * cols.toNat ∧ ∀ w ∈ words, InContract w := by
  obtain ⟨words', h', hlen, hcontract⟩ := exists_regenerated rows cols p seed
  obtain rfl := littleEndian_injective (Except.ok.inj (h'.symm.trans h))
  exact ⟨hlen, hcontract⟩

/-- For a known pattern the input checks accept exactly the regenerated words. -/
theorem uploadedInput_eq_ok_iff {raw : List Byte} {values : List ℚ} :
    uploadedInput fields case p.name = .ok (raw, values) ↔
      ∃ words, InputMatches fields case p words ∧ raw = littleEndian words ∧
        values = wordValues words := by
  obtain ⟨words, hwords, _, hcontract⟩ := exists_regenerated case.rows case.cols p case.seed
  have hvalid : ¬(words.map bf16Value).any violatesContract = true := by
    simp only [List.any_map, List.any_eq_true, Function.comp_apply, not_exists, not_and,
      Bool.not_eq_true]
    exact fun w hw => (violatesContract_eq_false_iff w).mpr (hcontract w hw)
  have hvalues : (words.map bf16Value).map FloatValue.toRat = wordValues words := by
    simp only [wordValues, List.map_map, Function.comp_def]
  simp only [uploadedInput, hwords, bind_eq_ok_iff, fixedHex_eq_ok_iff, throwIf_eq_ok_iff, not_not,
    pure_eq_ok, Except.ok.injEq, Prod.mk.injEq, exists_eq_left']
  constructor
  · rintro ⟨raw', hraw, _, rfl, values', hunpack, _, _, rfl, rfl⟩
    rw [unpackFloats_littleEndian] at hunpack
    obtain rfl := Except.ok.inj hunpack
    exact ⟨words, ⟨hraw, hwords⟩, rfl, hvalues⟩
  · rintro ⟨words', ⟨htext, hwords'⟩, rfl, rfl⟩
    obtain rfl := littleEndian_injective (Except.ok.inj (hwords.symm.trans hwords'))
    exact ⟨_, htext, (), rfl, _, unpackFloats_littleEndian words, (), hvalid, rfl, hvalues⟩

/-- For a known pattern the input checks raise only handled exceptions. -/
theorem uploadedInput_handled (p : Pattern) :
    RaisesOnly PyException.Handled (uploadedInput fields case p.name) := by
  obtain ⟨words, hwords, _, _⟩ := exists_regenerated case.rows case.cols p case.seed
  unfold uploadedInput
  rw [hwords]
  refine fixedHex_handled.bind fun raw _ => (raisesOnly_ok _).bind fun expected he => ?_
  refine (raisesOnly_throwIf trivial).bind fun _ hraw => ?_
  obtain rfl := Except.ok.inj he
  obtain rfl := not_not.mp (throwIf_eq_ok_iff.mp hraw)
  rw [unpackFloats_littleEndian, ok_bind]
  exact (raisesOnly_throwIf trivial).bind fun _ _ => raisesOnly_ok _

end Input

/-- A finite JSON number and the double it converts to. -/
inductive NumberOf : Json → ℚ → Prop where
  | int {n : ℤ} : FloatReading.ieee.overflows n = false → NumberOf (.int n) (binary64.round n)
  | float (q : ℚ) : NumberOf (.float (.finite q)) q

/-- A list of the given length holding finite numbers. -/
def VectorOf (value : Json) (count : ℤ) (xs : List ℚ) : Prop :=
  ∃ items, value = .list items ∧ (items.length : ℤ) = count ∧ List.Forall₂ NumberOf items xs

/-- The least integer that rounds past the largest double. -/
def overflowThreshold : ℤ := 2 ^ 1024 - 2 ^ 970

/-- A list of the given length whose first element that is no finite double is an integer
beyond the double range. -/
def OverflowingVector (value : Json) (count : ℤ) : Prop :=
  ∃ before n after, value = .list (before ++ .int n :: after) ∧
    ((before ++ Json.int n :: after).length : ℤ) = count ∧
    (∀ item ∈ before, ∃ q, NumberOf item q) ∧ overflowThreshold ≤ |n|

/-- The integers that overflow a double. -/
theorem ieee_overflows_iff {n : ℤ} :
    FloatReading.ieee.overflows n = true ↔ overflowThreshold ≤ |n| := by
  have hbelow : binary64.roundBits ((overflowThreshold - 1 : ℤ) : ℚ) < binary64.infinityBits := by
    decide +kernel
  have hat : binary64.infinityBits ≤ binary64.roundBits (overflowThreshold : ℚ) := by
    decide +kernel
  have hpos : (0 : ℚ) ≤ (overflowThreshold : ℚ) := by decide +kernel
  have habs : |(n : ℚ)| = ((|n| : ℤ) : ℚ) := by rw [Int.cast_abs]
  simp only [FloatReading.ieee, decide_eq_true_eq, habs]
  constructor
  · intro h
    by_contra hlt
    have hle : ((|n| : ℤ) : ℚ) ≤ ((overflowThreshold - 1 : ℤ) : ℚ) := by
      exact_mod_cast Int.le_sub_one_of_lt (not_le.mp hlt)
    have hmono := binary64.roundBits_mono (by exact_mod_cast abs_nonneg n) hle
    omega
  · intro h
    exact hat.trans (binary64.roundBits_mono hpos (by exact_mod_cast h))

section Vector

variable {value : Json} {count : ℤ} {name : String}

/-- An item is read where it is a number. -/
theorem finiteItem_eq_ok_iff {item : Json} {q : ℚ} :
    finiteItem name item = .ok q ↔ NumberOf item q := by
  constructor
  · intro h
    cases item with
    | int n =>
      simp only [finiteItem, FloatReading.ofInt] at h
      split_ifs at h with ho
      obtain rfl := Except.ok.inj h
      exact .int (by simpa using ho)
    | float x =>
      cases x with
      | finite q' =>
        obtain rfl := Except.ok.inj h
        exact .float _
      | infinity _ => cases h
      | nan => cases h
    | _ => cases h
  · intro h
    cases h with
    | int ho =>
      rw [finiteItem, FloatReading.ofInt, ho]
      rfl
    | float => rfl

/-- A vector is read where all its items are. -/
theorem finiteVector_eq_ok_iff {xs : List ℚ} :
    finiteVector value count name = .ok xs ↔ VectorOf value count xs := by
  unfold VectorOf
  cases value with
  | list items =>
    simp [finiteVector, bind_eq_ok_iff, mapM_eq_ok_iff, finiteItem_eq_ok_iff]
  | _ => simp [finiteVector]

/-- A vector has the length that is asked for. -/
theorem VectorOf.length {xs : List ℚ} (h : VectorOf value count xs) :
    (xs.length : ℤ) = count := by
  obtain ⟨items, _, hlen, hall⟩ := h
  rw [← hlen, hall.length_eq]

/-- The conversion of a vector escapes the handlers exactly on a large integer. -/
theorem finiteVector_escapes_iff :
    Escapes PyException.Handled (finiteVector value count name) ↔
      OverflowingVector value count := by
  have hitem : ∀ {item : Json}, Escapes PyException.Handled (finiteItem name item) ↔
      ∃ n, item = .int n ∧ overflowThreshold ≤ |n| := by
    intro item
    cases item with
    | int n =>
      simp only [Escapes, finiteItem, FloatReading.ofInt, Json.int.injEq, exists_eq_left',
        ← ieee_overflows_iff]
      split_ifs with ho <;> simp [PyException.Handled, ho]
    | float x => cases x <;> simp [Escapes, finiteItem, PyException.Handled]
    | _ => simp [Escapes, finiteItem, PyException.Handled]
  cases value with
  | list items =>
    have hlength : RaisesOnly PyException.Handled (throwIf ((items.length : ℤ) ≠ count)
        (PyException.valueError (name ++ " must contain " ++ toString count ++ " values"))) :=
      raisesOnly_throwIf trivial
    simp only [finiteVector, hlength.escapes_bind_iff, escapes_mapM_iff, hitem, throwIf_eq_ok_iff,
      not_not, exists_const, finiteItem_eq_ok_iff, OverflowingVector, Json.list.injEq]
    constructor
    · rintro ⟨hlen, before, _, after, rfl, hok, n, rfl, hn⟩
      exact ⟨before, n, after, rfl, hlen, hok, hn⟩
    · rintro ⟨before, n, after, rfl, hlen, hok, hn⟩
      exact ⟨hlen, before, _, after, rfl, hok, n, rfl, hn⟩
  | _ => simp [Escapes, finiteVector, OverflowingVector, PyException.Handled]

end Vector

/-- The runner's position of an output is the tile-face index. -/
theorem outputPosition_eq {row col : ℕ} (hc : col < 32) :
    outputPosition row col = tileFaceIndexUnchecked row col 32 := by
  simp only [outputPosition, tileFaceIndexUnchecked]
  omega

/-- The bytes of a word are its number. -/
theorem fromBytesLittle_wordBytes (w : Bf16Word) : fromBytesLittle (wordBytes w) = w.toNat := by
  have h := congrArg BitVec.toNat (bytesWord_wordBytes w)
  rw [toNat_bytesWord] at h
  simpa [wordBytes, fromBytesLittle] using h

/-- The padded rows of both programs agree. -/
theorem runnerPaddedRows_natCast (rows : ℕ) : runnerPaddedRows rows = padded rows := by
  unfold runnerPaddedRows padded
  omega

/-- Failures to decode the output are handled. -/
theorem decodeOutputBits_handled (encoded : Json) (rows : ℤ) (actual : List ℚ) :
    RaisesOnly PyException.Handled (decodeOutputBits encoded rows actual) := by
  refine fixedHex_handled.bind fun raw _ => raisesOnly_foldlM (fun padding p _ => ?_) true
  unfold checkOutputWord
  dsimp only
  split
  · have hunpack : ∀ bytes, RaisesOnly PyException.Handled (unpackFloat bytes) := by
      intro bytes
      unfold unpackFloat
      split
      · exact raisesOnly_ok _
      · exact raisesOnly_error trivial
    exact (hunpack _).bind fun _ _ => (raisesOnly_throwIf trivial).bind fun _ _ => raisesOnly_ok _
  · exact raisesOnly_ok _

/-- A flag that a loop can only clear. -/
theorem foldl_clear {ι : Type} (keep zero : ι → Prop) [DecidablePred keep] [DecidablePred zero]
    (l : List ι) (flag : Bool) :
    l.foldl (fun flag i => if keep i then flag else if zero i then flag else false) flag =
      (flag && l.all fun i => decide (keep i) || decide (zero i)) := by
  induction l generalizing flag with
  | nil => simp
  | cons i l ih =>
    rw [List.foldl_cons, ih, List.all_cons, ← Bool.and_assoc]
    congr 1
    by_cases h1 : keep i <;> by_cases h2 : zero i <;> simp [h1, h2]

/-- One pass on a word: a result row must match, padding can only clear the flag. -/
theorem checkOutputWord_eq_ok_iff {rows : ℕ} {actual : List ℚ} {raw : List Byte} {p : ℕ × ℕ}
    {w : Bf16Word} (h : (raw.drop (outputPosition p.1 p.2 * 2)).take 2 = wordBytes w)
    {flag flag' : Bool} : checkOutputWord rows actual raw flag p = .ok flag' ↔
      (p.1 < rows ∧ p.2 = 0 → bf16Value w = .finite (actual.getD p.1 0)) ∧
        flag' = if p.1 < rows ∧ p.2 = 0 then flag
          else if wordMagnitude w = 0 then flag else false := by
  have hmask : w.toNat &&& 0x7fff = wordMagnitude w := Nat.and_two_pow_sub_one_eq_mod w.toNat 15
  have hvalue : ∀ q : ℚ, ¬((bf16Value w).isFinite = false ∨ (bf16Value w).eq (.finite q) = false) ↔
      bf16Value w = .finite q := by
    intro q
    cases bf16Value w <;> simp [FloatValue.isFinite, FloatValue.eq]
  rw [checkOutputWord, h, unpackFloat_wordBytes, fromBytesLittle_wordBytes, hmask]
  by_cases hrow : p.1 < rows ∧ p.2 = 0
  · rw [if_pos (by exact_mod_cast hrow), if_pos hrow]
    simp only [ok_bind, bind_eq_ok_iff, throwIf_eq_ok_iff, hvalue, exists_const, pure_eq_ok,
      Except.ok.injEq, hrow, and_self, true_implies]
    exact and_congr_right fun _ => eq_comm
  · rw [if_neg (by exact_mod_cast hrow), if_neg hrow]
    simp only [pure_eq_ok, Except.ok.injEq, hrow, false_implies, true_and, ite_not]
    exact eq_comm

/-- On a full-length output the decoder checks column zero and reports the padding. -/
theorem decodeOutputBits_eq_ok_iff {rows : ℕ} {text : String} {words : List Bf16Word}
    {actual : List ℚ} {padding : Bool} (hlen : words.length = padded rows * 32)
    (htext : (text.length : ℤ) = 4 * padded rows * 32)
    (hdecode : decode text.toList = some (littleEndian words)) :
    decodeOutputBits (.str text) rows actual = .ok padding ↔
      (∀ r < rows, bf16Value (outputWord words r 0) = .finite (actual.getD r 0)) ∧
        padding = outputPaddingZero rows words := by
  have hslice : ∀ p ∈ positions (padded rows) 32,
      ((littleEndian words).drop (outputPosition p.1 p.2 * 2)).take 2 =
        wordBytes (outputWord words p.1 p.2) := by
    intro p hp
    obtain ⟨hr, hc⟩ := mem_positions.mp hp
    have hlt := tileFaceIndex_lt (padded_mod rows) (by norm_num : 32 % 32 = 0) hr hc
    rw [← hlen] at hlt
    rw [outputPosition_eq hc, littleEndian_slice hlt, outputWord, List.getD_eq_getElem?_getD,
      List.getElem?_eq_getElem hlt, Option.getD_some]
  have hraw : fixedHex (.str text) (4 * runnerPaddedRows rows * 32)
      "output_tiled_bits_hex must contain full padded output tiles" = .ok (littleEndian words) :=
    fixedHex_eq_ok_iff.mpr ⟨text, rfl, by rw [runnerPaddedRows_natCast, htext], hdecode⟩
  have hle := le_padded rows
  rw [decodeOutputBits, hraw, ok_bind, runnerPaddedRows_natCast, Int.toNat_natCast,
    foldlM_eq_ok_iff fun p hp _ _ => checkOutputWord_eq_ok_iff (hslice p hp), foldl_clear,
    Bool.true_and]
  refine and_congr ?_ Iff.rfl
  constructor
  · intro h r hr
    exact h (r, 0) (mem_positions.mpr ⟨by omega, by norm_num⟩) ⟨hr, rfl⟩
  · rintro h ⟨r, c⟩ _ ⟨hr, rfl⟩
    exact h r hr

end RowReduce
