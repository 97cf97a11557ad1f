import Mathlib.Data.Nat.Bitwise
import RowReduce.Audit.Verify
import RowReduce.Correctness.TileLayout
import RowReduce.Correctness.ValidatedResult

/-!
# The auditor's words

The auditor's word arithmetic is the BF16 value, its table of words is the
runner's regenerated input, and its enumeration of faces inverts the host's
index formula.
-/

namespace RowReduce.Audit

open BinaryFloat Fallible Grid Hexadecimal

/-- A requirement passes where it is met. -/
@[simp] theorem require_eq_ok_iff {condition : Prop} [Decidable condition] {message : String}
    {u : Unit} : require condition message = .ok u ↔ condition := by
  rw [require, throwIf_eq_ok_iff, not_not]

/-- Reading a finite number. -/
theorem finite_eq_ok_iff {value : Json} {label : String} {q : ℚ} :
    finite value label = .ok q ↔ NumberOf value q := by
  rw [← @finiteItem_eq_ok_iff label]
  cases value with
  | float x => cases x <;> simp [finite, finiteItem]
  | _ => simp [finite, finiteItem]

/-- Reading a vector of finite numbers. -/
theorem vector_eq_ok_iff {value : Json} {rows : ℤ} {label : String} {xs : List ℚ} :
    vector value rows label = .ok xs ↔ VectorOf value rows xs := by
  unfold VectorOf
  cases value with
  | list items => simp [vector, bind_eq_ok_iff, mapM_eq_ok_iff, finite_eq_ok_iff]
  | _ => simp [vector]

/-- Forty digits are a commit. -/
theorem checkHash_eq_ok_iff {value : Json} {label : String} : checkHash value 40 label = .ok () ↔
    ∃ commit, value = .str commit ∧ isCommit commit = true := by
  cases value with
  | str text => simp only [checkHash, require_eq_ok_iff, Json.str.injEq, exists_eq_left', isCommit]
  | _ => simp [checkHash]

/-- The expected values are of the three types the comparison knows. -/
theorem sameTyped_eq_true_iff {value expected : Json} (h : sameTyped expected expected = true) :
    sameTyped value expected = true ↔ value = expected := by
  cases expected <;> cases value <;> simp_all [sameTyped]

/-- The checked fields are those of the execution. -/
theorem checkFields_eq_ok_iff {host : List (String × Json)} {rows cols seed repeats : ℤ}
    {pattern : String} {index : ℕ} :
    checkFields host rows cols pattern seed repeats index = .ok () ↔
      ∀ p ∈ hostFields rows cols pattern seed repeats index, Json.get host p.1 = p.2 := by
  have htyped : ∀ p ∈ hostFields rows cols pattern seed repeats index,
      sameTyped p.2 p.2 = true := by
    intro p hp
    simp only [hostFields, List.mem_cons, List.not_mem_nil, or_false] at hp
    rcases hp with rfl | rfl | rfl | rfl | rfl | rfl | rfl | rfl | rfl | rfl | rfl | rfl | rfl |
      rfl | rfl | rfl | rfl | rfl | rfl <;> simp [sameTyped]
  rw [checkFields, forM_eq_ok_iff]
  refine forall₂_congr fun p hp => ?_
  rw [require_eq_ok_iff, sameTyped_eq_true_iff (htyped p hp)]

/-- A text of digits that decodes to exactly these words. -/
def HexWords (value : Json) (words : List Bf16Word) : Prop :=
  ∃ text, value = .str text ∧ (∀ c ∈ text.toList, isDigit c = true) ∧
    text.length = 4 * words.length ∧ decode text.toList = some (littleEndian words)

/-- The words read from little-endian bytes. -/
theorem rawWords_littleEndian (ws : List Bf16Word) :
    rawWords (littleEndian ws) = ws.map BitVec.toNat := by
  have hslices : rawWords (littleEndian ws) =
      (byteSlices (littleEndian ws)).map fromBytesLittle := by
    rw [rawWords, byteSlices, List.map_map]
    rfl
  rw [hslices, byteSlices_littleEndian, List.map_map]
  exact List.map_congr_left fun w _ => fromBytesLittle_wordBytes w

/-- Reading hexadecimal words. -/
theorem words_eq_ok_iff {encoded : Json} {count : ℕ} {label : String} {bits : List ℕ}
    {raw : List Byte} : words encoded count label = .ok (bits, raw) ↔
      ∃ ws, HexWords encoded ws ∧ ws.length = count ∧ bits = ws.map BitVec.toNat ∧
        raw = littleEndian ws := by
  unfold HexWords
  cases encoded with
  | str text =>
    simp only [words, bind_eq_ok_iff, require_eq_ok_iff, exists_const, fromHex_eq_ok_iff,
      pure_eq_ok,
      Except.ok.injEq, Prod.mk.injEq, Json.str.injEq, exists_eq_left', List.all_eq_true]
    constructor
    · rintro ⟨hdigits, hlen, raw', hdecode, rfl, rfl⟩
      obtain ⟨ws, hws, hcount⟩ := exists_words_of_isDigit hdigits (n := count) (by omega)
      obtain rfl := Option.some.inj (hdecode.symm.trans hws)
      exact ⟨ws, ⟨hdigits, by omega, hdecode⟩, hcount, rawWords_littleEndian ws, rfl⟩
    · rintro ⟨ws, ⟨hdigits, hlen, hdecode⟩, rfl, rfl, rfl⟩
      exact ⟨hdigits, by omega, _, hdecode, rawWords_littleEndian ws, rfl⟩
  | _ => simp [words]

/-- The auditor's word arithmetic is the value of the word. -/
theorem bf16_eq_ok_iff {w : Bf16Word} {q : ℚ} :
    bf16 w.toNat = .ok q ↔ bf16Value w = .finite q := by
  have hw := w.isLt
  have hexponent : w.toNat >>> 7 &&& 255 = w.toNat / 128 % 256 := by
    rw [Nat.shiftRight_eq_div_pow]
    exact Nat.and_two_pow_sub_one_eq_mod _ 8
  have hfraction : w.toNat &&& 127 = w.toNat % 128 := Nat.and_two_pow_sub_one_eq_mod _ 7
  have hsign : w.toNat &&& 32768 ≠ 0 ↔ 32768 ≤ w.toNat := by
    have h := Nat.and_two_pow w.toNat 15
    rw [show (2 : ℕ) ^ 15 = 32768 by norm_num, Nat.testBit_eq_decide_div_mod_eq] at h
    rw [h]
    by_cases hs : 32768 ≤ w.toNat
    · rw [show w.toNat / 2 ^ 15 % 2 = 1 by omega]
      simp [hs]
    · rw [show w.toNat / 2 ^ 15 % 2 = 0 by omega]
      simp [hs]
  have hmagnitude : bfloat16.magnitude (wordMagnitude w) =
      ((if w.toNat / 128 % 256 = 0 then w.toNat % 128 else 128 + w.toNat % 128 : ℕ) : ℚ) *
        2 ^ (if w.toNat / 128 % 256 = 0 then -133 else (w.toNat / 128 % 256 : ℕ) - 134 : ℤ) := by
    have h1 : wordMagnitude w / 128 = w.toNat / 128 % 256 := by
      unfold wordMagnitude
      omega
    have h2 : wordMagnitude w % 128 = w.toNat % 128 := by
      unfold wordMagnitude
      omega
    have hbits : bfloat16.fractionBits = 7 := rfl
    have hexp : bfloat16.minExponent = -133 := by decide
    rw [BinaryFormat.magnitude, hbits, hexp, show (2 : ℕ) ^ 7 = 128 by norm_num, h1, h2]
    split_ifs
    · rfl
    · congr 2
      ring
  have hfinite : w.toNat / 128 % 256 ≠ 255 ↔ wordMagnitude w < 0x7f80 := by
    unfold wordMagnitude
    omega
  simp only [bf16, hexponent, hfraction, bind_eq_ok_iff, require_eq_ok_iff, exists_const,
    pure_eq_ok, Except.ok.injEq, ← hmagnitude, hfinite, hsign]
  rw [bf16Value_eq]
  constructor
  · rintro ⟨hlt, rfl⟩
    rw [if_neg (by omega), if_neg (by omega)]
  · intro h
    split_ifs at h with h1 h2 <;> simp_all <;> omega

/-- The values of words are defined where all of them are finite. -/
theorem mapM_bf16_eq_ok_iff {ws : List Bf16Word} {qs : List ℚ} :
    (ws.map BitVec.toNat).mapM bf16 = .ok qs ↔
      (∀ w ∈ ws, (bf16Value w).isFinite = true) ∧ qs = wordValues ws := by
  have hword : ∀ w ∈ ws, ∀ q, bf16 (BitVec.toNat w) = .ok q ↔
      (bf16Value w).isFinite = true ∧ q = (bf16Value w).toRat := by
    intro w _ q
    rw [bf16_eq_ok_iff]
    cases bf16Value w <;> simp [FloatValue.isFinite, eq_comm]
  rw [List.mapM_map]
  exact mapM_eq_ok_iff_forall hword

/-- The auditor's table is the runner's. -/
theorem expectedWord_name {p : Pattern} (hp : p ≠ .random) (rows cols : ℤ) (row col : ℕ) :
    expectedWord rows cols p.name row col = (patternWord rows cols row col p).toNat := by
  cases p with
  | random => exact absurd rfl hp
  | decimals =>
    have hindex : (row + col) % 3 = 0 ∨ (row + col) % 3 = 1 ∨ (row + col) % 3 = 2 := by omega
    rcases hindex with h | h | h <;> simp [expectedWord, Pattern.name, patternWord, h]
  | zero | ones => simp [expectedWord, Pattern.name, patternWord]
  | oneHot | smallIntegers | cancellation =>
    simp only [expectedWord, Pattern.name, patternWord, String.reduceEq, if_false, if_true]
    split_ifs <;> rfl

/-- The words of a named pattern are its table, and any words are random. -/
theorem checkPattern_eq_ok_iff {ws : List Bf16Word} {rows cols : ℕ} {pattern : String}
    (hlen : ws.length = rows * cols) :
    checkPattern (ws.map BitVec.toNat) rows cols pattern = .ok () ↔
      ∃ p : Pattern, pattern = p.name ∧ (p ≠ .random →
        ws = (positions rows cols).map fun q => patternWord rows cols q.1 q.2 p) := by
  have htable : ∀ p : Pattern, p ≠ .random →
      (forM (positions rows cols) (checkWord (ws.map BitVec.toNat) rows cols p.name) = .ok () ↔
        ws = (positions rows cols).map fun q => patternWord rows cols q.1 q.2 p) := by
    intro p hp
    simp only [forM_eq_ok_iff, checkWord, require_eq_ok_iff, expectedWord_name hp, mem_positions,
      Prod.forall, and_imp, Int.toNat_natCast]
    constructor
    · intro h
      refine eq_map_positions _ hlen fun r c hr hc => ?_
      have hlt : r * cols + c < ws.length := hlen ▸ rowMajor_lt hr hc
      have hword := h r c hr hc
      rw [List.getD_eq_getElem?_getD, List.getElem?_map, List.getElem?_eq_getElem hlt,
        Option.map_some, Option.getD_some] at hword
      rw [List.getElem?_eq_getElem hlt, BitVec.eq_of_toNat_eq hword]
    · intro h r c hr hc
      rw [h, List.map_map, List.getD_eq_getElem?_getD, getElem?_map_positions hr hc]
      rfl
  simp only [checkPattern, bind_eq_ok_iff, require_eq_ok_iff, exists_const, Int.toNat_natCast]
  constructor
  · rintro ⟨hmem, h⟩
    obtain ⟨p, rfl⟩ := mem_runnerPatterns.mp hmem
    refine ⟨p, rfl, fun hp => (htable p hp).mp ?_⟩
    have hname : ¬p.name = "random" := fun hname => hp (Pattern.name_injective hname)
    rwa [if_neg hname] at h
  · rintro ⟨p, rfl, h⟩
    refine ⟨mem_runnerPatterns.mpr ⟨p, rfl⟩, ?_⟩
    split_ifs with hname
    · rfl
    · have hp : p ≠ .random := fun hp => hname (by rw [hp]; rfl)
      exact (htable p hp).mpr (h hp)

/-- What the audit reads of the input. -/
theorem auditInput_eq_ok_iff {host : List (String × Json)} {rows cols : ℕ} {pattern : String}
    {bits : List ℕ} {raw : List Byte} {inputs : List ℚ} :
    auditInput host rows cols pattern = .ok (bits, raw, inputs) ↔
      ∃ (p : Pattern) (ws : List Bf16Word), pattern = p.name ∧
        HexWords (Json.get host "quantized_bits_hex") ws ∧ ws.length = rows * cols ∧
        (∀ w ∈ ws, InContract w) ∧
        (p ≠ .random → ws = (positions rows cols).map fun q => patternWord rows cols q.1 q.2 p) ∧
        bits = ws.map BitVec.toNat ∧ raw = littleEndian ws ∧ inputs = wordValues ws := by
  have hcontract : ∀ ws : List Bf16Word, (∀ w ∈ ws, InContract w) ↔
      (∀ w ∈ ws, (bf16Value w).isFinite = true) ∧
        ∀ q ∈ wordValues ws, q = 0 ∨ (1 / 256 ≤ |q| ∧ |q| ≤ 1) := by
    intro ws
    simp only [wordValues, List.mem_map, forall_exists_index, and_imp, forall_apply_eq_imp_iff₂]
    rw [← forall₂_and]
    refine forall₂_congr fun w _ => ?_
    rw [InContract, show (2 : ℚ) ^ (-8 : ℤ) = 1 / 256 by norm_num]
    cases bf16Value w <;> simp [FloatValue.isFinite]
  have hcount : ((rows : ℤ) * cols) = (rows * cols : ℕ) := by push_cast; ring
  simp only [auditInput, hcount, bind_eq_ok_iff, Prod.exists, words_eq_ok_iff, require_eq_ok_iff,
    exists_const, pure_eq_ok, Except.ok.injEq, Prod.mk.injEq]
  constructor
  · rintro ⟨_, _, ⟨ws, hhex, hlen, rfl, rfl⟩, qs, hqs, hrange, _, hpattern, rfl, rfl, rfl⟩
    obtain ⟨hfinite, rfl⟩ := mapM_bf16_eq_ok_iff.mp hqs
    obtain ⟨p, rfl, htable⟩ := (checkPattern_eq_ok_iff hlen).mp hpattern
    exact ⟨p, ws, rfl, hhex, hlen, (hcontract ws).mpr ⟨hfinite, hrange⟩, htable, rfl, rfl, rfl⟩
  · rintro ⟨p, ws, rfl, hhex, hlen, hall, htable, rfl, rfl, rfl⟩
    obtain ⟨hfinite, hrange⟩ := (hcontract ws).mp hall
    exact ⟨_, _, ⟨ws, hhex, hlen, rfl, rfl⟩, _, mapM_bf16_eq_ok_iff.mpr ⟨hfinite, rfl⟩, hrange,
      (), (checkPattern_eq_ok_iff hlen).mpr ⟨p, rfl, htable⟩, rfl, rfl, rfl⟩

/-- The enumeration visits the positions in the order of their face indices. -/
theorem facePositions_eq (n : ℕ) : facePositions (32 * n : ℕ) =
    (List.range (n * 1024)).map fun k => tileFacePosition k 32 := by
  have htiles : (((32 * n : ℕ) : ℤ) + 31) / 32 = n := by omega
  have hsize : n * 1024 = 32 * n * 32 := by ring
  rw [hsize, ← faceOrder_eq (Nat.mul_mod_right 32 n) (by norm_num), facePositions, htiles,
    Int.toNat_natCast, faceOrder, Nat.mul_div_cancel_left n (by norm_num)]
  simp

/-- The matrix of full-length output words. -/
def matrixOf (ws : List Bf16Word) (paddedRows : ℕ) : Matrix := fun p =>
  if p.1 < paddedRows ∧ p.2 < 32 then some (bf16Value (outputWord ws p.1 p.2)).toRat else none

/-- Filling cells takes the words in order and needs finite ones. -/
theorem foldlM_fillCell_eq_ok_iff {ps : List (ℕ × ℕ)} {ws : List Bf16Word}
    (hlen : ps.length = ws.length) {start matrix : Matrix} {cursor : List ℕ} :
    ps.foldlM fillCell (start, ws.map BitVec.toNat) = .ok (matrix, cursor) ↔
      (∀ w ∈ ws, (bf16Value w).isFinite = true) ∧ cursor = [] ∧
        matrix = (ps.zip ws).foldl (fun (m : Matrix) q =>
          Function.update m q.1 (some (bf16Value q.2).toRat)) start := by
  induction ps generalizing ws start with
  | nil =>
    obtain rfl : ws = [] := List.length_eq_zero_iff.mp hlen.symm
    constructor
    · intro h
      obtain ⟨rfl, rfl⟩ := Prod.mk.inj (Except.ok.inj h)
      exact ⟨by simp, rfl, rfl⟩
    · rintro ⟨_, rfl, rfl⟩
      rfl
  | cons p ps ih =>
    match ws with
    | w :: ws =>
      have hlen' : ps.length = ws.length := by simpa using hlen
      rw [List.foldlM_cons, bind_eq_ok_iff, List.forall_mem_cons, List.zip_cons_cons,
        List.foldl_cons]
      simp only [fillCell, List.map_cons, bind_eq_ok_iff, bf16_eq_ok_iff, pure_eq_ok,
        Except.ok.injEq]
      constructor
      · rintro ⟨_, ⟨q, hq, rfl⟩, hrest⟩
        obtain ⟨hfinite, hcursor, hmatrix⟩ := (ih hlen').mp hrest
        refine ⟨⟨by rw [hq]; rfl, hfinite⟩, hcursor, ?_⟩
        rw [hmatrix, hq, FloatValue.toRat_finite]
      · rintro ⟨⟨hw, hfinite⟩, hcursor, hmatrix⟩
        exact ⟨_, ⟨_, FloatValue.eq_finite_toRat hw, rfl⟩, (ih hlen').mpr
          ⟨hfinite, hcursor, hmatrix⟩⟩

/-- The enumeration meets every word at its place. -/
theorem mem_zip_facePositions {n : ℕ} {ws : List Bf16Word} (hlen : ws.length = 32 * n * 32)
    {p : ℕ × ℕ} {w : Bf16Word} : (p, w) ∈ (facePositions (32 * n : ℕ)).zip ws ↔
      (p.1 < 32 * n ∧ p.2 < 32) ∧ w = outputWord ws p.1 p.2 := by
  have hmod : 32 * n % 32 = 0 := Nat.mul_mod_right 32 n
  rw [facePositions_eq, List.mem_iff_getElem]
  constructor
  · rintro ⟨k, hk, he⟩
    rw [List.length_zip, List.length_map, List.length_range] at hk
    have hk' : k < 32 * n * 32 := by omega
    obtain ⟨hr, hc, hindex⟩ := tileFaceIndex_position hmod (by norm_num : 32 % 32 = 0) hk'
    simp only [List.getElem_zip, List.getElem_map, List.getElem_range, Prod.mk.injEq] at he
    obtain ⟨rfl, rfl⟩ := he
    refine ⟨⟨hr, hc⟩, ?_⟩
    rw [outputWord, hindex, List.getD_eq_getElem?_getD, List.getElem?_eq_getElem (hlen ▸ hk'),
      Option.getD_some]
  · rintro ⟨⟨hr, hc⟩, rfl⟩
    have hk := tileFaceIndex_lt hmod (by norm_num : 32 % 32 = 0) hr hc
    refine ⟨tileFaceIndexUnchecked p.1 p.2 32, by simp; omega, ?_⟩
    rw [List.getElem_zip, Prod.mk.injEq, outputWord, List.getD_eq_getElem?_getD,
      List.getElem?_eq_getElem (hlen ▸ hk)]
    refine ⟨?_, rfl⟩
    simp only [List.getElem_map, List.getElem_range]
    exact tileFacePosition_index (by norm_num) hc

private theorem nodup_facePositions (n : ℕ) : (facePositions (32 * n : ℕ)).Nodup := by
  have hposition := fun {k : ℕ} (hk : k < 32 * n * 32) =>
    tileFaceIndex_position (Nat.mul_mod_right 32 n) (by norm_num : 32 % 32 = 0) hk
  rw [facePositions_eq]
  refine List.nodup_range.map_on fun j hj k hk h => ?_
  have hj' : j < 32 * n * 32 := by have := List.mem_range.mp hj; omega
  have hk' : k < 32 * n * 32 := by have := List.mem_range.mp hk; omega
  rw [← (hposition hj').2.2, ← (hposition hk').2.2, h]

/-- A full-length output gives the matrix of its words, all of them finite. -/
theorem outputMatrix_eq_ok_iff {n : ℕ} {ws : List Bf16Word} (hlen : ws.length = 32 * n * 32)
    {matrix : Matrix} : outputMatrix (ws.map BitVec.toNat) (32 * n : ℕ) = .ok matrix ↔
      (∀ w ∈ ws, (bf16Value w).isFinite = true) ∧ matrix = matrixOf ws (32 * n) := by
  have hlen' : (facePositions (32 * n : ℕ)).length = ws.length := by
    rw [facePositions_eq, List.length_map, List.length_range, hlen]
    ring
  have hfold : ((facePositions (32 * n : ℕ)).zip ws).foldl (fun (m : Matrix) q =>
      Function.update m q.1 (some (bf16Value q.2).toRat)) (fun _ => none) =
      matrixOf ws (32 * n) := by
    ext p : 1
    by_cases hin : p.1 < 32 * n ∧ p.2 < 32
    · rw [matrixOf, if_pos hin]
      exact foldl_update_of_mem (fun q => q.1) (fun q => some (bf16Value q.2).toRat) _
        (by rw [List.map_fst_zip hlen'.le]; exact nodup_facePositions n)
        ((mem_zip_facePositions hlen).mpr ⟨hin, rfl⟩)
    · rw [matrixOf, if_neg hin, foldl_update_of_forall_ne]
      rintro ⟨q, w⟩ hmem rfl
      exact hin ((mem_zip_facePositions hlen).mp hmem).1
  simp only [outputMatrix, bind_eq_ok_iff, Prod.exists, foldlM_fillCell_eq_ok_iff hlen', hfold,
    require_eq_ok_iff, exists_const, pure_eq_ok, Except.ok.injEq]
  constructor
  · rintro ⟨_, _, ⟨hfinite, _, rfl⟩, _, rfl⟩
    exact ⟨hfinite, rfl⟩
  · rintro ⟨hfinite, rfl⟩
    exact ⟨_, _, ⟨hfinite, rfl, rfl⟩, rfl, rfl⟩

/-- The padded extents of both programs agree. -/
theorem paddedExtent_natCast (n : ℕ) : paddedExtent n = (padded n : ℕ) := by
  unfold paddedExtent padded
  omega

/-- What the audit reads of the output. -/
theorem auditOutput_eq_ok_iff {host : List (String × Json)} {rows : ℕ}
    {matrix : Matrix} {raw : List Byte} : auditOutput host rows = .ok (matrix, raw) ↔
      ∃ ws, HexWords (Json.get host "output_tiled_bits_hex") ws ∧
        ws.length = padded rows * 32 ∧ (∀ w ∈ ws, (bf16Value w).isFinite = true) ∧
        PaddingZero rows ws ∧ matrix = matrixOf ws (padded rows) ∧ raw = littleEndian ws := by
  obtain ⟨n, hn⟩ : ∃ n, padded rows = 32 * n :=
    ⟨padded rows / 32, by have := padded_mod rows; omega⟩
  have hpadding : ∀ ws : List Bf16Word, ws.length = padded rows * 32 →
      (∀ w ∈ ws, (bf16Value w).isFinite = true) →
      (forM (positions (padded rows) 32) (checkPadding rows (matrixOf ws (padded rows))) = .ok () ↔
        PaddingZero rows ws) := by
    intro ws hlen hfinite
    simp only [forM_eq_ok_iff, mem_positions, Prod.forall, and_imp, PaddingZero]
    refine forall₄_congr fun r c hr hc => ?_
    have hword := hfinite _ (outputWord_mem hlen hr hc)
    have hzero : (bf16Value (outputWord ws r c)).toRat = 0 ↔
        wordMagnitude (outputWord ws r c) = 0 := by
      rw [← bf16Value_eq_zero_iff, FloatValue.eq_finite_toRat hword, FloatValue.toRat_finite,
        FloatValue.finite.injEq]
    unfold checkPadding
    by_cases hresult : r < rows ∧ c = 0
    · rw [if_neg (by simp only; omega)]
      simp [hresult]
    · rw [if_pos (by simp only; omega), require_eq_ok_iff, matrixOf, if_pos ⟨hr, hc⟩,
        Option.some.injEq, hzero]
      simp [hresult]
  have hcount : paddedExtent rows * 32 = (padded rows * 32 : ℕ) := by
    rw [paddedExtent_natCast]
    push_cast
    ring
  rw [auditOutput, hcount, paddedExtent_natCast, Int.toNat_natCast]
  simp only [bind_eq_ok_iff, Prod.exists, words_eq_ok_iff, pure_eq_ok, Except.ok.injEq,
    Prod.mk.injEq]
  constructor
  · rintro ⟨_, _, ⟨ws, hhex, hlen, rfl, rfl⟩, _, hmatrix, _, hcells, rfl, rfl⟩
    rw [hn, outputMatrix_eq_ok_iff (by rw [hlen, hn]), ← hn] at hmatrix
    obtain ⟨hfinite, rfl⟩ := hmatrix
    exact ⟨ws, hhex, hlen, hfinite, (hpadding ws hlen hfinite).mp hcells, rfl, rfl⟩
  · rintro ⟨ws, hhex, hlen, hfinite, hzero, rfl, rfl⟩
    refine ⟨_, _, ⟨ws, hhex, hlen, rfl, rfl⟩, matrixOf ws (padded rows), ?_, (),
      (hpadding ws hlen hfinite).mpr hzero, rfl, rfl⟩
    rw [hn, outputMatrix_eq_ok_iff (by rw [hlen, hn])]
    exact ⟨hfinite, rfl⟩

end RowReduce.Audit
