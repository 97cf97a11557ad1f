import RowReduce.Correctness.AuditedWords

/-!
# Which readbacks the runner decodes

The runner measures the text but slices the decoded bytes, and decoding skips
blanks. A complete readback is decoded as the auditor decodes it; a text with
blanks slips through as soon as the result words it still holds are right.
-/

namespace RowReduce

open BinaryFloat Fallible Grid Hexadecimal

/-- A full-length readback in hexadecimal digits whose result words are the given numbers. -/
structure CompleteReadback (rows : ℕ) (text : String) (actual : List ℚ) (ws : List Bf16Word) :
    Prop where
  hex : Audit.HexWords (.str text) ws
  length : ws.length = padded rows * 32
  rows : ∀ r < rows, bf16Value (outputWord ws r 0) = .finite (actual.getD r 0)

/-- Zero magnitude outside the result words, enumerated in serialized order. -/
def enumeratedPadding (rows : ℕ) (ws : List Bf16Word) : Bool :=
  ((Audit.facePositions (padded rows)).zip ws).all fun q =>
    decide (q.1.1 < rows ∧ q.1.2 = 0) || decide (wordMagnitude q.2 = 0)

/-- The runner decodes exactly the complete readbacks, and reports their padding as the auditor's
words and matrix have it. -/
structure DecodesComplete (rows : ℕ) (text : String) (actual : List ℚ) : Prop where
  complete : ∀ padding, decodeOutputBits (.str text) rows actual = .ok padding →
    ∃ ws, CompleteReadback rows text actual ws
  decodes : ∀ ws, CompleteReadback rows text actual ws →
    decodeOutputBits (.str text) rows actual = .ok (enumeratedPadding rows ws) ∧
    (enumeratedPadding rows ws = true ↔ PaddingZero rows ws) ∧
    Audit.words (.str text) (padded rows * 32 : ℕ) "output" =
      .ok (ws.map BitVec.toNat, littleEndian ws) ∧
    ∀ matrix, Audit.outputMatrix (ws.map BitVec.toNat) (padded rows) = .ok matrix →
      (∀ r < rows, matrix (r, 0) = some (actual.getD r 0)) ∧
      (enumeratedPadding rows ws = true ↔
        ∀ p ∈ positions (padded rows) 32, ¬(p.1 < rows ∧ p.2 = 0) → matrix p = some 0)

/-- The bytes of a word of the output, fewer where the bytes end early. -/
def outputSlice (raw : List Byte) (p : ℕ × ℕ) : List Byte :=
  (raw.drop (outputPosition p.1 p.2 * 2)).take 2

/-- The result words among the decoded bytes are all there and right. -/
def ResultWords (rows : ℕ) (raw : List Byte) (actual : List ℚ) : Prop :=
  ∀ r < rows, ∃ w : Bf16Word, outputSlice raw (r, 0) = wordBytes w ∧
    bf16Value w = .finite (actual.getD r 0)

/-- A text of full length with blanks in it that still holds its result words. -/
def SlipsThrough (rows : ℕ) (text : String) (actual : List ℚ) : Prop :=
  (text.length : ℤ) = 4 * padded rows * 32 ∧ (∃ c ∈ text.toList, isSpace c = true) ∧
    ∃ raw, decode text.toList = some raw ∧ ResultWords rows raw actual

/-- Two bytes are unpacked to the value of their word. -/
theorem unpackFloat_eq_ok_iff {bytes : List Byte} {x : FloatValue} :
    unpackFloat bytes = .ok x ↔ ∃ w : Bf16Word, bytes = wordBytes w ∧ bf16Value w = x := by
  constructor
  · intro h
    unfold unpackFloat at h
    split at h
    · rename_i low high
      exact ⟨bytesWord low high, (wordBytes_bytesWord low high).symm, Except.ok.inj h⟩
    · cases h
  · rintro ⟨w, rfl, rfl⟩
    exact unpackFloat_wordBytes w

/-- One pass on whatever bytes are left at the position. -/
theorem checkOutputWord_slice {rows : ℕ} {actual : List ℚ} {raw : List Byte} {p : ℕ × ℕ}
    {flag flag' : Bool} : checkOutputWord rows actual raw flag p = .ok flag' ↔
      (p.1 < rows ∧ p.2 = 0 → ∃ w : Bf16Word, outputSlice raw p = wordBytes w ∧
        bf16Value w = .finite (actual.getD p.1 0)) ∧
      flag' = if p.1 < rows ∧ p.2 = 0 then flag
        else if fromBytesLittle (outputSlice raw p) &&& 0x7fff = 0 then flag else false := by
  obtain ⟨r, c⟩ := p
  by_cases hrow : r < rows ∧ c = 0
  · have hcast : (r : ℤ) < rows ∧ c = 0 := by exact_mod_cast hrow
    have hvalue : ∀ x : FloatValue, ∀ q : ℚ,
        ¬(x.isFinite = false ∨ x.eq (.finite q) = false) ↔ x = .finite q := by
      intro x q
      cases x <;> simp [FloatValue.isFinite, FloatValue.eq]
    simp only [checkOutputWord, outputSlice, if_pos hcast, if_pos hrow, bind_eq_ok_iff,
      unpackFloat_eq_ok_iff, throwIf_eq_ok_iff, hvalue, exists_const, pure_eq_ok, Except.ok.injEq]
    constructor
    · rintro ⟨_, ⟨w, hw, hx⟩, hq, rfl⟩
      exact ⟨fun _ => ⟨w, hw, hx.trans hq⟩, rfl⟩
    · rintro ⟨h, rfl⟩
      exact ⟨_, h hrow, rfl, rfl⟩
  · have hcast : ¬((r : ℤ) < rows ∧ c = 0) := by exact_mod_cast hrow
    simp only [checkOutputWord, outputSlice, if_neg hcast, hrow, pure_eq_ok, Except.ok.injEq,
      false_implies, true_and, ite_not]
    exact eq_comm

/-- What the runner asks of the readback text, in raw bytes. -/
theorem decodeOutputBits_raw {rows : ℕ} {text : String} {actual : List ℚ} {padding : Bool} :
    decodeOutputBits (.str text) rows actual = .ok padding ↔
      (text.length : ℤ) = 4 * padded rows * 32 ∧ ∃ raw, decode text.toList = some raw ∧
        ResultWords rows raw actual ∧
        padding = (positions (padded rows) 32).all fun p => decide (p.1 < rows ∧ p.2 = 0) ||
          decide (fromBytesLittle (outputSlice raw p) &&& 0x7fff = 0) := by
  have hle := le_padded rows
  have hrows : ∀ raw, (∀ p ∈ positions (padded rows) 32, p.1 < rows ∧ p.2 = 0 →
      ∃ w : Bf16Word, outputSlice raw p = wordBytes w ∧
        bf16Value w = .finite (actual.getD p.1 0)) ↔ ResultWords rows raw actual := by
    intro raw
    constructor
    · intro h r hr
      exact h (r, 0) (mem_positions.mpr ⟨by omega, by norm_num⟩) ⟨hr, rfl⟩
    · rintro h ⟨r, c⟩ _ ⟨hr, rfl⟩
      exact h r hr
  have hloop : ∀ raw, (positions (padded rows) 32).foldlM (checkOutputWord rows actual raw) true =
      .ok padding ↔ ResultWords rows raw actual ∧
        padding = (positions (padded rows) 32).all fun p => decide (p.1 < rows ∧ p.2 = 0) ||
          decide (fromBytesLittle (outputSlice raw p) &&& 0x7fff = 0) := by
    intro raw
    rw [foldlM_eq_ok_iff (f := checkOutputWord rows actual raw)
      fun p _ _ _ => checkOutputWord_slice, foldl_clear, Bool.true_and, hrows]
  simp only [decodeOutputBits, bind_eq_ok_iff, fixedHex_eq_ok_iff, Json.str.injEq, exists_eq_left',
    runnerPaddedRows_natCast, Int.toNat_natCast, hloop]
  constructor
  · rintro ⟨raw, ⟨hlen, hdecode⟩, hresult, hpadding⟩
    exact ⟨hlen, raw, hdecode, hresult, hpadding⟩
  · rintro ⟨hlen, raw, hdecode, hresult, hpadding⟩
    exact ⟨raw, ⟨hlen, hdecode⟩, hresult, hpadding⟩

section Complete

variable {rows : ℕ} {text : String} {actual : List ℚ} {ws : List Bf16Word}

/-- Serialized order and row-major order see the same padding. -/
theorem enumeratedPadding_eq (hlen : ws.length = padded rows * 32) :
    enumeratedPadding rows ws = outputPaddingZero rows ws := by
  obtain ⟨n, hn⟩ := Nat.dvd_of_mod_eq_zero (padded_mod rows)
  rw [hn] at hlen
  rw [enumeratedPadding, outputPaddingZero, hn, Bool.eq_iff_iff, List.all_eq_true,
    List.all_eq_true]
  constructor
  · intro h p hp
    exact h (p, outputWord ws p.1 p.2)
      ((Audit.mem_zip_facePositions hlen).mpr ⟨mem_positions.mp hp, rfl⟩)
  · rintro h ⟨p, w⟩ hmem
    obtain ⟨hp, rfl⟩ := (Audit.mem_zip_facePositions hlen).mp hmem
    exact h p (mem_positions.mpr hp)

/-- A complete readback is decoded. -/
theorem CompleteReadback.decodeOutputBits (h : CompleteReadback rows text actual ws) :
    decodeOutputBits (.str text) rows actual = .ok (enumeratedPadding rows ws) := by
  obtain ⟨text', htext, _, hlength, hdecode⟩ := h.hex
  obtain rfl := Json.str.inj htext
  have := h.length
  exact (decodeOutputBits_eq_ok_iff h.length (by omega) hdecode).mpr
    ⟨h.rows, enumeratedPadding_eq h.length⟩

/-- The enumerated padding is that of the tiles. -/
theorem enumeratedPadding_eq_true_iff (hlen : ws.length = padded rows * 32) :
    enumeratedPadding rows ws = true ↔ PaddingZero rows ws := by
  rw [enumeratedPadding_eq hlen, outputPaddingZero_eq_true_iff]

/-- The auditor's matrix has the given results, and zeros elsewhere just when the padding is. -/
theorem CompleteReadback.outputMatrix (h : CompleteReadback rows text actual ws)
    {matrix : Audit.Matrix}
    (hmatrix : Audit.outputMatrix (ws.map BitVec.toNat) (padded rows) = .ok matrix) :
    (∀ r < rows, matrix (r, 0) = some (actual.getD r 0)) ∧
      (enumeratedPadding rows ws = true ↔
        ∀ p ∈ positions (padded rows) 32, ¬(p.1 < rows ∧ p.2 = 0) → matrix p = some 0) := by
  obtain ⟨n, hn⟩ := Nat.dvd_of_mod_eq_zero (padded_mod rows)
  have hlen := h.length
  have hle := le_padded rows
  rw [enumeratedPadding_eq_true_iff hlen]
  rw [hn] at hmatrix hlen
  obtain ⟨hfinite, rfl⟩ := (Audit.outputMatrix_eq_ok_iff hlen).mp hmatrix
  rw [← hn] at hlen ⊢
  constructor
  · intro r hr
    rw [Audit.matrixOf, if_pos ⟨hr.trans_le hle, by norm_num⟩, h.rows r hr,
      FloatValue.toRat_finite]
  · simp only [PaddingZero, Prod.forall, mem_positions, and_imp]
    refine forall₄_congr fun r c hr hc => imp_congr_right fun _ => ?_
    have hword := FloatValue.eq_finite_toRat (hfinite _ (outputWord_mem hlen hr hc))
    rw [Audit.matrixOf, if_pos ⟨hr, hc⟩, Option.some.injEq, ← bf16Value_eq_zero_iff, hword,
      FloatValue.toRat_finite, FloatValue.finite.injEq]

end Complete

section Exact

variable {rows : ℕ} {text : String} {actual : List ℚ}

/-- Without blanks, a decoded text is a complete readback. -/
theorem exists_completeReadback {padding : Bool}
    (h : decodeOutputBits (.str text) rows actual = .ok padding)
    (hspace : ∀ c ∈ text.toList, isSpace c = false) :
    ∃ ws, CompleteReadback rows text actual ws := by
  obtain ⟨hlen, raw, hdecode, _⟩ := decodeOutputBits_raw.mp h
  have hdigit := isDigit_of_decode hdecode hspace
  obtain ⟨ws, hws, hcount⟩ := exists_words_of_isDigit hdigit (n := padded rows * 32) (by omega)
  refine ⟨ws, ⟨text, rfl, hdigit, by omega, hws⟩, hcount, ?_⟩
  exact ((decodeOutputBits_eq_ok_iff hcount hlen hws).mp h).1

/-- A complete readback has no blanks. -/
theorem CompleteReadback.not_isSpace {ws : List Bf16Word}
    (h : CompleteReadback rows text actual ws) {c : Char} (hc : c ∈ text.toList) :
    isSpace c = false := by
  obtain ⟨_, htext, hdigit, _⟩ := h.hex
  obtain rfl := Json.str.inj htext
  exact isSpace_of_isDigit (hdigit c hc)

/-- The runner decodes only complete readbacks except where a text with blanks slips through. -/
theorem decodesComplete_iff (rows : ℕ) (text : String) (actual : List.Vector ℚ rows) :
    DecodesComplete rows text actual.toList ↔ ¬SlipsThrough rows text actual.toList := by
  constructor
  · rintro hcomplete ⟨hlen, ⟨c, hc, hspace⟩, raw, hdecode, hresult⟩
    obtain ⟨ws, hws⟩ := hcomplete.complete _
      (decodeOutputBits_raw.mpr ⟨hlen, raw, hdecode, hresult, rfl⟩)
    rw [hws.not_isSpace hc] at hspace
    cases hspace
  · intro hslips
    refine ⟨fun padding h => exists_completeReadback h fun c hc => ?_, fun ws hws => ?_⟩
    · by_contra hspace
      obtain ⟨hlen, raw, hdecode, hresult, _⟩ := decodeOutputBits_raw.mp h
      exact hslips ⟨hlen, ⟨c, hc, Bool.eq_true_of_not_eq_false hspace⟩, raw, hdecode, hresult⟩
    · refine ⟨hws.decodeOutputBits, enumeratedPadding_eq_true_iff hws.length, ?_,
        fun matrix hmatrix => hws.outputMatrix hmatrix⟩
      exact Audit.words_eq_ok_iff.mpr ⟨ws, hws.hex, hws.length, rfl, rfl⟩

end Exact

/-- One result word in front of blanks. -/
def blankReadback : String := "0000" ++ String.ofList (List.replicate 4092 ' ')

private theorem toList_blankReadback :
    blankReadback.toList = ['0', '0', '0', '0'] ++ List.replicate 4092 ' ' := by
  have hword : "0000".toList = ['0', '0', '0', '0'] := rfl
  simp only [blankReadback, String.toList_append, String.toList_ofList, hword]

private theorem fromBytesLittle_replicate_zero (n : ℕ) :
    fromBytesLittle (List.replicate n 0) = 0 := by
  induction n with
  | zero => rfl
  | succ n ih =>
    rw [List.replicate_succ, fromBytesLittle, ih]
    rfl

/-- Four digits and blanks pass for a complete readback with zero padding. -/
theorem decodeOutputBits_blank :
    decodeOutputBits (.str blankReadback) (1 : ℕ) [0] = .ok true ∧
      ¬DecodesComplete 1 blankReadback [0] := by
  have hdecode : decode blankReadback.toList = some (List.replicate 2 0) := by
    rw [toList_blankReadback]
    simp only [List.cons_append, List.nil_append]
    rw [decode_cons_cons rfl rfl, decode_cons_cons rfl rfl, decode_replicate_blank]
    rfl
  have hok : decodeOutputBits (.str blankReadback) (1 : ℕ) [0] = .ok true := by
    refine decodeOutputBits_raw.mpr ⟨?_, _, hdecode, fun r hr => ?_, ?_⟩
    · rw [← String.length_toList, toList_blankReadback, List.length_append, List.length_replicate]
      decide
    · obtain rfl : r = 0 := by omega
      exact ⟨0, by decide, (bf16Value_eq_zero_iff 0).mpr rfl⟩
    · symm
      rw [List.all_eq_true]
      intro p _
      rw [outputSlice, List.drop_replicate, List.take_replicate, fromBytesLittle_replicate_zero]
      simp
  refine ⟨hok, fun h => ?_⟩
  obtain ⟨ws, hws⟩ := h.complete true hok
  have hblank : ' ' ∈ blankReadback.toList := by
    rw [toList_blankReadback]
    exact List.mem_append_right _ (List.mem_replicate.mpr ⟨by norm_num, rfl⟩)
  exact absurd (hws.not_isSpace hblank) (by decide)

end RowReduce
