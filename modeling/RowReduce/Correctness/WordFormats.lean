import RowReduce.Correctness.AuditedWords
import RowReduce.Correctness.Readback

/-!
# Word formats

The printed text of a word list is read back word by word by the auditor and by
the runner, and transferred words hold exactly their two halves.
-/

namespace RowReduce

open Hexadecimal

/-- The words of the slices `validate_result` takes from the decoded bytes, low byte first. -/
def slicedWords (raw : List Byte) : List Bf16Word :=
  (byteSlices raw).map fun slice => BitVec.ofNat 16 (fromBytesLittle slice)

/-- Words are sliced from their bytes. -/
theorem slicedWords_littleEndian (ws : List Bf16Word) : slicedWords (littleEndian ws) = ws := by
  rw [slicedWords, byteSlices_littleEndian, List.map_map]
  calc ws.map _ = ws.map id := List.map_congr_left fun w _ => by
        rw [Function.comp_apply, fromBytesLittle_wordBytes, BitVec.ofNat_toNat, BitVec.setWidth_eq,
          id_eq]
    _ = ws := List.map_id ws

/-- The runner's values are those of the sliced words. -/
theorem unpackFloats_slices {raw : List Byte} {n : ℕ} (h : raw.length = 2 * n) :
    unpackFloats raw = .ok ((slicedWords raw).map bf16Value) := by
  obtain ⟨ws, rfl, _⟩ := exists_littleEndian h
  rw [unpackFloats_littleEndian, slicedWords_littleEndian]

/-- Different words have different digits. -/
theorem quantizedBitsHex_injective : Function.Injective quantizedBitsHex := by
  intro a b h
  apply littleEndian_injective
  have ha := decode_quantizedBitsHex a
  rw [h, decode_quantizedBitsHex] at ha
  exact (Option.some.inj ha).symm

/-- The auditor reads the words from their digits. -/
theorem audit_words_quantizedBitsHex (ws : List Bf16Word) (label : String) :
    Audit.words (.str (quantizedBitsHex ws)) ws.length label =
      .ok (ws.map BitVec.toNat, littleEndian ws) := by
  refine Audit.words_eq_ok_iff.mpr ⟨ws, ⟨_, rfl, fun c hc => ?_, length_quantizedBitsHex ws,
    decode_quantizedBitsHex ws⟩, rfl, rfl, rfl⟩
  rw [quantizedBitsHex_toList] at hc
  exact isDigit_encode hc

/-- The runner reads their bytes. -/
theorem fixedHex_quantizedBitsHex (ws : List Bf16Word) (message : String) :
    fixedHex (.str (quantizedBitsHex ws)) (4 * ws.length) message = .ok (littleEndian ws) := by
  refine fixedHex_eq_ok_iff.mpr ⟨_, rfl, ?_, decode_quantizedBitsHex ws⟩
  rw [length_quantizedBitsHex]
  norm_num

/-- The two halves of a word make it up. -/
theorem packed_halves (word : Word32) :
    ((word.setWidth 16).setWidth 32 ||| (((word >>> 16).setWidth 16).setWidth 32 <<< 16) : Word32) =
      word := by
  ext i hi
  by_cases hlow : i < 16
  · simp [hlow, hi]
  · have hhigh : i - 16 < 16 := by omega
    have hplace : 16 + (i - 16) = i := by omega
    simp [hlow, hi, hhigh, hplace]

/-- Unpacked words are packed to themselves. -/
theorem packWords_resultBits (words : List Word32) : packWords (resultBits words) = words := by
  induction words with
  | nil => rfl
  | cons word words ih =>
    rw [resultBits, List.flatMap_cons]
    change packWords (_ :: _ :: resultBits words) = _
    rw [packWords_cons, packed_halves, ih]

/-- The printed text determines the words, to the auditor and to the runner, and transferred words
and their halves determine each other. -/
theorem wordFormats_roundTrip :
    (∀ ws : List Bf16Word,
      streamedBitsHex ws = quantizedBitsHex ws ∧
      (quantizedBitsHex ws).length = 4 * ws.length ∧
      (∀ label, Audit.words (.str (quantizedBitsHex ws)) ws.length label =
        .ok (ws.map BitVec.toNat, littleEndian ws)) ∧
      (∀ message, fixedHex (.str (quantizedBitsHex ws)) (4 * ws.length) message =
        .ok (littleEndian ws)) ∧
      slicedWords (littleEndian ws) = ws ∧
      unpackFloats (littleEndian ws) = .ok (ws.map bf16Value)) ∧
    Function.Injective quantizedBitsHex ∧
    (∀ ws : List Bf16Word, ws.length % 2 = 0 → resultBits (packWords ws) = ws) ∧
    ∀ words : List Word32, packWords (resultBits words) = words := by
  refine ⟨fun ws => ?_, quantizedBitsHex_injective, fun ws => resultBits_packWords,
    packWords_resultBits⟩
  have hslices := slicedWords_littleEndian ws
  have hvalues := unpackFloats_slices (length_littleEndian ws)
  rw [hslices] at hvalues
  exact ⟨streamedBitsHex_eq ws, length_quantizedBitsHex ws, audit_words_quantizedBitsHex ws,
    fixedHex_quantizedBitsHex ws, hslices, hvalues⟩

/-- One is printed low byte first. -/
example : quantizedBitsHex [0x3f80#16] = "803f" := by decide

end RowReduce
