import RowReduce.Core.HexStream
import RowReduce.Host.Bf16

/-!
# Identification of uploaded words

Hexadecimal text of little-endian BF16 bytes, and the FNV-1a checksum over the
same bytes.
-/

namespace RowReduce

open Hexadecimal

/-- One byte through `setw(2)` and `hex`. -/
private def hexByte (b : Bf16Word) : List Char := encodeByte (b.setWidth 8)

def quantizedBitsHex (bits : List Bf16Word) : String :=
  String.ofList (bits.flatMap fun value => hexByte (value &&& 0xff#16) ++ hexByte (value >>> 8))

/-- The same through the state of the stream, one word after the other. -/
def streamedBitsHex (bits : List Bf16Word) : String :=
  String.ofList (bits.foldl (fun out value =>
    (((out.setw 2).put (value &&& 0xff#16).toNat).setw 2).put (value >>> 8).toNat)
    (HexStream.Stream.setfill '0' {})).text

/-- The little-endian bytes of a list of words. -/
def littleEndian (bits : List Bf16Word) : List Byte := bits.flatMap wordBytes

/-- The text is the encoding of the little-endian bytes. -/
theorem quantizedBitsHex_toList (bits : List Bf16Word) :
    (quantizedBitsHex bits).toList = encode (littleEndian bits) := by
  rw [quantizedBitsHex, String.toList_ofList, encode, littleEndian, List.flatMap_assoc]
  congr 1
  funext w
  have hlow : (w &&& 0xff#16).setWidth 8 = w.setWidth 8 := by
    apply BitVec.eq_of_toNat_eq
    simp only [BitVec.toNat_setWidth, BitVec.toNat_and]
    have := Nat.and_two_pow_sub_one_eq_mod w.toNat 8
    norm_num at this
    simp [this]
  simp only [wordBytes, hexByte, hlow, List.flatMap_cons, List.flatMap_nil, List.append_nil]

/-- No width or fill is left over between words. -/
theorem streamedBitsHex_eq (bits : List Bf16Word) :
    streamedBitsHex bits = quantizedBitsHex bits := by
  have hrun : ∀ out : HexStream.Stream, out.fill = '0' →
      (bits.foldl (fun out value =>
        (((out.setw 2).put (value &&& 0xff#16).toNat).setw 2).put (value >>> 8).toNat) out).text =
      out.text ++ bits.flatMap fun value => hexByte (value &&& 0xff#16) ++
        hexByte (value >>> 8) := by
    induction bits with
    | nil => simp
    | cons w bits ih =>
      intro out hfill
      have hlow : (w &&& 0xff#16).toNat = ((w &&& 0xff#16).setWidth 8).toNat := by
        have hle := @Nat.and_le_right w.toNat 255
        rw [BitVec.toNat_setWidth, Nat.mod_eq_of_lt]
        exact Nat.lt_succ_of_le hle
      have hhigh : (w >>> 8).toNat = ((w >>> 8).setWidth 8).toNat := by
        have hw := w.isLt
        rw [BitVec.toNat_setWidth, Nat.mod_eq_of_lt]
        rw [BitVec.toNat_ushiftRight, Nat.shiftRight_eq_div_pow]
        omega
      have hone : ∀ n : ℕ, ((out.setw 2).put n).fill = '0' := fun _ => hfill
      have hrest := ih ((((out.setw 2).put (w &&& 0xff#16).toNat).setw 2).put (w >>> 8).toNat) hfill
      rw [List.foldl_cons, hrest, hlow, hhigh, HexStream.Stream.put_byte (hone _),
        HexStream.Stream.put_byte hfill, List.flatMap_cons, hexByte, hexByte, List.append_assoc,
        List.append_assoc]
      rfl
  exact congrArg String.ofList (hrun _ rfl)

/-- The printed digits decode to the words in little-endian order. -/
theorem decode_quantizedBitsHex (bits : List Bf16Word) :
    decode (quantizedBitsHex bits).toList = some (littleEndian bits) := by
  rw [quantizedBitsHex_toList, decode_encode]

/-- The low byte of a word comes first. -/
theorem littleEndian_cons (w : Bf16Word) (bits : List Bf16Word) :
    littleEndian (w :: bits) = w.setWidth 8 :: (w >>> 8).setWidth 8 :: littleEndian bits := rfl

/-- Two bytes for each word. -/
@[simp] theorem length_littleEndian (bits : List Bf16Word) :
    (littleEndian bits).length = 2 * bits.length := by
  induction bits with
  | nil => rfl
  | cons w bits ih =>
    rw [littleEndian_cons, List.length_cons, List.length_cons, ih, List.length_cons]
    omega

/-- Four digits for each word. -/
@[simp] theorem length_quantizedBitsHex (bits : List Bf16Word) :
    (quantizedBitsHex bits).length = 4 * bits.length := by
  rw [← String.length_toList, quantizedBitsHex_toList, length_encode, length_littleEndian]
  omega

/-- The two bytes at a word's place. -/
theorem littleEndian_slice {bits : List Bf16Word} {i : ℕ} (h : i < bits.length) :
    ((littleEndian bits).drop (i * 2)).take 2 = wordBytes bits[i] := by
  induction bits generalizing i with
  | nil => simp at h
  | cons w bits ih =>
    cases i with
    | zero => rfl
    | succ i =>
      rw [show (i + 1) * 2 = i * 2 + 2 by omega, littleEndian_cons, List.getElem_cons_succ]
      exact ih (by simpa using h)

/-- The consecutive two-byte slices both validators take of decoded bytes. -/
def byteSlices (raw : List Byte) : List (List Byte) :=
  (List.range ((raw.length + 1) / 2)).map fun n => (raw.drop (n * 2)).take 2

/-- Slices of two bytes are the words. -/
theorem byteSlices_littleEndian (ws : List Bf16Word) :
    byteSlices (littleEndian ws) = ws.map wordBytes := by
  have hlen : ((littleEndian ws).length + 1) / 2 = ws.length := by
    rw [length_littleEndian]
    omega
  rw [byteSlices, hlen]
  apply List.ext_getElem
  · simp
  · intro i hi hi'
    have hi'' : i < ws.length := by simpa using hi'
    rw [List.getElem_map, List.getElem_range, littleEndian_slice hi'', List.getElem_map]

/-- Bytes of even number are the bytes of words. -/
theorem exists_littleEndian {n : ℕ} {bytes : List Byte} (h : bytes.length = 2 * n) :
    ∃ words : List Bf16Word, bytes = littleEndian words ∧ words.length = n := by
  induction n generalizing bytes with
  | zero => exact ⟨[], List.length_eq_zero_iff.mp h, rfl⟩
  | succ n ih =>
    match bytes with
    | low :: high :: rest =>
      obtain ⟨words, hrest, hn⟩ := @ih rest (by simp at h; omega)
      refine ⟨bytesWord low high :: words, ?_, by simp [hn]⟩
      rw [hrest, littleEndian, littleEndian, List.flatMap_cons, wordBytes_bytesWord]
      rfl

/-- Different words have different bytes. -/
theorem littleEndian_injective : Function.Injective littleEndian := by
  intro a b h
  have hlen : a.length = b.length := by
    have := congrArg List.length h
    simp only [length_littleEndian] at this
    omega
  apply List.ext_getElem hlen
  intro i ha hb
  have h2 := littleEndian_slice ha
  rw [h, littleEndian_slice hb] at h2
  simp only [wordBytes, List.cons.injEq, and_true] at h2
  rw [← bytesWord_wordBytes a[i], ← bytesWord_wordBytes b[i], h2.1, h2.2]

/-- One step of the checksum. -/
def fnvStep (hash : BitVec 64) (byte : Bf16Word) : BitVec 64 :=
  (hash ^^^ byte.setWidth 64) * 1099511628211#64

/-- The value of `quantized_fnv1a64` before it is printed. -/
def fnv1a64 (bits : List Bf16Word) : BitVec 64 :=
  bits.foldl (fun hash value => fnvStep (fnvStep hash (value &&& 0xff#16)) (value >>> 8))
    14695981039346656037#64

/-- Sixteen digits, zero-filled. -/
def quantizedFnv1a64 (bits : List Bf16Word) : String :=
  String.ofList ((List.range 8).flatMap fun i =>
    encodeByte ((fnv1a64 bits >>> (8 * (7 - i))).setWidth 8))

end RowReduce
