import RowReduce.Core.Fingerprint
import RowReduce.Host.Encoding

/-!
# The input checksum

The checksum printed with every CPU result as sixteen zero-filled digits. It
tells apart any two uploads that differ in a single word.
-/

namespace RowReduce

open Fingerprint Hexadecimal HexStream HexStream.Stream

/-- The words folded into the checksum, one after the other. -/
def fnvWord (hash : BitVec 64) (value : Bf16Word) : BitVec 64 :=
  fnvStep (fnvStep hash (value &&& 0xff#16)) (value >>> 8)

private theorem fnv1a64_eq (bits : List Bf16Word) :
    fnv1a64 bits = bits.foldl fnvWord 14695981039346656037#64 := rfl

/-- The multiplier is odd, so it has an inverse. -/
theorem fnvPrime_inverse : 1099511628211#64 * 14886173955864302971#64 = 1#64 := by decide

private theorem fnvWord_keepsState : KeepsState fnvWord := fun _ =>
  (xorMul_keepsState fnvPrime_inverse _).comp (xorMul_keepsState fnvPrime_inverse _)

/-- Both bytes of a word survive, since the multiplier carries a change of the
first past the second. -/
theorem fnvWord_keepsItem : KeepsItem fnvWord := by
  intro hash v w h
  have hlow : ∀ x : Bf16Word, ((x &&& 0xff#16).setWidth 64).toNat < 2 ^ 8 := by
    intro x
    have hle := @Nat.and_le_right x.toNat 255
    rw [BitVec.toNat_setWidth_of_le (by norm_num), BitVec.toNat_and]
    exact Nat.lt_succ_of_le hle
  have hhigh : ∀ x : Bf16Word, ((x >>> 8).setWidth 64).toNat < 2 ^ 8 := by
    intro x
    have hx := x.isLt
    rw [BitVec.toNat_setWidth_of_le (by norm_num), BitVec.toNat_ushiftRight,
      Nat.shiftRight_eq_div_pow]
    omega
  have hboth := xorMul_xorMul_inj fnvPrime_inverse (k := 8) (by decide) (by decide)
    (hlow v) (hhigh v) (hlow w) (hhigh w) h
  have hlowEq := congrArg BitVec.toNat hboth.1
  have hhighEq := congrArg BitVec.toNat hboth.2
  rw [BitVec.toNat_setWidth_of_le (by norm_num), BitVec.toNat_setWidth_of_le (by norm_num)]
    at hlowEq hhighEq
  rw [BitVec.toNat_ushiftRight, BitVec.toNat_ushiftRight, Nat.shiftRight_eq_div_pow,
    Nat.shiftRight_eq_div_pow] at hhighEq
  have hmask : ∀ x : Bf16Word, (x &&& 0xff#16).toNat = x.toNat % 2 ^ 8 := fun x =>
    Nat.and_two_pow_sub_one_eq_mod x.toNat 8
  rw [hmask, hmask] at hlowEq
  apply BitVec.eq_of_toNat_eq
  omega

/-- The same through the state of the stream. -/
def streamedFnv1a64 (bits : List Bf16Word) : String :=
  String.ofList (((setfill '0' {}).setw 16).put (fnv1a64 bits).toNat).text

/-- The stream prints sixteen digits of the checksum. -/
theorem streamedFnv1a64_toList (bits : List Bf16Word) :
    (streamedFnv1a64 bits).toList = fixedDigits 16 (fnv1a64 bits).toNat := by
  have hlt := (fnv1a64 bits).isLt
  rw [streamedFnv1a64, String.toList_ofList, put_setw_text]
  exact filled_toDigits_eq (by norm_num) (by omega)

/-- Bytes from the most significant on are the last digits, two by two. -/
theorem fixedDigits_eq_bytes (k n : ℕ) : fixedDigits (2 * k) n =
    (List.range k).flatMap fun i => encodeByte (BitVec.ofNat 8 (n / 256 ^ (k - 1 - i))) := by
  induction k generalizing n with
  | zero => rfl
  | succ k ih =>
    have hbyte : encodeByte (BitVec.ofNat 8 n) = [digit (n / 16 % 16), digit (n % 16)] := by
      rw [encodeByte, BitVec.toNat_ofNat, show n % 2 ^ 8 / 16 = n / 16 % 16 by omega,
        show n % 2 ^ 8 % 16 = n % 16 by omega]
    rw [show 2 * (k + 1) = 2 * k + 1 + 1 by ring, fixedDigits, fixedDigits, ih, List.range_succ,
      List.flatMap_append, List.flatMap_singleton, Nat.add_sub_cancel, Nat.sub_self, pow_zero,
      Nat.div_one, hbyte, List.append_assoc]
    refine congrArg (· ++ _) (List.flatMap_congr fun i hi => ?_)
    have hi' := List.mem_range.mp hi
    rw [show k - i = k - 1 - i + 1 by omega, pow_succ', ← Nat.div_div_eq_div_mul,
      Nat.div_div_eq_div_mul n 16 16]

/-- The checksum in the program's words is the streamed one. -/
theorem quantizedFnv1a64_eq (bits : List Bf16Word) :
    quantizedFnv1a64 bits = streamedFnv1a64 bits := by
  apply String.toList_inj.mp
  rw [streamedFnv1a64_toList, quantizedFnv1a64, String.toList_ofList, fixedDigits_eq_bytes 8]
  refine List.flatMap_congr fun i _ => congrArg encodeByte (BitVec.eq_of_toNat_eq ?_)
  rw [BitVec.toNat_setWidth, BitVec.toNat_ushiftRight, BitVec.toNat_ofNat,
    Nat.shiftRight_eq_div_pow,
    show (8 : ℕ) - 1 - i = 7 - i by omega, show (256 : ℕ) = 2 ^ 8 by norm_num, ← pow_mul]

/-- The checksum prints as sixteen digits and tells apart uploads that differ in one word. -/
theorem quantizedFnv1a64_single :
    (∀ bits : List Bf16Word, quantizedFnv1a64 bits = streamedFnv1a64 bits ∧
      (quantizedFnv1a64 bits).length = 16) ∧
    ∀ (before after : List Bf16Word) (a b : Bf16Word),
      quantizedFnv1a64 (before ++ a :: after) = quantizedFnv1a64 (before ++ b :: after) ↔
        a = b := by
  constructor
  · intro bits
    refine ⟨quantizedFnv1a64_eq bits, ?_⟩
    rw [quantizedFnv1a64_eq, ← String.length_toList, streamedFnv1a64_toList, length_fixedDigits]
  · intro before after a b
    rw [← foldl_single_eq_iff fnvWord_keepsState fnvWord_keepsItem 14695981039346656037#64
      before after,
      ← fnv1a64_eq, ← fnv1a64_eq]
    constructor
    · intro h
      have hdigits := congrArg String.toList h
      rw [quantizedFnv1a64_eq, quantizedFnv1a64_eq, streamedFnv1a64_toList, streamedFnv1a64_toList]
        at hdigits
      have hlt := fun bits => (fnv1a64 bits).isLt
      exact BitVec.eq_of_toNat_eq (fixedDigits_inj (hlt _) (hlt _) hdigits)
    · intro h
      rw [quantizedFnv1a64, quantizedFnv1a64, h]

end RowReduce
