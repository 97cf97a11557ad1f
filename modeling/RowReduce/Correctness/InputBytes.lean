import RowReduce.Correctness.MersenneTwister
import RowReduce.Host.Encoding
import RowReduce.Host.QuantizedMatrix

/-!
# Both sides generate the same input

Every generated value is zero or of magnitude in `[2^-8,1]`, so the two
quantizers see the same binary32 pattern and round it alike.
-/

namespace RowReduce

open BinaryFloat Fallible Grid Hexadecimal

/-- The rationals the patterns are made of. -/
def InputRange (q : ℚ) : Prop := q = 0 ∨ 2 ^ (-8 : ℤ) ≤ |q| ∧ |q| ≤ 1

instance (q : ℚ) : Decidable (InputRange q) := inferInstanceAs (Decidable (_ ∨ _))

/-- The range is symmetric. -/
theorem InputRange.neg {q : ℚ} (h : InputRange q) : InputRange (-q) := by
  unfold InputRange at *
  rwa [abs_neg, neg_eq_zero]

/-- The magnitude patterns of the range. -/
theorem InputRange.roundBits {q : ℚ} (h : InputRange q) : binary32.roundBits |q| = 0 ∨
    0x3b800000 ≤ binary32.roundBits |q| ∧ binary32.roundBits |q| ≤ 0x3f800000 := by
  rcases h with rfl | ⟨h1, h2⟩
  · left
    rw [abs_zero, BinaryFormat.roundBits_zero]
  · right
    have hlow : binary32.roundBits (2 ^ (-8 : ℤ)) = 0x3b800000 := by decide +kernel
    have hhigh : binary32.roundBits 1 = 0x3f800000 := by decide +kernel
    exact ⟨hlow ▸ binary32.roundBits_mono (by positivity) h1,
      hhigh ▸ binary32.roundBits_mono (abs_nonneg q) h2⟩

private theorem InputRange.roundBits_lt {q : ℚ} (h : InputRange q) :
    binary32.roundBits |q| < binary32.infinityBits := by
  have := h.roundBits
  rw [binary32_infinityBits]
  omega

/-- Without overflow a pattern is its sign and its rounded magnitude. -/
theorem encode_eq {q : ℚ} (h : binary32.roundBits |q| < binary32.infinityBits) :
    binary32.encode q = (if q < 0 then 0x80000000 else 0) + binary32.roundBits |q| := by
  rw [BinaryFormat.encode, binary32_signBit]
  split_ifs with hq
  · rw [← abs_of_neg hq, min_eq_right h.le]
  · rw [← abs_of_nonneg (not_lt.mp hq), abs_abs, min_eq_right h.le, Nat.zero_add]

/-- A float has the pattern its number encodes to. -/
theorem toNat_ofRat (q : ℚ) : (Float32.ofRat q).toNat = binary32.encode q := by
  have := binary32.encode_lt q
  rw [binary32_signBit] at this
  rw [Float32.ofRat, BitVec.toNat_ofNat, Nat.mod_eq_of_lt (by omega)]

/-- A number in range has a sign bit and a rounded magnitude. -/
theorem InputRange.toNat_ofRat {q : ℚ} (h : InputRange q) : ∃ s, (s = 0 ∨ s = 0x80000000) ∧
    (Float32.ofRat q).toNat = s + binary32.roundBits |q| := by
  rw [RowReduce.toNat_ofRat, encode_eq h.roundBits_lt]
  by_cases hq : q < 0
  · exact ⟨_, Or.inr rfl, by rw [if_pos hq]⟩
  · exact ⟨_, Or.inl rfl, by rw [if_neg hq]⟩

private theorem xor_signBit {n : ℕ} (h : n < 2 ^ 31) : n ^^^ 2 ^ 31 = 2 ^ 31 + n := by
  have hor := Nat.two_pow_add_eq_or_of_lt h 1
  rw [Nat.mul_one] at hor
  rw [hor]
  apply Nat.eq_of_testBit_eq
  intro i
  rw [Nat.testBit_xor, Nat.testBit_or, Nat.testBit_two_pow]
  by_cases hi : 31 = i
  · rw [← hi, Nat.testBit_lt_two_pow h]
    rfl
  · simp [hi]

private theorem neg_ofRat {q : ℚ} (h : InputRange q) (hq : 0 < q) :
    (Float32.ofRat q).neg = Float32.ofRat (-q) := by
  have hlt := h.roundBits_lt
  have hbits := h.roundBits
  apply BitVec.eq_of_toNat_eq
  have hneg := h.neg.roundBits_lt
  rw [Float32.neg, BitVec.toNat_xor, toNat_ofRat, toNat_ofRat, encode_eq hlt, encode_eq hneg,
    abs_neg, if_neg (not_lt.mpr hq.le), if_pos (neg_lt_zero.mpr hq), Nat.zero_add]
  exact xor_signBit (by omega)

/-- A generated value is finite and quantizes into the contract. -/
theorem InputRange.accepted {q : ℚ} (h : InputRange q) :
    (Float32.ofRat q).value.isFinite = true ∧ InContract (floatToBf16 (Float32.ofRat q)) := by
  have hbits := h.roundBits
  obtain ⟨s, hs, hnat⟩ := h.toNat_ofRat
  constructor
  · rw [Float32.value, RowReduce.toNat_ofRat, binary32.decode_encode h.roundBits_lt]
    rfl
  · set bits := binary32.roundBits |q|
    have hmag : wordMagnitude (floatToBf16 (Float32.ofRat q)) =
        (bits + 0x7fff + bits / 2 ^ 16 % 2) / 2 ^ 16 := by
      have hparity : (s + bits) / 2 ^ 16 % 2 = bits / 2 ^ 16 % 2 := by
        rcases hs with rfl | rfl <;> omega
      have hodd : bits / 2 ^ 16 % 2 < 2 := Nat.mod_lt _ (by norm_num)
      rw [wordMagnitude, toNat_floatToBf16 (by omega), hnat, hparity]
      generalize bits / 2 ^ 16 % 2 = odd at hodd
      rcases hs with rfl | rfl <;> omega
    rw [inContract_iff, hmag]
    omega

/-- The runner serialises the host's word. -/
theorem InputRange.expectedBytes {q : ℚ} (h : InputRange q) :
    expectedBytes q = .ok (wordBytes (floatToBf16 (Float32.ofRat q))) := by
  have hbits := h.roundBits
  obtain ⟨s, hs, hnat⟩ := h.toNat_ofRat
  have hword := toNat_floatToBf16 (show (Float32.ofRat q).toNat % 0x80000000 ≤ 0x7f800000 by omega)
  rw [RowReduce.toNat_ofRat] at hword
  have hmask : ∀ n : ℕ, n &&& 0xffff = n % 2 ^ 16 := fun n => Nat.and_two_pow_sub_one_eq_mod n 16
  rw [RowReduce.expectedBytes, packedFloatBits, if_pos h.roundBits_lt, ok_bind]
  simp only [hmask, Nat.and_one_is_mod, Nat.shiftRight_eq_div_pow, ← hword, BitVec.ofNat_toNat,
    BitVec.setWidth_eq, pure_eq_ok]

/-- A host value inside the contract and the bytes of its quantization. -/
structure ElementAgrees (value : Float32) (bytes : List Byte) : Prop where
  finite : value.value.isFinite = true
  inContract : InContract (floatToBf16 value)
  bytes : bytes = wordBytes (floatToBf16 value)

/-- Both programs write the same bytes for a number in range. -/
theorem InputRange.elementAgrees {q : ℚ} (h : InputRange q) :
    ElementAgrees (Float32.ofRat q) (wordBytes (floatToBf16 (Float32.ofRat q))) :=
  ⟨h.accepted.1, h.accepted.2, rfl⟩

section Element

variable {shape : Shape} {p : ℕ × ℕ} {g : Mt19937} {h : PyMt19937}

/-- What agreement on one element says about the two loop bodies. -/
def BodiesAgree (shape : Shape) (pattern : Pattern) (p : ℕ × ℕ) (g : Mt19937) (h : PyMt19937) :
    Prop :=
  ∃ bytes h', expectedElement shape.rows shape.cols pattern.name p h = .ok (bytes, h') ∧
    ElementAgrees (patternValue shape p.1 p.2 pattern g).1 bytes ∧
    TwistersAgree (patternValue shape p.1 p.2 pattern g).2 h'

/-- A pattern that draws nothing agrees where both sides pick the same value. -/
private theorem bodiesAgree_pure {pattern : Pattern} {q r : ℚ} (hr : TwistersAgree g h)
    (hq : InputRange q) (hrange : InputRange r) (heq : Float32.ofRat q = Float32.ofRat r)
    (hpy : expectedValue shape.rows shape.cols pattern.name p.1 p.2 = pure r)
    (hhost : patternValue shape p.1 p.2 pattern = pure (Float32.ofRat q)) :
    BodiesAgree shape pattern p g h := by
  refine ⟨wordBytes (floatToBf16 (Float32.ofRat r)), h, ?_, ?_, ?_⟩
  · rw [expectedElement, hpy]
    exact bind_lift_apply rfl hrange.expectedBytes
  · rw [hhost, ← heq]
    exact hq.elementAgrees
  · rw [hhost]
    exact hr

/-- A drawn magnitude is in range and exact in double precision. -/
theorem inputRange_magnitude (n : ℕ) :
    InputRange (((256 + n % 65281 : ℕ) : ℚ) / 65536) := by
  have hlow : (256 : ℚ) ≤ ((256 + n % 65281 : ℕ) : ℚ) := by
    exact_mod_cast Nat.le_add_right 256 _
  have hhigh : ((256 + n % 65281 : ℕ) : ℚ) ≤ 65536 := by
    have : 256 + n % 65281 ≤ 65536 := by omega
    exact_mod_cast this
  right
  rw [abs_of_nonneg (by positivity), le_div_iff₀ (by norm_num), div_le_one (by norm_num)]
  exact ⟨le_trans (by norm_num) hlow, hhigh⟩

/-- The magnitudes of random inputs are doubles. -/
theorem binary64_round_magnitude (n : ℕ) :
    binary64.round (((256 + n % 65281 : ℕ) : ℚ) / 65536) =
      ((256 + n % 65281 : ℕ) : ℚ) / 65536 := by
  apply binary64.round_of_representable
  refine ⟨((256 + n % 65281 : ℕ) : ℤ), -16, ?_, by decide, ?_⟩
  · have : 256 + n % 65281 < 2 ^ 53 := by omega
    rw [Nat.abs_cast]
    exact_mod_cast this
  · rw [Int.cast_natCast, zpow_neg, div_eq_mul_inv]
    norm_num

private theorem bodiesAgree_random (hr : TwistersAgree g h) :
    BodiesAgree shape .random p g h := by
  obtain ⟨h₁, hn1, hr1⟩ := hr.next
  obtain ⟨h₂, hn2, hr2⟩ := hr1.next
  set sample := (Mt19937.next g).1
  set sign := (Mt19937.next (Mt19937.next g).2).1
  set q : ℚ := ((256 + sample.toNat % 65281 : ℕ) : ℚ) / 65536 with hq
  have hround : binary64.round q = q := by
    rw [hq]
    exact binary64_round_magnitude _
  have hrange : InputRange q := inputRange_magnitude _
  have hpos : 0 < q := by
    rw [hq]
    positivity
  have hdrawn : InputRange (if sign &&& 1#32 = 0#32 then q else -q) := by
    split_ifs
    · exact hrange
    · exact hrange.neg
  have hone : (sign.toNat &&& 1 = 0) = (sign &&& 1#32 = 0#32) := by
    rw [← BitVec.toNat_inj, BitVec.toNat_and]
    rfl
  have hpy : pyRandomValue h = .ok (if sign &&& 1#32 = 0#32 then q else -q, h₂) := by
    simp only [pyRandomValue, bind, StateT.bind, hn1, hn2, Except.bind, ← hq, hround, hone]
    rfl
  have hvalue : (if sign &&& 1#32 = 0#32 then Float32.ofRat q else (Float32.ofRat q).neg) =
      Float32.ofRat (if sign &&& 1#32 = 0#32 then q else -q) := by
    split_ifs
    · rfl
    · exact neg_ofRat hrange hpos
  have hhost : patternValue shape p.1 p.2 .random g =
      (Float32.ofRat (if sign &&& 1#32 = 0#32 then q else -q), (Mt19937.next (Mt19937.next g).2).2)
      := by
    rw [← hvalue]
    rfl
  refine ⟨wordBytes (floatToBf16 (Float32.ofRat (if sign &&& 1#32 = 0#32 then q else -q))), h₂,
    ?_, ?_, ?_⟩
  · have hvalue : expectedValue shape.rows shape.cols Pattern.random.name p.1 p.2 =
        pyRandomValue := by
      simp [expectedValue, Pattern.name]
    rw [expectedElement, hvalue]
    exact bind_lift_apply hpy hdrawn.expectedBytes
  · rw [hhost]
    exact hdrawn.elementAgrees
  · rw [hhost]
    exact hr2

/-- Both loop bodies agree on every element of every pattern. -/
theorem bodiesAgree (pattern : Pattern) (hp : p ∈ positions shape.rows shape.cols)
    (hr : TwistersAgree g h) : BodiesAgree shape pattern p g h := by
  obtain ⟨hrow, hcol⟩ := mem_positions.mp hp
  have hone : InputRange 1 := by decide +kernel
  have hzero : InputRange 0 := Or.inl rfl
  cases pattern with
  | zero =>
    exact bodiesAgree_pure hr hzero hzero rfl (by simp [expectedValue, Pattern.name]) rfl
  | ones =>
    exact bodiesAgree_pure hr hone hone rfl (by simp [expectedValue, Pattern.name]) rfl
  | oneHot =>
    by_cases hlast : p.1 + 1 = shape.rows ∧ p.2 + 1 = shape.cols
    · have hpy : (p.1 : ℤ) = shape.rows - 1 ∧ (p.2 : ℤ) = shape.cols - 1 := by omega
      exact bodiesAgree_pure hr hone hone rfl
        (by simp [expectedValue, Pattern.name, boolToFloat, hpy]) (by simp [patternValue, hlast])
    · have hpy : ¬((p.1 : ℤ) = shape.rows - 1 ∧ (p.2 : ℤ) = shape.cols - 1) := by omega
      exact bodiesAgree_pure hr hzero hzero rfl
        (by simp [expectedValue, Pattern.name, boolToFloat, hpy]) (by simp [patternValue, hlast])
  | cancellation =>
    by_cases hlast : p.2 + 1 = shape.cols ∧ shape.cols % 2 ≠ 0
    · have hpy : (shape.cols : ℤ) % 2 ≠ 0 ∧ (p.2 : ℤ) = shape.cols - 1 := by omega
      exact bodiesAgree_pure hr hzero hzero rfl
        (by simp only [expectedValue, Pattern.name, if_pos hpy]; simp)
        (by simp only [patternValue, if_pos hlast])
    · have hpy : ¬((shape.cols : ℤ) % 2 ≠ 0 ∧ (p.2 : ℤ) = shape.cols - 1) := by omega
      by_cases heven : p.2 % 2 = 0
      · exact bodiesAgree_pure hr hone hone rfl
          (by simp only [expectedValue, Pattern.name, if_neg hpy, if_pos heven]; simp)
          (by simp only [patternValue, if_neg hlast, if_pos heven])
      · exact bodiesAgree_pure hr hone.neg hone.neg rfl
          (by simp only [expectedValue, Pattern.name, if_neg hpy, if_neg heven]; simp)
          (by simp only [patternValue, if_neg hlast, if_neg heven])
  | smallIntegers =>
    by_cases hlow : p.2 < min (p.1 % 17 + 1) shape.cols
    · have hpy : (p.2 : ℤ) < min ((p.1 : ℤ) % 17 + 1) shape.cols := by omega
      exact bodiesAgree_pure hr hone hone rfl
        (by simp only [expectedValue, Pattern.name, boolToFloat, if_pos hpy]; simp)
        (by simp only [patternValue, if_pos hlow])
    · have hpy : ¬(p.2 : ℤ) < min ((p.1 : ℤ) % 17 + 1) shape.cols := by omega
      exact bodiesAgree_pure hr hzero hzero rfl
        (by simp only [expectedValue, Pattern.name, boolToFloat, if_neg hpy]; simp)
        (by simp only [patternValue, if_neg hlow])
  | decimals =>
    -- the runner rounds the double literal where the host rounds the decimal one
    have hindex : (p.1 + p.2) % 3 = 0 ∨ (p.1 + p.2) % 3 = 1 ∨ (p.1 + p.2) % 3 = 2 := by omega
    rcases hindex with hi | hi | hi
    · exact bodiesAgree_pure hr (q := 1 / 10) (r := 3602879701896397 / 2 ^ 55)
        (by decide +kernel) (by decide +kernel) (by decide +kernel)
        (by simp only [expectedValue, Pattern.name, hi, pyDecimals]; simp)
        (by simp only [patternValue, hi]; rfl)
    · exact bodiesAgree_pure hr (q := -(2 / 10)) (r := -(3602879701896397 / 2 ^ 54))
        (by decide +kernel) (by decide +kernel) (by decide +kernel)
        (by simp only [expectedValue, Pattern.name, hi, pyDecimals]; simp)
        (by simp only [patternValue, hi]; rfl)
    · exact bodiesAgree_pure hr (q := 3 / 10) (r := 5404319552844595 / 2 ^ 54)
        (by decide +kernel) (by decide +kernel) (by decide +kernel)
        (by simp only [expectedValue, Pattern.name, hi, pyDecimals]; simp)
        (by simp only [patternValue, hi]; rfl)
  | random => exact bodiesAgree_random hr

end Element

/-- Agreement element by element, read off the whole lists. -/
theorem forall₂_elementAgrees {values : List Float32} {bytes : List (List Byte)}
    (h : List.Forall₂ ElementAgrees values bytes) :
    (∀ v ∈ values, v.value.isFinite = true ∧ InContract (floatToBf16 v)) ∧
      bytes.flatten = littleEndian (values.map floatToBf16) := by
  induction h with
  | nil => simp [littleEndian]
  | cons hv _ ih =>
    refine ⟨List.forall_mem_cons.mpr ⟨⟨hv.finite, hv.inContract⟩, ih.1⟩, ?_⟩
    rw [List.flatten_cons, ih.2, hv.bytes]
    rfl

/-- Every generated input is accepted, and the runner regenerates its quantized bytes. -/
theorem generated_agrees {shape : Shape} (hv : shape.Valid) (pattern : Pattern) (seed : Word32) :
    ∃ values, makeInput shape pattern.name seed = .ok values ∧ AcceptedValues shape values ∧
      expectedInputBytes shape.rows shape.cols pattern.name seed.toNat =
        .ok (littleEndian (values.map floatToBf16)) := by
  obtain ⟨bytes, h', hpy, hall, _⟩ := @mapM_simulation _ _ _ _ _ _
    (fun q : ℕ × ℕ => patternValue shape q.1 q.2 pattern)
    (expectedElement shape.rows shape.cols pattern.name) TwistersAgree ElementAgrees
    (positions shape.rows shape.cols) (fun p hp g h hr => bodiesAgree pattern hp hr) _ _
    (twistersAgree_ofSeed seed)
  obtain ⟨hmem, hbytes⟩ := forall₂_elementAgrees hall
  refine ⟨_, ?_, ⟨hv, ?_, fun v hv => (hmem v hv).1, fun v hv => (hmem v hv).2⟩, ?_⟩
  · rw [makeInput, validateShape_of_valid hv, ok_bind, findPattern_name]
    rfl
  · rw [length_mapM_state, length_positions]
  · rw [← hbytes, expectedInputBytes, Int.toNat_natCast, Int.toNat_natCast, StateT.run, hpy,
      ok_bind, pure_eq_ok]

/-- The runner's bytes are the decoded text of the host's quantized words. -/
theorem expectedInputBytes_eq_uploaded (rd : Rounding binary64) {shape : Shape}
    (hv : shape.Valid) (pattern : Pattern) (seed : Word32) :
    ∃ values prepared bytes, makeInput shape pattern.name seed = .ok values ∧
      prepareInput rd shape values 1 = .ok prepared ∧
      decode (quantizedBitsHex prepared.quantized).toList = some bytes ∧
      expectedInputBytes shape.rows shape.cols pattern.name seed.toNat = .ok bytes := by
  obtain ⟨values, hmake, haccept, hpy⟩ := generated_agrees hv pattern seed
  obtain ⟨prepared, hprepare, hrep⟩ := prepareInput_eq_ok rd haccept
  refine ⟨values, prepared, _, hmake, hprepare, decode_quantizedBitsHex _, ?_⟩
  rw [hrep.quantized, words_quantize, hpy]

/-- A random input that straddles a tile. -/
theorem expectedInputBytes_eq_uploaded_random : ∃ values prepared bytes,
    makeInput ⟨33, 33⟩ Pattern.random.name 20260909 = .ok values ∧
      prepareInput (Rounding.exact binary64) ⟨33, 33⟩ values 1 = .ok prepared ∧
      decode (quantizedBitsHex prepared.quantized).toList = some bytes ∧
      expectedInputBytes (33 : ℕ) (33 : ℕ) Pattern.random.name (20260909 : Word32).toNat =
        .ok bytes :=
  expectedInputBytes_eq_uploaded (Rounding.exact binary64) (by decide) .random 20260909

end RowReduce
