import RowReduce.Core.FloatOrder
import RowReduce.Host.Prepare

/-!
# The quantizer rounds to nearest even

One integer addition with carry against the values of all BF16 words: the
magnitude pattern is split into the truncated word and the sixteen bits below,
between the values of that word and its successor.
-/

namespace RowReduce

open BinaryFloat

/-- The magnitude pattern of a `float`. -/
def floatMagnitude (value : Float32) : ℕ := value.toNat % 0x80000000

/-- The sign bit of a `float` and of a word. -/
def floatNegative (value : Float32) : Bool := decide (0x80000000 ≤ value.toNat)

def wordNegative (word : Bf16Word) : Bool := decide (0x8000 ≤ word.toNat)

/-- The value of a float, by its magnitude pattern and sign. -/
theorem floatValue_eq (value : Float32) : value.value =
    if 0x7f800000 < floatMagnitude value then .nan
    else if floatMagnitude value = 0x7f800000 then .infinity (floatNegative value)
    else .finite (if floatNegative value then -binary32.magnitude (floatMagnitude value)
      else binary32.magnitude (floatMagnitude value)) := by
  have hsign : decide (value.toNat / 0x80000000 % 2 = 1) = floatNegative value := by
    have := value.isLt
    exact decide_eq_decide.mpr (by omega)
  rw [Float32.value, BinaryFormat.decode, binary32_signBit, binary32_infinityBits, hsign]
  rfl

/-- The value of a word, by its magnitude pattern and sign. -/
theorem wordValue_eq (word : Bf16Word) : bf16Value word =
    if 0x7f80 < wordMagnitude word then .nan
    else if wordMagnitude word = 0x7f80 then .infinity (wordNegative word)
    else .finite (if wordNegative word then -bfloat16.magnitude (wordMagnitude word)
      else bfloat16.magnitude (wordMagnitude word)) := by
  rw [bf16Value_eq]
  simp only [wordNegative, decide_eq_true_eq]

private theorem floatValue_eq_nan_iff (value : Float32) :
    value.value = .nan ↔ 0x7f800000 < floatMagnitude value := by
  rw [floatValue_eq]
  split_ifs with h1 h2 <;> simp [h1]

private theorem floatMagnitude_le {value : Float32} (h : value.value ≠ .nan) :
    floatMagnitude value ≤ 0x7f800000 :=
  not_lt.mp fun hlt => h ((floatValue_eq_nan_iff value).mpr hlt)

/-- The magnitude pattern the quantizer leaves. -/
def roundedPattern (m : ℕ) : ℕ := (m + 0x7fff + m / 2 ^ 16 % 2) / 2 ^ 16

/-- The addition rounds the truncated word up above the middle, and on the middle when it is odd. -/
theorem roundedPattern_split (b : ℕ) {j : ℕ} (hj : j < 2 ^ 16) :
    roundedPattern (b * 2 ^ 16 + j) =
      b + if j < 2 ^ 15 then 0 else if 2 ^ 15 < j then 1 else b % 2 := by
  have hdiv : (b * 2 ^ 16 + j) / 2 ^ 16 = b := by omega
  have hparity : b % 2 < 2 := Nat.mod_lt _ (by norm_num)
  have hcarry : (b * 2 ^ 16 + j + 0x7fff + b % 2) / 2 ^ 16 =
      b + (j + 0x7fff + b % 2) / 2 ^ 16 := by
    rw [add_assoc, add_assoc, ← add_assoc j, mul_comm, Nat.mul_add_div (by norm_num)]
  rw [roundedPattern, hdiv, hcarry]
  generalize b % 2 = parity at hparity ⊢
  split_ifs <;> omega

/-- Rounding cuts the low half off or adds one. -/
theorem roundedPattern_cases (m : ℕ) :
    roundedPattern m = m / 2 ^ 16 ∨ roundedPattern m = m / 2 ^ 16 + 1 := by
  have h := roundedPattern_split (m / 2 ^ 16) (Nat.mod_lt m (by norm_num : 0 < 2 ^ 16))
  rw [Nat.div_add_mod'] at h
  rw [h]
  split_ifs
  · exact Or.inl rfl
  · exact Or.inr rfl
  · exact (Nat.mod_two_eq_zero_or_one _).imp (fun h => by rw [h, Nat.add_zero]) fun h => by rw [h]

/-- Rounding of patterns is monotone. -/
theorem roundedPattern_mono {m n : ℕ} (h : m ≤ n) : roundedPattern m ≤ roundedPattern n := by
  rcases (show m / 2 ^ 16 < n / 2 ^ 16 ∨ m / 2 ^ 16 = n / 2 ^ 16 by omega) with hlt | heq
  · have hm := roundedPattern_cases m
    have hn := roundedPattern_cases n
    omega
  · unfold roundedPattern
    rw [heq]
    omega

/-- Off the NaN path the quantizer rounds the magnitude and keeps the sign. -/
theorem toNat_floatToBf16_eq {value : Float32} (h : value.value ≠ .nan) :
    (floatToBf16 value).toNat =
      (if floatNegative value then 0x8000 else 0) + roundedPattern (floatMagnitude value) := by
  have hle := floatMagnitude_le h
  have hlt := value.isLt
  -- the sign bit is an even multiple of the truncated words
  obtain ⟨s, hs, hm⟩ : ∃ s, s < 2 ∧ value.toNat = s * 2 ^ 31 + floatMagnitude value :=
    ⟨value.toNat / 2 ^ 31, by omega, by unfold floatMagnitude; omega⟩
  have hquotient : value.toNat / 2 ^ 16 % 2 = floatMagnitude value / 2 ^ 16 % 2 := by omega
  rw [toNat_floatToBf16 hle, hquotient, roundedPattern, floatNegative, hm]
  have hparity : floatMagnitude value / 2 ^ 16 % 2 < 2 := Nat.mod_lt _ (by norm_num)
  simp only [decide_eq_true_eq]
  split_ifs <;> omega

/-- Up to infinity nothing wraps. -/
theorem roundedPattern_le {m : ℕ} (h : m ≤ 0x7f800000) : roundedPattern m ≤ 0x7f80 := by
  unfold roundedPattern
  omega

/-- The quantizer rounds the magnitude pattern. -/
theorem wordMagnitude_floatToBf16 {value : Float32} (h : value.value ≠ .nan) :
    wordMagnitude (floatToBf16 value) = roundedPattern (floatMagnitude value) := by
  have hle := roundedPattern_le (floatMagnitude_le h)
  rw [wordMagnitude, toNat_floatToBf16_eq h]
  split_ifs <;> omega

/-- It keeps the sign. -/
theorem wordNegative_floatToBf16 {value : Float32} (h : value.value ≠ .nan) :
    wordNegative (floatToBf16 value) = floatNegative value := by
  have hle := roundedPattern_le (floatMagnitude_le h)
  rw [wordNegative, toNat_floatToBf16_eq h]
  cases floatNegative value with
  | true => simp
  | false =>
    simp
    omega

/-- A NaN keeps its sign and gets a fraction bit that survives the truncation. -/
theorem floatToBf16_nan {value : Float32} (h : value.value = .nan) :
    bf16Value (floatToBf16 value) = .nan ∧
      wordNegative (floatToBf16 value) = floatNegative value := by
  have hlt := value.isLt
  have hpattern := (floatValue_eq_nan_iff value).mp h
  rw [floatMagnitude] at hpattern
  have hnan := (nanTest_iff value).mpr hpattern
  have hword : (floatToBf16 value).toNat = value.toNat / 2 ^ 16 ||| 0x40 := by
    rw [floatToBf16, if_pos hnan]
    simp only [BitVec.toNat_setWidth, BitVec.toNat_or, BitVec.toNat_ushiftRight,
      Nat.shiftRight_eq_div_pow]
    rw [Nat.mod_eq_of_lt]
    · rfl
    · exact Nat.or_lt_two_pow (by omega) (by norm_num)
  have hhigh : (value.toNat / 2 ^ 16 ||| 0x40) / 2 ^ 7 = value.toNat / 2 ^ 23 := by
    rw [← Nat.shiftRight_eq_div_pow, Nat.shiftRight_or_distrib, Nat.shiftRight_eq_div_pow,
      Nat.div_div_eq_div_mul]
    exact Nat.or_zero _
  have hlow : 0x40 ≤ (value.toNat / 2 ^ 16 ||| 0x40) % 2 ^ 7 := by
    rw [Nat.or_mod_two_pow]
    exact Nat.right_le_or
  constructor
  · rw [wordValue_eq, if_pos]
    rw [wordMagnitude, hword]
    omega
  · rw [wordNegative, floatNegative, hword]
    exact decide_eq_decide.mpr (by omega)

/-- The word holds the nearest of all finite word values, an even pattern on a tie. -/
def NearestEven (q : ℚ) (word : Bf16Word) : Prop :=
  ∃ r, bf16Value word = .finite r ∧ ∀ other s, bf16Value other = .finite s →
    |r - q| ≤ |s - q| ∧ (s ≠ r → |r - q| = |s - q| → word.toNat % 2 = 0)

/-- The midpoint between the largest finite word value and the next power of two. -/
def overflowMidpoint : ℚ := (bfloat16.magnitude 0x7f7f + 2 ^ 128) / 2

/-- No value of a pattern, of either sign, lies strictly between those of consecutive patterns. -/
theorem magnitude_not_between {n : ℕ} {s : ℚ} (h : |s| = bfloat16.magnitude n) (b : ℕ) :
    s ≤ bfloat16.magnitude b ∨ bfloat16.magnitude (b + 1) ≤ s := by
  have hmono := bfloat16.magnitude_strictMono.monotone
  rcases le_or_gt s 0 with hs | hs
  · exact Or.inl (hs.trans (bfloat16.magnitude_nonneg b))
  · rw [abs_of_pos hs] at h
    rw [h]
    exact (Nat.lt_or_ge b n).symm.imp (fun h => hmono h) fun h => hmono h

private theorem abs_wordValue {word : Bf16Word} {s : ℚ} (h : bf16Value word = .finite s) :
    |s| = bfloat16.magnitude (wordMagnitude word) := by
  have hfinite := (isFinite_bf16Value_iff word).mp (by rw [h]; rfl)
  have habs := abs_bf16Value_toRat hfinite
  rwa [h, FloatValue.toRat_finite] at habs

/-- The lower of two neighbours is a nearest value below their middle, alone before it. -/
theorem nearest_lower {lo hi x s : ℚ} (hlo : lo ≤ x) (hx : x - lo ≤ hi - x)
    (hs : s ≤ lo ∨ hi ≤ s) : |lo - x| ≤ |s - x| ∧
      (s ≠ lo → |lo - x| = |s - x| → x - lo = hi - x) := by
  rw [abs_of_nonpos (by linarith : lo - x ≤ 0)]
  rcases hs with hs | hs
  · rw [abs_of_nonpos (by linarith : s - x ≤ 0)]
    exact ⟨by linarith, fun hne heq => absurd (by linarith) hne⟩
  · rw [abs_of_nonneg (by linarith : 0 ≤ s - x)]
    exact ⟨by linarith, fun _ heq => by linarith⟩

/-- The upper one is a nearest value above their middle, alone beyond it. -/
theorem nearest_upper {lo hi x s : ℚ} (hhi : x ≤ hi) (hx : hi - x ≤ x - lo)
    (hs : s ≤ lo ∨ hi ≤ s) : |hi - x| ≤ |s - x| ∧
      (s ≠ hi → |hi - x| = |s - x| → x - lo = hi - x) := by
  rw [abs_of_nonneg (by linarith : 0 ≤ hi - x)]
  rcases hs with hs | hs
  · rw [abs_of_nonpos (by linarith : s - x ≤ 0)]
    exact ⟨by linarith, fun _ heq => by linarith⟩
  · rw [abs_of_nonneg (by linarith : 0 ≤ s - x)]
    exact ⟨by linarith, fun hne heq => absurd (by linarith) hne⟩

/-- Of two neighbours and everything outside them the rounded pattern is the nearest. -/
theorem magnitude_roundedPattern_nearest (m : ℕ) {s : ℚ}
    (hs : s ≤ bfloat16.magnitude (m / 2 ^ 16) ∨ bfloat16.magnitude (m / 2 ^ 16 + 1) ≤ s) :
    |bfloat16.magnitude (roundedPattern m) - binary32.magnitude m| ≤
        |s - binary32.magnitude m| ∧
      (s ≠ bfloat16.magnitude (roundedPattern m) →
        |bfloat16.magnitude (roundedPattern m) - binary32.magnitude m| =
          |s - binary32.magnitude m| → roundedPattern m % 2 = 0) := by
  obtain ⟨b, j, hj, rfl⟩ : ∃ b j, j < 2 ^ 16 ∧ m = b * 2 ^ 16 + j :=
    ⟨m / 2 ^ 16, m % 2 ^ 16, Nat.mod_lt _ (by norm_num), (Nat.div_add_mod' _ _).symm⟩
  have hb : (b * 2 ^ 16 + j) / 2 ^ 16 = b := by omega
  have hgap := bfloat16.magnitude_lt_succ b
  rw [hb] at hs
  rw [roundedPattern_split b hj, binary32_eq_widen, bfloat16.magnitude_widen_add 16 b hj.le]
  set lo := bfloat16.magnitude b with hlo
  set hi := bfloat16.magnitude (b + 1) with hhi
  -- the value divides the gap at `j / 2^16`
  set t : ℚ := (j : ℚ) / 2 ^ 16 with ht
  have ht0 : 0 ≤ t := by positivity
  have hlow : lo + t * (hi - lo) - lo = t * (hi - lo) := by ring
  have hhigh : hi - (lo + t * (hi - lo)) = (1 - t) * (hi - lo) := by ring
  have hpos : 0 < hi - lo := sub_pos.mpr hgap
  rcases lt_trichotomy j (2 ^ 15) with h | h | h
  · have hhalf : t < 1 / 2 := by
      rw [ht, div_lt_div_iff₀ (by norm_num) (by norm_num)]
      exact_mod_cast (by omega : j * 2 < 1 * 2 ^ 16)
    have hlt := mul_lt_mul_of_pos_right (by linarith : t < 1 - t) hpos
    have hnearest := nearest_lower (x := lo + t * (hi - lo)) (by linarith [mul_nonneg ht0 hpos.le])
      (by rw [hlow, hhigh]; exact hlt.le) hs
    rw [if_pos h, Nat.add_zero, ← hlo]
    refine ⟨hnearest.1, fun hne heq => ?_⟩
    have := hnearest.2 hne heq
    rw [hlow, hhigh] at this
    exact absurd this hlt.ne
  · have hhalf : t = 1 / 2 := by
      rw [ht, h]
      norm_num
    have heq : t * (hi - lo) = (1 - t) * (hi - lo) := by
      rw [hhalf]
      norm_num
    rw [if_neg (by omega), if_neg (by omega)]
    rcases Nat.mod_two_eq_zero_or_one b with hb0 | hb1
    · rw [hb0, Nat.add_zero, ← hlo]
      exact ⟨(nearest_lower (by linarith [mul_nonneg ht0 hpos.le])
        (by rw [hlow, hhigh]; exact heq.le) hs).1, fun _ _ => hb0⟩
    · rw [hb1, ← hhi]
      refine ⟨(nearest_upper ?_ (by rw [hlow, hhigh]; exact heq.ge) hs).1, fun _ _ => by omega⟩
      rw [← sub_nonneg, hhigh, ← heq]
      exact mul_nonneg ht0 hpos.le
  · have hhalf : 1 / 2 < t := by
      rw [ht, div_lt_div_iff₀ (by norm_num) (by norm_num)]
      exact_mod_cast (by omega : 1 * 2 ^ 16 < j * 2)
    have hone : t ≤ 1 := by
      rw [ht, div_le_one (by norm_num)]
      exact_mod_cast hj.le
    have hlt := mul_lt_mul_of_pos_right (by linarith : 1 - t < t) hpos
    have hnearest := nearest_upper (x := lo + t * (hi - lo))
      (by rw [← sub_nonneg, hhigh]; exact mul_nonneg (by linarith) hpos.le)
      (by rw [hlow, hhigh]; exact hlt.le) hs
    rw [if_neg (by omega), if_pos h, ← hhi]
    refine ⟨hnearest.1, fun hne heq => ?_⟩
    have := hnearest.2 hne heq
    rw [hlow, hhigh] at this
    exact absurd this hlt.ne'

/-- The same with a sign in front of the value. -/
theorem signed_roundedPattern_nearest (negative : Bool) (m : ℕ) {n : ℕ} {s : ℚ}
    (hs : |s| = bfloat16.magnitude n) :
    let sign : ℚ → ℚ := fun x => if negative then -x else x
    |sign (bfloat16.magnitude (roundedPattern m)) - sign (binary32.magnitude m)| ≤
        |s - sign (binary32.magnitude m)| ∧
      (s ≠ sign (bfloat16.magnitude (roundedPattern m)) →
        |sign (bfloat16.magnitude (roundedPattern m)) - sign (binary32.magnitude m)| =
          |s - sign (binary32.magnitude m)| → roundedPattern m % 2 = 0) := by
  intro sign
  cases negative with
  | false =>
    simp only [sign, Bool.false_eq_true, if_false]
    exact magnitude_roundedPattern_nearest m (magnitude_not_between hs _)
  | true =>
    -- mirrored at zero
    have hmirror := magnitude_roundedPattern_nearest m (s := -s)
      (magnitude_not_between (by rw [abs_neg, hs]) _)
    have hflip : ∀ x y : ℚ, |-x - y| = |x - -y| := by
      intro x y
      rw [← abs_neg]
      congr 1
      ring
    simp only [sign, if_true]
    rw [← hflip s, hflip, neg_neg]
    exact ⟨hmirror.1, fun hne => hmirror.2 fun he => hne (by rw [← he, neg_neg])⟩

private theorem bfloat16_magnitude_7f80 : bfloat16.magnitude 0x7f80 = 2 ^ 128 := by
  norm_num [BinaryFormat.magnitude, BinaryFormat.fractionBits, BinaryFormat.minExponent, bfloat16]

private theorem magnitude_7f7f8000 : binary32.magnitude 0x7f7f8000 = overflowMidpoint := by
  have h := bfloat16.magnitude_widen_add 16 0x7f7f (j := 2 ^ 15) (by norm_num)
  rw [binary32_eq_widen, show 0x7f7f8000 = 0x7f7f * 2 ^ 16 + 2 ^ 15 by norm_num, h,
    overflowMidpoint, ← bfloat16_magnitude_7f80]
  norm_num
  ring

/-- The addition carries into the infinity pattern from the midpoint on. -/
theorem roundedPattern_lt_iff (m : ℕ) :
    roundedPattern m < 0x7f80 ↔ binary32.magnitude m < overflowMidpoint := by
  rw [← magnitude_7f7f8000, binary32.magnitude_strictMono.lt_iff_lt]
  constructor
  · intro h
    by_contra hle
    have hmono := roundedPattern_mono (not_lt.mp hle)
    rw [show roundedPattern 0x7f7f8000 = 0x7f80 from rfl] at hmono
    omega
  · intro h
    have hmono := roundedPattern_mono (Nat.le_sub_one_of_lt h)
    rw [show roundedPattern (0x7f7f8000 - 1) = 0x7f7f from rfl] at hmono
    omega

/-- A finite value is rounded to the nearest word of its sign, or overflows. -/
theorem floatToBf16_finite {value : Float32} {q : ℚ} (h : value.value = .finite q) :
    wordNegative (floatToBf16 value) = floatNegative value ∧
      (|q| < overflowMidpoint → NearestEven q (floatToBf16 value)) ∧
      (overflowMidpoint ≤ |q| →
        bf16Value (floatToBf16 value) = .infinity (floatNegative value)) := by
  have hnan : value.value ≠ .nan := by simp [h]
  have hmagnitude := wordMagnitude_floatToBf16 hnan
  have hnegative := wordNegative_floatToBf16 hnan
  have hle := roundedPattern_le (floatMagnitude_le hnan)
  set m := floatMagnitude value with hm
  obtain ⟨_, hq⟩ : floatMagnitude value < 0x7f800000 ∧
      q = if floatNegative value then -binary32.magnitude m else binary32.magnitude m := by
    rw [floatValue_eq] at h
    split_ifs at h ⊢ with h1 h2 hs
    all_goals exact ⟨by omega, (FloatValue.finite.inj h).symm⟩
  have habs : |q| = binary32.magnitude m := by
    rw [hq]
    split_ifs <;> simp [abs_of_nonneg (binary32.magnitude_nonneg m)]
  refine ⟨hnegative, fun hlt => ?_, fun hge => ?_⟩
  · rw [habs, ← roundedPattern_lt_iff] at hlt
    have hvalue := wordValue_eq (floatToBf16 value)
    rw [hmagnitude, hnegative, if_neg (by omega), if_neg (by omega)] at hvalue
    have hparity : (floatToBf16 value).toNat % 2 = roundedPattern m % 2 := by
      rw [toNat_floatToBf16_eq hnan, ← hm]
      split_ifs <;> omega
    refine ⟨_, hvalue, fun other s hs => ?_⟩
    rw [hq, hparity]
    exact signed_roundedPattern_nearest _ m (abs_wordValue hs)
  · rw [habs, ← not_lt, ← roundedPattern_lt_iff] at hge
    rw [wordValue_eq, hmagnitude, hnegative, if_neg (by omega), if_pos (by omega)]

/-- An infinity stays the same infinity. -/
theorem floatToBf16_infinity {value : Float32} {negative : Bool}
    (h : value.value = .infinity negative) :
    bf16Value (floatToBf16 value) = .infinity negative := by
  have hnan : value.value ≠ .nan := by simp [h]
  have hmagnitude := wordMagnitude_floatToBf16 hnan
  rw [floatValue_eq] at h
  split_ifs at h with h1 h2
  obtain rfl := FloatValue.infinity.inj h
  rw [h2, show roundedPattern 0x7f800000 = 0x7f80 from rfl] at hmagnitude
  rw [wordValue_eq, hmagnitude, wordNegative_floatToBf16 hnan]
  rfl

private theorem orderKey_float (value : Float32) : binary32.orderKey value.toNat =
    if floatNegative value then -(floatMagnitude value : ℤ) else floatMagnitude value := by
  have hsign : value.toNat / 0x80000000 % 2 = 1 ↔ 0x80000000 ≤ value.toNat := by
    have := value.isLt
    omega
  simp only [BinaryFormat.orderKey, binary32_signBit, hsign, floatNegative, decide_eq_true_eq,
    floatMagnitude]

private theorem orderKey_word (word : Bf16Word) : bfloat16.orderKey word.toNat =
    if wordNegative word then -(wordMagnitude word : ℤ) else wordMagnitude word := by
  have hsign : word.toNat / 0x8000 % 2 = 1 ↔ 0x8000 ≤ word.toNat := by
    have := word.isLt
    omega
  simp only [BinaryFormat.orderKey, bfloat16_signBit, hsign, wordNegative, decide_eq_true_eq,
    wordMagnitude]

/-- Only NaN is quantized to NaN. -/
theorem floatToBf16_ne_nan {value : Float32} (h : value.value ≠ .nan) :
    bf16Value (floatToBf16 value) ≠ .nan := by
  have hle := roundedPattern_le (floatMagnitude_le h)
  rw [wordValue_eq, wordMagnitude_floatToBf16 h, if_neg (by omega)]
  split_ifs <;> simp

/-- The quantizer keeps the order of values. -/
theorem floatToBf16_mono {x y : Float32} (hx : x.value ≠ .nan) (hy : y.value ≠ .nan)
    (h : FloatValue.le x.value y.value = true) :
    FloatValue.le (bf16Value (floatToBf16 x)) (bf16Value (floatToBf16 y)) = true := by
  have hx' := floatToBf16_ne_nan hx
  have hy' := floatToBf16_ne_nan hy
  rw [Float32.value] at hx hy
  rw [Float32.value, Float32.value, binary32.le_decode_iff (by decide) hx hy, orderKey_float,
    orderKey_float] at h
  rw [bf16Value_eq_decode] at hx' hy'
  rw [bf16Value_eq_decode, bf16Value_eq_decode, bfloat16.le_decode_iff (by decide) hx' hy',
    orderKey_word, orderKey_word, wordNegative_floatToBf16 hx, wordNegative_floatToBf16 hy,
    wordMagnitude_floatToBf16 hx, wordMagnitude_floatToBf16 hy]
  have hxy := @roundedPattern_mono (floatMagnitude x) (floatMagnitude y)
  have hyx := @roundedPattern_mono (floatMagnitude y) (floatMagnitude x)
  cases hsx : floatNegative x <;> cases hsy : floatNegative y <;>
    simp only [hsx, hsy, if_true, if_false, Bool.false_eq_true] at h ⊢
  · have := hxy (by omega)
    omega
  · have hm : floatMagnitude x = 0 := by omega
    have hn : floatMagnitude y = 0 := by omega
    rw [hm, hn]
    decide
  · omega
  · have := hyx (by omega)
    omega

/-- A word that is no NaN is quantized to itself. -/
theorem floatToBf16_bf16ToFloat {word : Bf16Word} (h : bf16Value word ≠ .nan) :
    floatToBf16 (bf16ToFloat word) = word := by
  have hlt := word.isLt
  have hpattern : wordMagnitude word ≤ 0x7f80 := by
    rw [wordValue_eq] at h
    by_contra hgt
    exact h (if_pos (not_le.mp hgt))
  rw [wordMagnitude] at hpattern
  apply BitVec.eq_of_toNat_eq
  rw [toNat_floatToBf16 (by rw [toNat_bf16ToFloat]; omega), toNat_bf16ToFloat,
    Nat.mul_div_cancel _ (by norm_num)]
  have hcarry : (word.toNat * 2 ^ 16 + 0x7fff + word.toNat % 2) / 2 ^ 16 = word.toNat := by
    have := Nat.mod_lt word.toNat (by norm_num : 0 < 2)
    rw [add_assoc, mul_comm, Nat.mul_add_div (by norm_num), Nat.div_eq_of_lt (by omega), add_zero]
  rw [hcarry, Nat.mod_eq_of_lt hlt]

/-- Quantization is rounding to nearest even: NaNs and infinities keep their kind and sign, finite
values go to the nearest word or overflow from the midpoint on, the addition stays in 32 bits, the
order of values is kept and words are fixed. -/
theorem floatToBf16_nearestEven :
    (∀ value : Float32, value.value = .nan → bf16Value (floatToBf16 value) = .nan ∧
      wordNegative (floatToBf16 value) = floatNegative value) ∧
    (∀ (value : Float32) (negative : Bool), value.value = .infinity negative →
      bf16Value (floatToBf16 value) = .infinity negative) ∧
    (∀ (value : Float32) (q : ℚ), value.value = .finite q →
      wordNegative (floatToBf16 value) = floatNegative value ∧
      (|q| < overflowMidpoint → NearestEven q (floatToBf16 value)) ∧
      (overflowMidpoint ≤ |q| →
        bf16Value (floatToBf16 value) = .infinity (floatNegative value))) ∧
    (∀ value : Float32, value.value ≠ .nan →
      value.toNat + (0x7fff#32).toNat + ((value >>> 16) &&& 1#32).toNat < 2 ^ 32) ∧
    (∀ x y : Float32, x.value ≠ .nan → y.value ≠ .nan → FloatValue.le x.value y.value = true →
      FloatValue.le (bf16Value (floatToBf16 x)) (bf16Value (floatToBf16 y)) = true) ∧
    ∀ word : Bf16Word, bf16Value word ≠ .nan → floatToBf16 (bf16ToFloat word) = word := by
  refine ⟨fun _ => floatToBf16_nan, fun _ _ => floatToBf16_infinity, fun _ _ => floatToBf16_finite,
    fun value h => ?_, fun _ _ => floatToBf16_mono, fun _ => floatToBf16_bf16ToFloat⟩
  have hpattern := floatMagnitude_le h
  have hlt := value.isLt
  have hone : ((value >>> 16) &&& 1#32).toNat ≤ 1 := by
    rw [BitVec.toNat_and]
    exact Nat.and_le_right
  rw [floatMagnitude] at hpattern
  rw [show (0x7fff#32).toNat = 0x7fff from rfl]
  omega

end RowReduce
