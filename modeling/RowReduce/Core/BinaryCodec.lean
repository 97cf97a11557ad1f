import RowReduce.Core.BinaryFormat

/-!
# Order and inversion of the binary codec

Rounding is monotone and magnitude patterns are ordered like their values, so
encoding is monotone and decoding inverts it up to rounding. Widening a pattern
by zero fraction bits keeps its value.
-/

namespace BinaryFloat

namespace BinaryFormat

variable (f : BinaryFormat)

/-- Larger magnitudes have no smaller unit in the last place. -/
theorem ulpExponent_mono {q r : ℚ} (hq : 0 ≤ q) (h : q ≤ r) :
    f.ulpExponent q ≤ f.ulpExponent r := by
  rcases hq.eq_or_lt with rfl | hpos
  · rw [ulpExponent_zero]
    exact f.minExponent_le_ulpExponent r
  · rw [f.ulpExponent_of_ne hpos.ne', f.ulpExponent_of_ne (hpos.trans_le h).ne',
      abs_of_pos hpos, abs_of_pos (hpos.trans_le h)]
    have := Int.log_mono_right (b := 2) hpos h
    omega

/-- Rounding keeps nonnegative numbers nonnegative. -/
theorem round_nonneg {q : ℚ} (hq : 0 ≤ q) : 0 ≤ f.round q := by
  rw [← f.magnitude_roundBits hq]
  exact f.magnitude_nonneg _

private theorem round_mono_of_nonneg {q r : ℚ} (hq : 0 ≤ q) (h : q ≤ r) :
    f.round q ≤ f.round r := by
  rcases (f.ulpExponent_mono hq h).eq_or_lt with heq | hlt
  · unfold round
    rw [heq]
    have hpos := two_zpow_pos (f.ulpExponent r)
    have : roundEven (q / 2 ^ f.ulpExponent r) ≤ roundEven (r / 2 ^ f.ulpExponent r) :=
      roundEven_mono (by gcongr)
    gcongr
  · -- a higher binade starts where the significands of a lower one end
    have hr : 0 ≤ r := hq.trans h
    have hrne : r ≠ 0 := by
      rintro rfl
      rw [ulpExponent_zero] at hlt
      exact absurd hlt (not_lt.mpr (f.minExponent_le_ulpExponent q))
    have hupper : (roundEven (q / 2 ^ f.ulpExponent q) : ℚ) ≤ 2 ^ f.precision := by
      have hle := f.abs_div_ulp_le q
      rw [abs_of_nonneg (div_nonneg hq (two_zpow_pos _).le)] at hle
      have : roundEven (q / 2 ^ f.ulpExponent q) ≤ (2 ^ f.precision : ℕ) :=
        roundEven_le (by exact_mod_cast hle)
      exact_mod_cast this
    have hlower : (2 : ℚ) ^ f.fractionBits ≤ roundEven (r / 2 ^ f.ulpExponent r) := by
      have hle := f.le_abs_div_ulp hrne ((f.minExponent_le_ulpExponent q).trans_lt hlt)
      rw [abs_of_nonneg (div_nonneg hr (two_zpow_pos _).le)] at hle
      have : ((2 ^ f.fractionBits : ℕ) : ℤ) ≤ roundEven (r / 2 ^ f.ulpExponent r) :=
        le_roundEven (by exact_mod_cast hle)
      exact_mod_cast this
    calc f.round q ≤ 2 ^ f.precision * 2 ^ f.ulpExponent q :=
          mul_le_mul_of_nonneg_right hupper (two_zpow_pos _).le
      _ = 2 ^ f.fractionBits * 2 ^ (f.ulpExponent q + 1) := by
          rw [f.two_pow_precision_rat, zpow_add_one₀ (by norm_num)]
          ring
      _ ≤ 2 ^ f.fractionBits * 2 ^ f.ulpExponent r := by
          gcongr
          · norm_num
          · omega
      _ ≤ f.round r := mul_le_mul_of_nonneg_right hlower (two_zpow_pos _).le

/-- Rounding is monotone on all rationals. -/
theorem round_mono {q r : ℚ} (h : q ≤ r) : f.round q ≤ f.round r := by
  rcases le_total 0 q with hq | hq
  · exact f.round_mono_of_nonneg hq h
  · rcases le_total 0 r with hr | hr
    · have hneg := f.round_nonneg (neg_nonneg.mpr hq)
      rw [f.round_neg] at hneg
      exact (neg_nonneg.mp hneg).trans (f.round_nonneg hr)
    · have := f.round_mono_of_nonneg (neg_nonneg.mpr hr) (neg_le_neg h)
      rw [f.round_neg, f.round_neg] at this
      exact neg_le_neg_iff.mp this

/-- The pattern of a rounded magnitude grows with the magnitude. -/
theorem roundBits_mono {q r : ℚ} (hq : 0 ≤ q) (h : q ≤ r) : f.roundBits q ≤ f.roundBits r := by
  rw [← f.magnitude_strictMono.le_iff_le, f.magnitude_roundBits hq,
    f.magnitude_roundBits (hq.trans h)]
  exact f.round_mono h

/-- The negation of a representable number is representable. -/
theorem Representable.neg {f : BinaryFormat} {q : ℚ} (h : f.Representable q) :
    f.Representable (-q) := by
  obtain ⟨n, e, hn, he, rfl⟩ := h
  exact ⟨-n, e, by rwa [abs_neg], he, by push_cast; ring⟩

/-- The magnitude of a representable number is representable. -/
theorem Representable.abs {f : BinaryFormat} {q : ℚ} (h : f.Representable q) :
    f.Representable |q| := by
  rcases abs_choice q with hq | hq
  · rwa [hq]
  · rw [hq]
    exact h.neg

/-- A wider format holds what a narrower one holds. -/
theorem Representable.mono {f g : BinaryFormat} {q : ℚ} (h : f.Representable q)
    (hp : f.precision ≤ g.precision) (he : g.minExponent ≤ f.minExponent) : g.Representable q := by
  obtain ⟨n, e, hn, hmin, rfl⟩ := h
  exact ⟨n, e, hn.trans_le (pow_le_pow_right₀ (by norm_num) hp), he.trans hmin, rfl⟩

/-- Every magnitude pattern denotes a representable rational. -/
theorem magnitude_representable (bits : ℕ) : f.Representable (f.magnitude bits) := by
  have hpos : 0 < 2 ^ f.fractionBits := by positivity
  have hmod := Nat.mod_lt bits hpos
  have hp := f.two_pow_precision
  unfold magnitude
  split_ifs with h
  · refine ⟨(bits % 2 ^ f.fractionBits : ℕ), f.minExponent, ?_, le_rfl, by norm_cast⟩
    rw [Nat.abs_cast]
    exact_mod_cast (by omega : bits % 2 ^ f.fractionBits < 2 ^ f.precision)
  · refine ⟨(2 ^ f.fractionBits + bits % 2 ^ f.fractionBits : ℕ),
      f.minExponent + ((bits / 2 ^ f.fractionBits : ℕ) - 1), ?_, ?_, by norm_cast⟩
    · rw [Nat.abs_cast]
      exact_mod_cast (by omega :
        2 ^ f.fractionBits + bits % 2 ^ f.fractionBits < 2 ^ f.precision)
    · have : 1 ≤ bits / 2 ^ f.fractionBits := Nat.one_le_iff_ne_zero.mpr h
      omega

/-- A rounded number is representable. -/
theorem round_representable (q : ℚ) : f.Representable (f.round q) := by
  have hnonneg : ∀ {r : ℚ}, 0 ≤ r → f.Representable (f.round r) := by
    intro r hr
    rw [← f.magnitude_roundBits hr]
    exact f.magnitude_representable _
  rcases le_total 0 q with hq | hq
  · exact hnonneg hq
  · have hneg := hnonneg (neg_nonneg.mpr hq)
    rw [f.round_neg] at hneg
    simpa using hneg.neg

/-- Encoding a decoded magnitude gives its pattern back. -/
@[simp] theorem roundBits_magnitude (bits : ℕ) : f.roundBits (f.magnitude bits) = bits := by
  apply f.magnitude_strictMono.injective
  rw [f.magnitude_roundBits (f.magnitude_nonneg bits),
    f.round_of_representable (f.magnitude_representable bits)]

/-- The pattern of infinity leaves the sign bit free. -/
theorem infinityBits_lt_signBit : f.infinityBits < f.signBit := by
  unfold infinityBits signBit
  rw [pow_add]
  gcongr
  exact Nat.sub_lt (by positivity) (by norm_num)

/-- A finite magnitude pattern decodes to its value. -/
theorem decode_of_lt {bits : ℕ} (h : bits < f.infinityBits) :
    f.decode bits = .finite (f.magnitude bits) := by
  have hs := h.trans f.infinityBits_lt_signBit
  simp [decode, Nat.div_eq_of_lt hs, Nat.mod_eq_of_lt hs, h.le.not_gt, h.ne]

/-- A finite magnitude pattern with the sign bit set decodes to the negated value. -/
theorem decode_signBit_add {bits : ℕ} (h : bits < f.infinityBits) :
    f.decode (f.signBit + bits) = .finite (-f.magnitude bits) := by
  have hs := h.trans f.infinityBits_lt_signBit
  have hpos : 0 < f.signBit := by unfold signBit; positivity
  simp [decode, Nat.add_div_left _ hpos, Nat.div_eq_of_lt hs, Nat.mod_eq_of_lt hs,
    h.le.not_gt, h.ne]

/-- Decoding inverts encoding up to rounding, where no overflow occurs. -/
theorem decode_encode {q : ℚ} (h : f.roundBits |q| < f.infinityBits) :
    f.decode (f.encode q) = .finite (f.round q) := by
  unfold encode
  split_ifs with hq
  · rw [abs_of_neg hq] at h
    rw [min_eq_right h.le, f.decode_signBit_add h,
      f.magnitude_roundBits (neg_nonneg.mpr hq.le), f.round_neg, neg_neg]
  · have hq0 := not_lt.mp hq
    rw [abs_of_nonneg hq0] at h
    rw [min_eq_right h.le, f.decode_of_lt h, f.magnitude_roundBits hq0]

/-- Zero has the pattern zero. -/
@[simp] theorem roundBits_zero : f.roundBits 0 = 0 := by
  simpa only [magnitude_zero] using f.roundBits_magnitude 0

@[simp] theorem encode_zero : f.encode 0 = 0 := by simp [encode]

/-- An encoded number has a sign bit and a magnitude below it. -/
theorem encode_lt (q : ℚ) : f.encode q < 2 * f.signBit := by
  have := f.infinityBits_lt_signBit
  have := min_le_left f.infinityBits (f.roundBits (-q))
  have := min_le_left f.infinityBits (f.roundBits q)
  unfold encode
  split_ifs <;> omega

/-- The format with `k` more fraction bits and the same exponent field. -/
def widen (k : ℕ) : BinaryFormat := ⟨f.precision + k, f.exponentBits, by
  have := f.precision_pos
  omega⟩

@[simp] theorem fractionBits_widen (k : ℕ) : (f.widen k).fractionBits = f.fractionBits + k := by
  have := f.precision_pos
  simp only [fractionBits, widen]
  omega

/-- A wider format has a smaller unit. -/
theorem minExponent_widen (k : ℕ) : (f.widen k).minExponent = f.minExponent - k := by
  simp only [minExponent, widen]
  push_cast
  ring

/-- Its infinity is shifted by the added bits. -/
theorem infinityBits_widen (k : ℕ) : (f.widen k).infinityBits = f.infinityBits * 2 ^ k := by
  simp only [infinityBits, fractionBits_widen, pow_add]
  simp only [widen, mul_assoc]

/-- So is its sign bit. -/
theorem signBit_widen (k : ℕ) : (f.widen k).signBit = f.signBit * 2 ^ k := by
  rw [signBit, fractionBits_widen, show (f.widen k).exponentBits = f.exponentBits from rfl,
    signBit, ← add_assoc, pow_add]

/-- Appending zero fraction bits keeps a magnitude. -/
theorem magnitude_widen (k bits : ℕ) : (f.widen k).magnitude (bits * 2 ^ k) = f.magnitude bits := by
  have hk : 0 < 2 ^ k := by positivity
  have hdiv : bits * 2 ^ k / 2 ^ (f.fractionBits + k) = bits / 2 ^ f.fractionBits := by
    rw [pow_add, Nat.mul_div_mul_right _ _ hk]
  have hmod : bits * 2 ^ k % 2 ^ (f.fractionBits + k) = bits % 2 ^ f.fractionBits * 2 ^ k := by
    rw [pow_add, Nat.mul_mod_mul_right]
  unfold magnitude
  rw [fractionBits_widen, hdiv, hmod, minExponent_widen]
  split_ifs
  · rw [sub_eq_add_neg, zpow_add₀ (by norm_num), zpow_neg, zpow_natCast]
    push_cast
    field_simp
  · rw [show f.minExponent - (k : ℤ) + ((bits / 2 ^ f.fractionBits : ℕ) - 1) =
        (f.minExponent + ((bits / 2 ^ f.fractionBits : ℕ) - 1)) - k by ring,
      zpow_sub₀ (by norm_num), zpow_natCast]
    push_cast
    rw [pow_add]
    field_simp

/-- Between two patterns the wider format divides the gap evenly. -/
theorem magnitude_widen_add (k bits : ℕ) {j : ℕ} (hj : j ≤ 2 ^ k) :
    (f.widen k).magnitude (bits * 2 ^ k + j) =
      f.magnitude bits + (j : ℚ) / 2 ^ k * (f.magnitude (bits + 1) - f.magnitude bits) := by
  obtain ⟨e, n, hbits, hn, he⟩ := f.exists_scaled bits
  have hk : (0 : ℚ) < 2 ^ k := by positivity
  have hwide : bits * 2 ^ k + j = e * 2 ^ (f.widen k).fractionBits + (n * 2 ^ k + j) := by
    rw [hbits, fractionBits_widen, pow_add]
    ring
  have hprecision : 2 ^ (f.widen k).precision = 2 ^ f.precision * 2 ^ k := pow_add _ _ _
  have hle : n * 2 ^ k + j ≤ 2 ^ (f.widen k).precision := by
    rw [hprecision]
    calc n * 2 ^ k + j ≤ (n + 1) * 2 ^ k := by rw [Nat.succ_mul]; omega
      _ ≤ 2 ^ f.precision * 2 ^ k := Nat.mul_le_mul_right _ hn
  have hlow : e = 0 ∨ 2 ^ (f.widen k).fractionBits ≤ n * 2 ^ k + j := by
    refine he.imp id fun h => ?_
    rw [fractionBits_widen, pow_add]
    exact (Nat.mul_le_mul_right _ h).trans (Nat.le_add_right _ _)
  rw [hwide, (f.widen k).magnitude_scaled hle hlow, minExponent_widen, hbits, add_assoc,
    f.magnitude_scaled hn.le he, f.magnitude_scaled (by omega) (he.imp id fun h => by omega),
    show f.minExponent - k + (e : ℤ) = f.minExponent + e - k by ring, zpow_sub₀ (by norm_num),
    zpow_natCast]
  push_cast
  field_simp
  ring

/-- Appending zero fraction bits keeps the decoded value, infinities and NaNs included. -/
theorem decode_widen (k bits : ℕ) : (f.widen k).decode (bits * 2 ^ k) = f.decode bits := by
  have hk : 0 < 2 ^ k := by positivity
  unfold decode
  rw [signBit_widen, infinityBits_widen, Nat.mul_div_mul_right _ _ hk, Nat.mul_mod_mul_right]
  simp only [magnitude_widen, Nat.mul_lt_mul_right hk, Nat.mul_left_inj hk.ne']

end BinaryFormat

end BinaryFloat
