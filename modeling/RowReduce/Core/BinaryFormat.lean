import RowReduce.Core.RoundEven

/-!
# Binary interchange formats over exact rationals

A format is its significand width and its exponent-field width. Bit patterns
decode to rationals, infinities or NaN; rationals encode by rounding to nearest,
ties to even. Read as integers, the nonnegative patterns are ordered like the
values they stand for, which is what makes encoding monotone.
-/

namespace BinaryFloat

/-- What a bit pattern denotes. The two zeros denote the same rational. -/
inductive FloatValue where
  | finite (q : ℚ)
  | infinity (negative : Bool)
  | nan
  deriving DecidableEq, Repr

/-- `precision` counts the hidden bit; `exponentBits` is the width of the exponent field. -/
structure BinaryFormat where
  precision : ℕ
  exponentBits : ℕ
  precision_pos : 0 < precision

namespace BinaryFormat

variable (f : BinaryFormat)

/-- Width of the stored fraction. -/
def fractionBits : ℕ := f.precision - 1

/-- The exponent of the least significant bit of the smallest binade. -/
def minExponent : ℤ := 3 - 2 ^ (f.exponentBits - 1) - f.precision

/-- The magnitude pattern of infinity, one past the largest finite pattern. -/
def infinityBits : ℕ := (2 ^ f.exponentBits - 1) * 2 ^ f.fractionBits

/-- The weight of the sign bit. -/
def signBit : ℕ := 2 ^ (f.exponentBits + f.fractionBits)

/-- The value of a finite magnitude pattern. -/
def magnitude (bits : ℕ) : ℚ :=
  if bits / 2 ^ f.fractionBits = 0 then (bits % 2 ^ f.fractionBits : ℕ) * 2 ^ f.minExponent
  else (2 ^ f.fractionBits + bits % 2 ^ f.fractionBits : ℕ) *
    2 ^ (f.minExponent + ((bits / 2 ^ f.fractionBits : ℕ) - 1 : ℤ))

/-- Decode a whole pattern, sign bit included. -/
def decode (bits : ℕ) : FloatValue :=
  let negative := decide (bits / f.signBit % 2 = 1)
  let pattern := bits % f.signBit
  if f.infinityBits < pattern then .nan
  else if pattern = f.infinityBits then .infinity negative
  else .finite (if negative then -f.magnitude pattern else f.magnitude pattern)

/-- The exponent of the unit in the last place at a rational. -/
def ulpExponent (q : ℚ) : ℤ :=
  if q = 0 then f.minExponent else max f.minExponent (Int.log 2 |q| - f.fractionBits)

/-- Round to nearest even with an unbounded exponent range above. -/
def round (q : ℚ) : ℚ := roundEven (q / 2 ^ f.ulpExponent q) * 2 ^ f.ulpExponent q

/-- The magnitude pattern of a rounded nonnegative rational, before the overflow test. -/
def roundBits (q : ℚ) : ℕ :=
  (f.ulpExponent q - f.minExponent).toNat * 2 ^ f.fractionBits +
    (roundEven (q / 2 ^ f.ulpExponent q)).toNat

/-- The pattern of a rational: sign and rounded magnitude, infinity on overflow. -/
def encode (q : ℚ) : ℕ :=
  if q < 0 then f.signBit + min f.infinityBits (f.roundBits (-q))
  else min f.infinityBits (f.roundBits q)

/-- The rationals a format holds exactly, its exponent range unbounded above. -/
def Representable (q : ℚ) : Prop :=
  ∃ n e : ℤ, |n| < 2 ^ f.precision ∧ f.minExponent ≤ e ∧ q = n * 2 ^ e

private theorem fractionBits_succ : f.fractionBits + 1 = f.precision :=
  Nat.sub_add_cancel f.precision_pos

/-- The hidden bit doubles the patterns of a binade. -/
theorem two_pow_precision : 2 ^ f.precision = 2 * 2 ^ f.fractionBits := by
  rw [← f.fractionBits_succ, pow_succ, mul_comm]

/-- The same over the rationals. -/
theorem two_pow_precision_rat : (2 : ℚ) ^ f.precision = 2 * 2 ^ f.fractionBits := by
  exact_mod_cast f.two_pow_precision

@[simp] theorem ulpExponent_zero : f.ulpExponent 0 = f.minExponent := by simp [ulpExponent]

/-- The unit of a nonzero number is that of its binade, or the least one. -/
theorem ulpExponent_of_ne {q : ℚ} (hq : q ≠ 0) :
    f.ulpExponent q = max f.minExponent (Int.log 2 |q| - f.fractionBits) := if_neg hq

/-- No unit is below the least one. -/
theorem minExponent_le_ulpExponent (q : ℚ) : f.minExponent ≤ f.ulpExponent q := by
  unfold ulpExponent
  split_ifs
  exacts [le_rfl, le_max_left _ _]

@[simp] theorem ulpExponent_neg (q : ℚ) : f.ulpExponent (-q) = f.ulpExponent q := by
  simp [ulpExponent]

/-- A power of two is positive. -/
theorem two_zpow_pos (e : ℤ) : (0 : ℚ) < 2 ^ e := zpow_pos (by norm_num) e

/-- Values of magnitude patterns are nonnegative. -/
theorem magnitude_nonneg (bits : ℕ) : 0 ≤ f.magnitude bits := by
  unfold magnitude
  split_ifs <;> exact mul_nonneg (Nat.cast_nonneg _) (two_zpow_pos _).le

@[simp] theorem magnitude_zero : f.magnitude 0 = 0 := by simp [magnitude]

/-- A scaled significand is the value of the pattern that adds it to its binade's offset. -/
theorem magnitude_scaled {e n : ℕ} (hn : n ≤ 2 ^ f.precision)
    (he : e = 0 ∨ 2 ^ f.fractionBits ≤ n) :
    f.magnitude (e * 2 ^ f.fractionBits + n) = n * 2 ^ (f.minExponent + e) := by
  have hp := f.two_pow_precision
  have hpos : 0 < 2 ^ f.fractionBits := by positivity
  have hdiv : (e * 2 ^ f.fractionBits + n) / 2 ^ f.fractionBits =
      e + n / 2 ^ f.fractionBits := by
    rw [add_comm, Nat.add_mul_div_right _ _ hpos, add_comm]
  have hmod : (e * 2 ^ f.fractionBits + n) % 2 ^ f.fractionBits = n % 2 ^ f.fractionBits := by
    rw [add_comm, Nat.add_mul_mod_self_right]
  unfold magnitude
  rw [hdiv, hmod]
  rcases lt_or_ge n (2 ^ f.fractionBits) with hlt | hge
  · have he0 : e = 0 := he.resolve_right (not_le.mpr hlt)
    simp [he0, Nat.div_eq_of_lt hlt, Nat.mod_eq_of_lt hlt]
  · rcases (show n < 2 * 2 ^ f.fractionBits ∨ n = 2 * 2 ^ f.fractionBits by omega) with hn2 | hn2
    · have hd : n / 2 ^ f.fractionBits = 1 := by
        rw [Nat.div_eq_iff hpos]
        constructor <;> omega
      have hm : 2 ^ f.fractionBits + n % 2 ^ f.fractionBits = n := by
        have := Nat.div_add_mod n (2 ^ f.fractionBits)
        rw [hd] at this
        omega
      rw [hd, hm, if_neg (by omega)]
      congr 2
      push_cast
      ring
    · -- a carry out of the significand lands on the next binade's first pattern
      have hd : n / 2 ^ f.fractionBits = 2 := by rw [hn2, Nat.mul_div_cancel _ hpos]
      have hm : n % 2 ^ f.fractionBits = 0 := by rw [hn2, Nat.mul_mod_left]
      rw [hd, hm, if_neg (by omega), hn2]
      have hz : (2 : ℚ) ^ (f.minExponent + ((e + 2 : ℕ) - 1 : ℤ)) =
          2 * 2 ^ (f.minExponent + (e : ℤ)) := by
        rw [← zpow_one_add₀ (by norm_num)]
        congr 1
        push_cast
        ring
      rw [hz]
      push_cast
      ring

/-- Every pattern is a scaled significand of its binade. -/
theorem exists_scaled (bits : ℕ) : ∃ e n, bits = e * 2 ^ f.fractionBits + n ∧
    n < 2 ^ f.precision ∧ (e = 0 ∨ 2 ^ f.fractionBits ≤ n) := by
  have hpos : 0 < 2 ^ f.fractionBits := by positivity
  have hp := f.two_pow_precision
  have hdm := Nat.div_add_mod bits (2 ^ f.fractionBits)
  have hlt := Nat.mod_lt bits hpos
  rcases Nat.eq_zero_or_pos (bits / 2 ^ f.fractionBits) with h0 | h1
  · refine ⟨0, bits, by omega, ?_, Or.inl rfl⟩
    rw [h0] at hdm
    omega
  · refine ⟨bits / 2 ^ f.fractionBits - 1,
      2 ^ f.fractionBits + bits % 2 ^ f.fractionBits, ?_, by omega, Or.inr (by omega)⟩
    obtain ⟨k, hk⟩ : ∃ k, bits / 2 ^ f.fractionBits = k + 1 :=
      ⟨bits / 2 ^ f.fractionBits - 1, by omega⟩
    rw [hk, mul_comm, Nat.add_mul, one_mul] at hdm
    rw [hk, Nat.add_sub_cancel]
    omega

/-- Consecutive magnitude patterns have increasing values. -/
theorem magnitude_lt_succ (bits : ℕ) : f.magnitude bits < f.magnitude (bits + 1) := by
  -- both patterns are scaled significands of the binade of the smaller one
  obtain ⟨e, n, hbits, hn, he⟩ := f.exists_scaled bits
  rw [hbits, add_assoc, f.magnitude_scaled hn.le he,
    f.magnitude_scaled (by omega) (he.imp id fun h => by omega)]
  apply mul_lt_mul_of_pos_right _ (two_zpow_pos _)
  exact_mod_cast Nat.lt_succ_self n

/-- Larger patterns have larger magnitudes. -/
theorem magnitude_strictMono : StrictMono f.magnitude :=
  strictMono_nat_of_lt_succ f.magnitude_lt_succ

/-- A rational below the next power of two scales to at most a full significand. -/
theorem abs_div_ulp_le (q : ℚ) : |q / 2 ^ f.ulpExponent q| ≤ 2 ^ f.precision := by
  rcases eq_or_ne q 0 with rfl | hq
  · simp
  rw [abs_div, abs_of_pos (two_zpow_pos _), div_le_iff₀ (two_zpow_pos _),
    ← zpow_natCast, ← zpow_add₀ (by norm_num)]
  have hlog := (Int.lt_zpow_succ_log_self (b := 2) (by norm_num) |q|).le
  refine hlog.trans (zpow_le_zpow_right₀ (by norm_num) ?_)
  have hb : (f.fractionBits : ℤ) + 1 = f.precision := by exact_mod_cast f.fractionBits_succ
  have := le_max_right f.minExponent (Int.log 2 |q| - f.fractionBits)
  rw [← f.ulpExponent_of_ne hq] at this
  omega

/-- Above the lowest binade the scaled significand has its hidden bit. -/
theorem le_abs_div_ulp {q : ℚ} (hq : q ≠ 0) (h : f.minExponent < f.ulpExponent q) :
    2 ^ f.fractionBits ≤ |q / 2 ^ f.ulpExponent q| := by
  have he : f.ulpExponent q = Int.log 2 |q| - f.fractionBits := by
    rw [f.ulpExponent_of_ne hq] at h ⊢
    exact max_eq_right (le_of_lt ((lt_max_iff.mp h).resolve_left (lt_irrefl _)))
  rw [abs_div, abs_of_pos (two_zpow_pos _), le_div_iff₀ (two_zpow_pos _), he,
    ← zpow_natCast, ← zpow_add₀ (by norm_num), add_sub_cancel]
  exact Int.zpow_log_le_self (by norm_num) (abs_pos.mpr hq)

/-- The pattern of a nonnegative rational decodes to its rounding. -/
theorem magnitude_roundBits {q : ℚ} (hq : 0 ≤ q) : f.magnitude (f.roundBits q) = f.round q := by
  have hle := f.abs_div_ulp_le q
  have hscaled : 0 ≤ q / 2 ^ f.ulpExponent q := div_nonneg hq (two_zpow_pos _).le
  rw [abs_of_nonneg hscaled] at hle
  have hn0 : 0 ≤ roundEven (q / 2 ^ f.ulpExponent q) := le_roundEven (by exact_mod_cast hscaled)
  have hn : roundEven (q / 2 ^ f.ulpExponent q) ≤ (2 ^ f.precision : ℕ) :=
    roundEven_le (by exact_mod_cast hle)
  have he0 := f.minExponent_le_ulpExponent q
  unfold roundBits round
  rw [f.magnitude_scaled (by omega)]
  · rw [Int.toNat_of_nonneg (by omega), add_sub_cancel]
    congr 1
    exact_mod_cast Int.toNat_of_nonneg hn0
  · rcases he0.eq_or_lt with heq | hlt
    · left
      omega
    · right
      have hne : q ≠ 0 := by
        rintro rfl
        simp at hlt
      have hlow := f.le_abs_div_ulp hne hlt
      rw [abs_of_nonneg hscaled] at hlow
      have : ((2 ^ f.fractionBits : ℕ) : ℤ) ≤ roundEven (q / 2 ^ f.ulpExponent q) :=
        le_roundEven (by exact_mod_cast hlow)
      omega

/-- Rounding commutes with negation. -/
theorem round_neg (q : ℚ) : f.round (-q) = -f.round q := by
  simp [round, neg_div, roundEven_neg]

@[simp] theorem round_zero : f.round 0 = 0 := by simp [round]

/-- Rounding moves a rational by at most half a unit in its last place. -/
theorem abs_round_sub_le (q : ℚ) : |f.round q - q| ≤ 2 ^ f.ulpExponent q / 2 := by
  have h := abs_roundEven_sub_le (q / 2 ^ f.ulpExponent q)
  have hpos := two_zpow_pos (f.ulpExponent q)
  calc |f.round q - q|
      = |(roundEven (q / 2 ^ f.ulpExponent q) : ℚ) - q / 2 ^ f.ulpExponent q| *
          2 ^ f.ulpExponent q := by
        conv_rhs => rw [← abs_of_pos hpos, ← abs_mul, abs_of_pos hpos]
        rw [sub_mul, div_mul_cancel₀ _ hpos.ne', round]
    _ ≤ 1 / 2 * 2 ^ f.ulpExponent q := by gcongr
    _ = 2 ^ f.ulpExponent q / 2 := by ring

/-- In the normal range the rounding error is relative. -/
theorem abs_round_sub_le_of_normal {q : ℚ} (hq : 2 ^ (f.minExponent + f.fractionBits) ≤ |q|) :
    |f.round q - q| ≤ |q| / 2 ^ f.precision := by
  have hpos : 0 < |q| := lt_of_lt_of_le (two_zpow_pos _) hq
  have hlog : f.minExponent + f.fractionBits ≤ Int.log 2 |q| :=
    (Int.zpow_le_iff_le_log (by norm_num) hpos).mp hq
  have he : f.ulpExponent q = Int.log 2 |q| - f.fractionBits := by
    rw [f.ulpExponent_of_ne (abs_pos.mp hpos)]
    exact max_eq_right (by omega)
  refine (f.abs_round_sub_le q).trans ?_
  rw [he, zpow_sub₀ (by norm_num), zpow_natCast, div_div, mul_comm, ← f.two_pow_precision_rat]
  gcongr
  exact Int.zpow_log_le_self (by norm_num) hpos

/-- A representable rational is its own rounding. -/
theorem round_of_representable {q : ℚ} (h : f.Representable q) : f.round q = q := by
  obtain ⟨n, e, hn, he, rfl⟩ := h
  rcases eq_or_ne n 0 with rfl | hn0
  · simp
  set q : ℚ := n * 2 ^ e with hq
  have hnpos : (0 : ℚ) < |(n : ℚ)| := abs_pos.mpr (by exact_mod_cast hn0)
  have habs : |q| = |(n : ℚ)| * 2 ^ e := by rw [hq, abs_mul, abs_of_pos (two_zpow_pos e)]
  have hpos : 0 < |q| := by rw [habs]; exact mul_pos hnpos (two_zpow_pos e)
  have hlog : Int.log 2 |q| < f.precision + e := by
    rw [← Int.lt_zpow_iff_log_lt (by norm_num) hpos, habs]
    push_cast
    rw [zpow_add₀ (by norm_num), zpow_natCast]
    gcongr
    exact_mod_cast hn
  have hle : f.ulpExponent q ≤ e := by
    have hb := f.fractionBits_succ
    rw [f.ulpExponent_of_ne (abs_pos.mp hpos)]
    exact max_le he (by omega)
  obtain ⟨k, hk⟩ := Int.eq_ofNat_of_zero_le (sub_nonneg.mpr hle)
  have hint : q / 2 ^ f.ulpExponent q = ((n * 2 ^ k : ℤ) : ℚ) := by
    rw [hq, mul_div_assoc, ← zpow_sub₀ (by norm_num), hk]
    push_cast
    simp
  rw [round, hint, roundEven_intCast, ← hint, div_mul_cancel₀ _ (two_zpow_pos _).ne']

end BinaryFormat

end BinaryFloat
