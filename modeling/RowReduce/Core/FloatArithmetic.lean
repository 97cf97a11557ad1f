import RowReduce.Core.BinaryCodec

/-!
# Arithmetic on decoded floating-point values

Each operation computes the exact rational result and rounds it once. The
rounding is a parameter: any monotone function that keeps representable values.
Exact rational arithmetic and rounding to nearest even are two instances.
-/

namespace BinaryFloat

/-- The brain floating-point format. -/
def bfloat16 : BinaryFormat := ⟨8, 8, by decide⟩

/-- IEEE single precision; it extends `bfloat16` by sixteen fraction bits. -/
def binary32 : BinaryFormat := ⟨24, 8, by decide⟩

/-- IEEE double precision. -/
def binary64 : BinaryFormat := ⟨53, 11, by decide⟩

/-- `binary32` is `bfloat16` with sixteen more bits of fraction. -/
theorem binary32_eq_widen : binary32 = bfloat16.widen 16 := rfl

/-- A monotone rounding that keeps every representable value of its format. -/
structure Rounding (f : BinaryFormat) where
  round : ℚ → ℚ
  mono : ∀ {q r : ℚ}, q ≤ r → round q ≤ round r
  representable : ∀ {q : ℚ}, f.Representable q → round q = q

namespace Rounding

variable {f : BinaryFormat}

/-- Read every operation over exact rationals. -/
def exact (f : BinaryFormat) : Rounding f := ⟨id, id, fun _ => rfl⟩

/-- The default rounding of IEEE arithmetic. -/
def nearestEven (f : BinaryFormat) : Rounding f :=
  ⟨f.round, f.round_mono, f.round_of_representable⟩

@[simp] theorem exact_round (q : ℚ) : (exact f).round q = q := rfl

/-- Integers with few bits, scaled within the range, are kept. -/
theorem round_intCast_mul (rd : Rounding f) {n e : ℤ} (hn : |n| < 2 ^ f.precision)
    (he : f.minExponent ≤ e) : rd.round (n * 2 ^ e) = n * 2 ^ e :=
  rd.representable ⟨n, e, hn, he, rfl⟩

/-- Zero is kept. -/
@[simp] theorem round_zero (rd : Rounding f) : rd.round 0 = 0 :=
  rd.representable ⟨0, f.minExponent, by simp, le_rfl, by simp⟩

/-- Nonnegative numbers stay nonnegative. -/
theorem round_nonneg (rd : Rounding f) {q : ℚ} (h : 0 ≤ q) : 0 ≤ rd.round q := by
  simpa using rd.mono h

end Rounding

namespace FloatValue

variable {f : BinaryFormat} (rd : Rounding f)

/-- Neither an infinity nor NaN. -/
def isFinite : FloatValue → Bool
  | finite _ => true
  | _ => false

def neg : FloatValue → FloatValue
  | finite q => finite (-q)
  | infinity s => infinity (!s)
  | nan => nan

def abs : FloatValue → FloatValue
  | finite q => finite |q|
  | infinity _ => infinity false
  | nan => nan

def add : FloatValue → FloatValue → FloatValue
  | finite q, finite r => finite (rd.round (q + r))
  | infinity s, infinity t => if s = t then infinity s else nan
  | infinity s, finite _ => infinity s
  | finite _, infinity t => infinity t
  | _, _ => nan

def sub (x y : FloatValue) : FloatValue := add rd x y.neg

def mul : FloatValue → FloatValue → FloatValue
  | finite q, finite r => finite (rd.round (q * r))
  | infinity s, infinity t => infinity (xor s t)
  | infinity s, finite r => if r = 0 then nan else infinity (xor s (decide (r < 0)))
  | finite q, infinity t => if q = 0 then nan else infinity (xor (decide (q < 0)) t)
  | _, _ => nan

/-- Division; a zero divisor counts as positive. -/
def div : FloatValue → FloatValue → FloatValue
  | finite q, finite r =>
    if r = 0 then (if q = 0 then nan else infinity (decide (q < 0))) else finite (rd.round (q / r))
  | infinity s, finite r => infinity (xor s (decide (r < 0)))
  | finite _, infinity _ => finite 0
  | _, _ => nan

/-- The ordered comparison `<`, false when either side is NaN. -/
def lt : FloatValue → FloatValue → Bool
  | finite q, finite r => decide (q < r)
  | infinity s, infinity t => s && !t
  | infinity s, finite _ => s
  | finite _, infinity t => !t
  | _, _ => false

/-- Numeric equality, false when either side is NaN. -/
def eq : FloatValue → FloatValue → Bool
  | finite q, finite r => decide (q = r)
  | infinity s, infinity t => s == t
  | _, _ => false

/-- The ordered comparison `<=`, false when either side is NaN. -/
def le (x y : FloatValue) : Bool := lt x y || eq x y

/-- The larger value in the order `lt`, the first one when neither is smaller. -/
def max (x y : FloatValue) : FloatValue := if lt x y then y else x

section Finite

variable (q r : ℚ)

@[simp] theorem isFinite_finite : (finite q).isFinite = true := rfl
@[simp] theorem abs_finite : (finite q).abs = finite |q| := rfl
@[simp] theorem neg_finite : (finite q).neg = finite (-q) := rfl
@[simp] theorem add_finite : add rd (finite q) (finite r) = finite (rd.round (q + r)) := rfl
@[simp] theorem mul_finite : mul rd (finite q) (finite r) = finite (rd.round (q * r)) := rfl
@[simp] theorem lt_finite : lt (finite q) (finite r) = decide (q < r) := rfl
@[simp] theorem eq_finite : eq (finite q) (finite r) = decide (q = r) := rfl

/-- The difference of finite numbers. -/
@[simp] theorem sub_finite : sub rd (finite q) (finite r) = finite (rd.round (q - r)) := by
  simp [sub, sub_eq_add_neg]

/-- The quotient of finite numbers by a nonzero one. -/
theorem div_finite {r : ℚ} (hr : r ≠ 0) :
    div rd (finite q) (finite r) = finite (rd.round (q / r)) := by
  simp [div, hr]

/-- The comparison of finite numbers. -/
@[simp] theorem le_finite : le (finite q) (finite r) = decide (q ≤ r) := by
  simp [le, le_iff_lt_or_eq]

/-- The larger of finite numbers. -/
@[simp] theorem max_finite : max (finite q) (finite r) = finite (Max.max q r) := by
  unfold max
  rcases lt_or_ge q r with h | h
  · simp [h, max_eq_right h.le]
  · simp [h, not_lt.mpr h]

end Finite

/-- A finite value is a number. -/
theorem isFinite_iff {x : FloatValue} : x.isFinite = true ↔ ∃ q, x = finite q := by
  cases x <;> simp [isFinite]

/-- The rational of a finite value, zero for the others. -/
def toRat : FloatValue → ℚ
  | finite q => q
  | _ => 0

@[simp] theorem toRat_finite (q : ℚ) : (finite q).toRat = q := rfl

/-- A finite value is that of its number. -/
theorem eq_finite_toRat {x : FloatValue} (h : x.isFinite = true) : x = finite x.toRat := by
  obtain ⟨q, rfl⟩ := isFinite_iff.mp h
  rfl

end FloatValue

/-- A multiple of `2 ^ e` by an integer of magnitude at most `bound`. -/
def OnGrid (e : ℤ) (bound : ℕ) (q : ℚ) : Prop := ∃ n : ℤ, |n| ≤ bound ∧ q = n * 2 ^ e

namespace OnGrid

variable {e : ℤ} {a b : ℕ} {q r : ℚ}

/-- Zero is on every grid. -/
theorem zero : OnGrid e 0 0 := ⟨0, by simp, by simp⟩

/-- A sum is on the grid within the sum of the bounds. -/
theorem add (hq : OnGrid e a q) (hr : OnGrid e b r) : OnGrid e (a + b) (q + r) := by
  obtain ⟨n, hn, rfl⟩ := hq
  obtain ⟨m, hm, rfl⟩ := hr
  refine ⟨n + m, (abs_add_le n m).trans ?_, by push_cast; ring⟩
  push_cast
  omega

/-- A magnitude is on the grid. -/
theorem abs (hq : OnGrid e a q) : OnGrid e a |q| := by
  obtain ⟨n, hn, rfl⟩ := hq
  refine ⟨|n|, by rwa [abs_abs], ?_⟩
  rw [abs_mul, abs_of_pos (zpow_pos (by norm_num : (0 : ℚ) < 2) e)]
  push_cast
  rfl

/-- A larger bound. -/
theorem mono (hq : OnGrid e a q) (h : a ≤ b) : OnGrid e b q := by
  obtain ⟨n, hn, rfl⟩ := hq
  exact ⟨n, hn.trans (by exact_mod_cast h), rfl⟩

/-- The bound in units of the grid. -/
theorem abs_le (hq : OnGrid e a q) : |q| ≤ a * 2 ^ e := by
  obtain ⟨n, hn, rfl⟩ := hq
  have hn' : |(n : ℚ)| ≤ a := by exact_mod_cast hn
  rw [abs_mul, abs_of_pos (zpow_pos (by norm_num : (0 : ℚ) < 2) e)]
  gcongr

/-- Nonzero grid values are at least one step. -/
theorem le_abs (hq : OnGrid e a q) (h0 : q ≠ 0) : 2 ^ e ≤ |q| := by
  obtain ⟨n, _, rfl⟩ := hq
  have hn : 1 ≤ |n| := Int.one_le_abs (by rintro rfl; simp at h0)
  have hn' : (1 : ℚ) ≤ |(n : ℚ)| := by exact_mod_cast hn
  rw [abs_mul, abs_of_pos (zpow_pos (by norm_num : (0 : ℚ) < 2) e)]
  exact le_mul_of_one_le_left (zpow_pos (by norm_num) e).le hn'

/-- Scaling by a power of two moves the grid. -/
theorem mul_zpow (hq : OnGrid e a q) (k : ℤ) : OnGrid (e + k) a (2 ^ k * q) := by
  obtain ⟨n, hn, rfl⟩ := hq
  refine ⟨n, hn, ?_⟩
  rw [zpow_add₀ (by norm_num)]
  ring

/-- A negation is on the grid. -/
theorem neg (hq : OnGrid e a q) : OnGrid e a (-q) := by
  obtain ⟨n, hn, rfl⟩ := hq
  exact ⟨-n, by rwa [abs_neg], by push_cast; ring⟩

/-- Grid values lie on every finer grid. -/
theorem finer (hq : OnGrid e a q) {e' : ℤ} (he : e' ≤ e) : ∃ b, OnGrid e' b q := by
  obtain ⟨n, _, rfl⟩ := hq
  obtain ⟨k, rfl⟩ : ∃ k : ℕ, e = e' + k := ⟨(e - e').toNat, by omega⟩
  refine ⟨(n * 2 ^ k).natAbs, n * 2 ^ k, by rw [Int.abs_eq_natAbs], ?_⟩
  rw [zpow_add₀ (by norm_num), zpow_natCast]
  push_cast
  ring

/-- Rounded values are multiples of the smallest step. -/
theorem round (f : BinaryFormat) (q : ℚ) : ∃ b, OnGrid f.minExponent b (f.round q) :=
  finer ⟨_, (Int.abs_eq_natAbs _).le, rfl⟩ (f.minExponent_le_ulpExponent q)

/-- No rounding takes a nonzero grid value to zero. -/
theorem round_ne_zero {f : BinaryFormat} (rd : Rounding f) (hq : OnGrid e a q)
    (he : f.minExponent ≤ e) (h0 : q ≠ 0) : rd.round q ≠ 0 := by
  have hpos : (0 : ℚ) < 2 ^ e := zpow_pos (by norm_num) e
  have hstep : f.Representable (2 ^ e) :=
    ⟨1, e, by rw [abs_one]; exact one_lt_pow₀ (by norm_num) f.precision_pos.ne', he, by simp⟩
  have hle := hq.le_abs h0
  rcases le_total 0 q with hq0 | hq0
  · rw [abs_of_nonneg hq0] at hle
    have h := rd.mono hle
    rw [rd.representable hstep] at h
    exact (hpos.trans_le h).ne'
  · rw [abs_of_nonpos hq0, le_neg] at hle
    have h := rd.mono hle
    rw [rd.representable hstep.neg] at h
    exact (h.trans_lt (neg_neg_of_pos hpos)).ne

/-- A grid number with few bits is representable. -/
theorem representable {f : BinaryFormat} (hq : OnGrid e a q) (ha : a < 2 ^ f.precision)
    (he : f.minExponent ≤ e) : f.Representable q := by
  obtain ⟨n, hn, rfl⟩ := hq
  exact ⟨n, e, lt_of_le_of_lt hn (by exact_mod_cast ha), he, rfl⟩

/-- Sums of grid values stay on the grid, their bounds adding up. -/
theorem sum {l : List ℚ} (hl : ∀ q ∈ l, OnGrid e a q) : OnGrid e (l.length * a) l.sum := by
  induction l with
  | nil => simpa using zero
  | cons q l ih =>
    have h := (hl q List.mem_cons_self).add (ih fun r hr => hl r (List.mem_cons_of_mem _ hr))
    rw [List.sum_cons, List.length_cons, Nat.succ_mul, Nat.add_comm]
    exact h

/-- Accumulating grid values whose total bound fits the significand never rounds. -/
theorem foldl_add {f : BinaryFormat} (rd : Rounding f) (he : f.minExponent ≤ e) {l : List ℚ}
    (hl : ∀ q ∈ l, OnGrid e a q) {start : ℚ} (hs : OnGrid e b start)
    (hb : b + l.length * a < 2 ^ f.precision) :
    l.foldl (fun acc q => FloatValue.add rd acc (.finite q)) (.finite start) =
      .finite (start + l.sum) := by
  induction l generalizing start b with
  | nil => simp
  | cons q l ih =>
    have hq := hs.add (hl q List.mem_cons_self)
    rw [List.length_cons, Nat.succ_mul] at hb
    rw [List.foldl_cons, FloatValue.add_finite, rd.representable (hq.representable (by omega) he),
      ih (fun r hr => hl r (List.mem_cons_of_mem _ hr)) hq (by omega), List.sum_cons, add_assoc]

end OnGrid

end BinaryFloat
