import RowReduce.Core.Hexadecimal

/-!
# Numbers on a formatted stream

The state of a text stream that prints unsigned numbers in base sixteen: its
fill character stays, its field width is used up by the next number.
-/

namespace HexStream

open Hexadecimal

structure Stream where
  text : List Char := []
  fill : Char := ' '
  width : ℕ := 0

namespace Stream

/-- `out << std::setfill(c)`. -/
def setfill (c : Char) (out : Stream) : Stream := { out with fill := c }

/-- `out << std::setw(n)`. -/
def setw (n : ℕ) (out : Stream) : Stream := { out with width := n }

/-- `out << n` after `std::hex`: filled on the left up to the width, which is reset. -/
def put (n : ℕ) (out : Stream) : Stream where
  text := out.text ++
    (List.replicate (out.width - (Nat.toDigits 16 n).length) out.fill ++ Nat.toDigits 16 n)
  fill := out.fill
  width := 0

@[simp] theorem put_fill (n : ℕ) (out : Stream) : (out.put n).fill = out.fill := rfl

@[simp] theorem setw_fill (n : ℕ) (out : Stream) : (out.setw n).fill = out.fill := rfl

/-- A number is filled up to the width that was set. -/
theorem put_setw_text (n w : ℕ) (out : Stream) : ((out.setw w).put n).text = out.text ++
    (List.replicate (w - (Nat.toDigits 16 n).length) out.fill ++ Nat.toDigits 16 n) := rfl

/-- A byte prints as at most two digits, completed to two by a zero. -/
theorem filled_toDigits {n : ℕ} (h : n < 256) :
    List.replicate (2 - (Nat.toDigits 16 n).length) '0' ++ Nat.toDigits 16 n =
      [digit (n / 16), digit (n % 16)] := by
  have hdigit : ∀ d < 16, Nat.toDigits 16 d = [digit d] := by decide
  by_cases hn : n < 16
  · rw [hdigit n hn, Nat.div_eq_of_lt hn, Nat.mod_eq_of_lt hn]
    rfl
  · have hsplit := @Nat.toDigits_append_toDigits 16 (n / 16) (n % 16) (by norm_num) (by omega)
      (Nat.mod_lt n (by norm_num))
    rw [Nat.div_add_mod, hdigit _ (by omega), hdigit _ (Nat.mod_lt n (by norm_num))] at hsplit
    rw [← hsplit]
    rfl

/-- The last `k` digits of a number. -/
def fixedDigits : ℕ → ℕ → List Char
  | 0, _ => []
  | k + 1, n => fixedDigits k (n / 16) ++ [digit (n % 16)]

/-- A fixed number of digits. -/
@[simp] theorem length_fixedDigits (k n : ℕ) : (fixedDigits k n).length = k := by
  induction k generalizing n with
  | zero => rfl
  | succ k ih => rw [fixedDigits, List.length_append, ih, List.length_singleton]

private theorem fixedDigits_zero (k : ℕ) : fixedDigits k 0 = List.replicate k '0' := by
  induction k with
  | zero => rfl
  | succ k ih =>
    rw [fixedDigits, Nat.zero_div, ih, List.replicate_succ']
    rfl

/-- A number in a zero-filled field wide enough for it is its last digits. -/
theorem filled_toDigits_eq {k n : ℕ} (hk : 0 < k) (h : n < 16 ^ k) :
    List.replicate (k - (Nat.toDigits 16 n).length) '0' ++ Nat.toDigits 16 n = fixedDigits k n := by
  have hdigit : ∀ d < 16, Nat.toDigits 16 d = [digit d] := by decide
  induction k generalizing n with
  | zero => exact absurd hk (lt_irrefl 0)
  | succ k ih =>
    rw [fixedDigits]
    rcases Nat.lt_or_ge n 16 with hn | hn
    · rw [hdigit n hn, Nat.div_eq_of_lt hn, Nat.mod_eq_of_lt hn, fixedDigits_zero]
      rfl
    · have hpos : 0 < k := by
        rcases Nat.eq_zero_or_pos k with rfl | hpos
        · omega
        · exact hpos
      have hdiv : n / 16 < 16 ^ k := by
        rw [Nat.div_lt_iff_lt_mul (by norm_num), ← pow_succ]
        exact h
      have hsplit := @Nat.toDigits_append_toDigits 16 (n / 16) (n % 16) (by norm_num) (by omega)
        (Nat.mod_lt n (by norm_num))
      rw [Nat.div_add_mod, hdigit _ (Nat.mod_lt n (by norm_num))] at hsplit
      rw [← ih hpos hdiv, ← hsplit, List.length_append, List.length_singleton,
        Nat.add_sub_add_right,
        List.append_assoc]

/-- The last digits of a number below their range determine it. -/
theorem fixedDigits_inj {k m n : ℕ} (hm : m < 16 ^ k) (hn : n < 16 ^ k)
    (h : fixedDigits k m = fixedDigits k n) : m = n := by
  induction k generalizing m n with
  | zero =>
    rw [pow_zero] at hm hn
    omega
  | succ k ih =>
    have hlast : digit (m % 16) = digit (n % 16) := by
      have := List.append_inj_right h (by simp)
      exact List.head_eq_of_cons_eq this
    have hfirst := List.append_inj_left h (by simp)
    have hdiv : ∀ {x : ℕ}, x < 16 ^ (k + 1) → x / 16 < 16 ^ k := fun {x} hx => by
      rw [Nat.div_lt_iff_lt_mul (by norm_num), ← pow_succ]
      exact hx
    have hmod : m % 16 = n % 16 := by
      have hvalue := congrArg digitValue hlast
      rw [digitValue_digit (Nat.mod_lt m (by norm_num)),
        digitValue_digit (Nat.mod_lt n (by norm_num))]
        at hvalue
      exact Option.some.inj hvalue
    have hquot := ih (hdiv hm) (hdiv hn) hfirst
    omega

/-- A byte in a zero-filled field of width two is its two digits. -/
theorem put_byte {out : Stream} (hfill : out.fill = '0') (b : Byte) :
    ((out.setw 2).put b.toNat).text = out.text ++ encodeByte b := by
  rw [put_setw_text, hfill, filled_toDigits b.isLt, encodeByte]

end Stream

end HexStream
