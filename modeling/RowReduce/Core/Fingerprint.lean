import Mathlib.Tactic

/-!
# Folded checksums

A checksum that folds its items into a state. Where no step loses the state it
starts from, and none loses its item, sequences that differ in a single item get
different checksums. The steps considered here exclusive-or an item into the
state and multiply by an invertible constant.
-/

namespace Fingerprint

section Fold

variable {State Item : Type*} {step : State → Item → State}

/-- The state before a step can be told from the state after it. -/
def KeepsState (step : State → Item → State) :
    Prop :=
  ∀ item, Function.Injective fun s => step s item

/-- The item of a step can be told from the states around it. -/
def KeepsItem (step : State → Item → State) : Prop := ∀ s, Function.Injective (step s)

/-- Over any items the state is kept. -/
theorem KeepsState.foldl (h : KeepsState step) (items : List Item) :
    Function.Injective fun s => items.foldl step s := by
  induction items with
  | nil => exact Function.injective_id
  | cons item items ih => exact ih.comp (h item)

/-- Checksums of sequences that differ in one item differ. -/
theorem foldl_single_eq_iff (hs : KeepsState step) (hi : KeepsItem step) (s : State)
    (before after : List Item) {a b : Item} :
    (before ++ a :: after).foldl step s = (before ++ b :: after).foldl step s ↔ a = b := by
  rw [List.foldl_append, List.foldl_append, List.foldl_cons, List.foldl_cons]
  exact (hs.foldl after).eq_iff.trans (hi _).eq_iff

end Fold

section XorMul

variable {w : ℕ} {p q : BitVec w}

/-- One item into the state. -/
def xorMul (p hash item : BitVec w) : BitVec w := (hash ^^^ item) * p

private theorem mul_injective (hpq : p * q = 1#w) :
    Function.Injective fun x : BitVec w => x * p := by
  intro x y h
  have h' := congrArg (· * q) h
  simpa only [BitVec.mul_assoc, hpq, BitVec.mul_one] using h'

/-- With an invertible multiplier the state is kept. -/
theorem xorMul_keepsState (hpq : p * q = 1#w) : KeepsState (xorMul p) := fun item _ _ h =>
  (BitVec.xor_left_inj item).mp (mul_injective hpq h)

/-- So is the item. -/
theorem xorMul_keepsItem (hpq : p * q = 1#w) : KeepsItem (xorMul p) := fun hash _ _ h =>
  (BitVec.xor_right_inj hash).mp (mul_injective hpq h)

/-- Numbers that agree above bit `k` differ by less than `2 ^ k`. -/
theorem lt_add_of_div_eq {a b k : ℕ} (h : a / 2 ^ k = b / 2 ^ k) : a < b + 2 ^ k := by
  have hk : 0 < 2 ^ k := by positivity
  have ha := Nat.div_add_mod a (2 ^ k)
  have hb := Nat.div_add_mod b (2 ^ k)
  have hlt := Nat.mod_lt a hk
  rw [h] at ha
  omega

/-- A multiplier neither too small nor too large moves every change of the low bits past them. -/
theorem eq_of_mul_agree {M a b k m : ℕ} (hab : a ≤ b) (hlow : 2 ^ k ≤ m)
    (hhigh : 2 ^ k * m + 2 ^ k ≤ M) (h : a / 2 ^ k = b / 2 ^ k)
    (hmul : a * m % M / 2 ^ k = b * m % M / 2 ^ k) : a = b := by
  obtain ⟨d, rfl⟩ := Nat.exists_eq_add_of_le hab
  have hd : d < 2 ^ k := by
    have := lt_add_of_div_eq h.symm
    omega
  have hle := lt_add_of_div_eq hmul
  have hge := lt_add_of_div_eq hmul.symm
  by_contra hne
  have hone : 1 ≤ d := by omega
  have hdm : m ≤ d * m := Nat.le_mul_of_pos_left m hone
  have hdm' : d * m + m ≤ 2 ^ k * m := by
    calc d * m + m = (d + 1) * m := by ring
      _ ≤ 2 ^ k * m := Nat.mul_le_mul_right m hd
  have hmod : (a + d) * m % M = (a * m % M + d * m) % M := by
    rw [Nat.add_mul, Nat.mod_add_mod]
  have hpos : 0 < M := by
    have : 0 < 2 ^ k := by positivity
    omega
  have hbound := Nat.mod_lt (a * m) hpos
  rw [hmod] at hle hge
  generalize a * m % M = x at hle hge hbound
  generalize d * m = y at hle hge hdm hdm'
  generalize 2 ^ k * m = z at hdm' hhigh
  rcases lt_or_ge (x + y) M with hwrap | hwrap
  · rw [Nat.mod_eq_of_lt hwrap] at hle hge
    omega
  · rw [Nat.mod_eq_sub_mod hwrap, Nat.mod_eq_of_lt (by omega)] at hle hge
    omega

/-- An item below a power of two leaves the bits above it alone. -/
theorem toNat_xor_div {hash item : BitVec w} {k : ℕ} (h : item.toNat < 2 ^ k) :
    (hash ^^^ item).toNat / 2 ^ k = hash.toNat / 2 ^ k := by
  rw [BitVec.toNat_xor, ← Nat.shiftRight_eq_div_pow, ← Nat.shiftRight_eq_div_pow,
    Nat.shiftRight_xor_distrib, Nat.shiftRight_eq_div_pow item.toNat, Nat.div_eq_of_lt h,
      Nat.xor_zero]

/-- Two items of `k` bits in a row are both kept. -/
theorem xorMul_xorMul_inj (hpq : p * q = 1#w) {k : ℕ} (hlow : 2 ^ k ≤ p.toNat)
    (hhigh : 2 ^ k * p.toNat + 2 ^ k ≤ 2 ^ w) {hash a b c d : BitVec w} (ha : a.toNat < 2 ^ k)
    (hb : b.toNat < 2 ^ k) (hc : c.toNat < 2 ^ k) (hd : d.toNat < 2 ^ k)
    (h : xorMul p (xorMul p hash a) b = xorMul p (xorMul p hash c) d) : a = c ∧ b = d := by
  have hxor : xorMul p hash a ^^^ b = xorMul p hash c ^^^ d := mul_injective hpq h
  have hstate : xorMul p hash a = xorMul p hash c := by
    have hagree : (hash ^^^ a).toNat / 2 ^ k = (hash ^^^ c).toNat / 2 ^ k := by
      rw [toNat_xor_div ha, toNat_xor_div hc]
    have hmul : (xorMul p hash a).toNat / 2 ^ k = (xorMul p hash c).toNat / 2 ^ k := by
      rw [← @toNat_xor_div _ _ b k hb, hxor, toNat_xor_div hd]
    simp only [xorMul, BitVec.toNat_mul] at hmul ⊢
    congr 1
    apply BitVec.eq_of_toNat_eq
    rcases le_total (hash ^^^ a).toNat (hash ^^^ c).toNat with hle | hle
    · exact eq_of_mul_agree hle hlow hhigh hagree hmul
    · exact (eq_of_mul_agree hle hlow hhigh hagree.symm hmul.symm).symm
  refine ⟨xorMul_keepsItem hpq hash hstate, ?_⟩
  rw [hstate] at hxor
  exact (BitVec.xor_right_inj _).mp hxor

end XorMul

end Fingerprint
