import RowReduce.Correctness.Launches
import RowReduce.Correctness.Regeneration

/-!
# The sums of the exact patterns

Every row sum of an exact pattern is a small integer known in advance, on every
shape, the pairs of the cancelling pattern included.
-/

namespace RowReduce

open BinaryFloat Fallible Grid

/-- The row sum of an exact pattern; the others have none. -/
def patternSum (rows cols r : ℕ) : Pattern → ℕ
  | .oneHot => if r + 1 = rows then 1 else 0
  | .ones => cols
  | .smallIntegers => min (r % 17 + 1) cols
  | .zero | .cancellation | .decimals | .random => 0

/-- The zero word. -/
theorem bf16Value_zero : bf16Value 0 = .finite 0 := (bf16Value_eq_zero_iff 0).mpr rfl

/-- The word of one. -/
theorem bf16Value_one : bf16Value 0x3f80#16 = .finite 1 := by decide +kernel

private theorem bf16Value_neg_one : bf16Value 0xbf80#16 = .finite (-1) := by decide +kernel

/-- Pairs of opposite ones cancel, a last unpaired one stays. -/
theorem sum_alternating (n : ℕ) :
    ((List.range n).map fun c => if c % 2 = 0 then (1 : ℚ) else -1).sum = (n % 2 : ℕ) := by
  induction n with
  | zero => rfl
  | succ n ih =>
    rw [List.range_succ, List.map_append, List.sum_append, ih, List.map_singleton,
      List.sum_singleton]
    rcases Nat.mod_two_eq_zero_or_one n with h | h
    · have : (n + 1) % 2 = 1 := by omega
      simp [h, this]
    · have : (n + 1) % 2 = 0 := by omega
      simp [h, this]

/-- Ones in front of zeros. -/
theorem sum_leading_ones (n k : ℕ) :
    ((List.range n).map fun c => if c < k then (1 : ℚ) else 0).sum = (min k n : ℕ) := by
  induction n with
  | zero => simp
  | succ n ih =>
    rw [List.range_succ, List.map_append, List.sum_append, ih, List.map_singleton,
      List.sum_singleton]
    by_cases h : n < k
    · have h1 : min k n = n := by omega
      have h2 : k ⊓ (n + 1) = n + 1 := by omega
      simp only [h, if_true, h1, h2]
      push_cast
      ring
    · have h1 : min k n = k := by omega
      have h2 : min k (n + 1) = k := by omega
      simp [h, h1, h2]

/-- A row that only fills its last place. -/
theorem sum_last (n : ℕ) (q : ℚ) :
    ((List.range (n + 1)).map fun c => if c = n then q else 0).sum = q := by
  rw [List.range_succ, List.map_append, List.sum_append, List.map_singleton, List.sum_singleton,
    if_pos rfl, List.map_congr_left (g := fun _ => 0) fun c hc => if_neg ?_]
  · simp
  · have := List.mem_range.mp hc
    omega

/-- The values of a pattern's words add up to its sum. -/
theorem sum_patternWord {p : Pattern} (hp : p.isExact = true) (rows r : ℕ) {cols : ℕ}
    (hc : 0 < cols) :
    ((List.range cols).map fun c => (bf16Value (patternWord rows cols r c p)).toRat).sum =
      (patternSum rows cols r p : ℕ) := by
  cases p with
  | zero =>
    simp only [patternWord, patternSum, bf16Value_zero, FloatValue.toRat_finite]
    simp
  | ones =>
    simp only [patternWord, patternSum, bf16Value_one, FloatValue.toRat_finite]
    simp
  | oneHot =>
    obtain ⟨n, rfl⟩ : ∃ n, cols = n + 1 := ⟨cols - 1, by omega⟩
    have hword : ∀ c, (bf16Value (patternWord rows (n + 1 : ℕ) r c .oneHot)).toRat =
        if c = n then (if r + 1 = rows then (1 : ℚ) else 0) else 0 := by
      intro c
      rw [patternWord]
      by_cases hlast : (r : ℤ) = rows - 1 ∧ (c : ℤ) = (n + 1 : ℕ) - 1
      · rw [if_pos hlast, if_pos (by omega), if_pos (by omega), bf16Value_one,
          FloatValue.toRat_finite]
      · rw [if_neg hlast, bf16Value_zero, FloatValue.toRat_finite]
        split_ifs <;> first | rfl | omega
    simp only [hword]
    rw [sum_last, patternSum]
    split_ifs <;> simp
  | cancellation =>
    have hword : ∀ c, (bf16Value (patternWord rows cols r c .cancellation)).toRat =
        if cols % 2 ≠ 0 ∧ c + 1 = cols then 0 else if c % 2 = 0 then 1 else -1 := by
      intro c
      rw [patternWord]
      by_cases hlast : (cols : ℤ) % 2 ≠ 0 ∧ (c : ℤ) = cols - 1
      · rw [if_pos hlast, if_pos (by omega), bf16Value_zero, FloatValue.toRat_finite]
      · have hpaired : ¬(cols % 2 ≠ 0 ∧ c + 1 = cols) := by omega
        rw [if_neg hlast, if_neg hpaired]
        by_cases heven : c % 2 = 0
        · rw [if_pos heven, if_pos heven, bf16Value_one, FloatValue.toRat_finite]
        · rw [if_neg heven, if_neg heven, bf16Value_neg_one, FloatValue.toRat_finite]
    simp only [hword]
    by_cases hodd : cols % 2 = 0
    · have hpairs := sum_alternating cols
      simpa [hodd, patternSum] using hpairs
    · obtain ⟨n, rfl⟩ : ∃ n, cols = n + 1 := ⟨cols - 1, by omega⟩
      have hpairs := sum_alternating n
      have heven : n % 2 = 0 := by omega
      rw [List.range_succ, List.map_append, List.sum_append, List.map_singleton,
        List.sum_singleton, if_pos ⟨hodd, rfl⟩, add_zero, patternSum, Nat.cast_zero,
        List.map_congr_left (g := fun c => if c % 2 = 0 then (1 : ℚ) else -1)
          fun c hc => if_neg fun h => ?_, hpairs, heven, Nat.cast_zero]
      have := List.mem_range.mp hc
      omega
  | smallIntegers =>
    have hword : ∀ c, c < cols → (bf16Value (patternWord rows cols r c .smallIntegers)).toRat =
        if c < r % 17 + 1 then 1 else 0 := by
      intro c hc
      rw [patternWord]
      by_cases hlow : (c : ℤ) < min ((r : ℤ) % 17 + 1) cols
      · rw [if_pos hlow, if_pos (by omega), bf16Value_one, FloatValue.toRat_finite]
      · rw [if_neg hlow, if_neg (by omega), bf16Value_zero, FloatValue.toRat_finite]
    rw [List.map_congr_left fun c hc => hword c (List.mem_range.mp hc), sum_leading_ones,
      patternSum]
  | decimals => exact absurd hp (by decide)
  | random => exact absurd hp (by decide)

/-- The sum of an exact pattern's row is at most its width. -/
theorem patternSum_le (p : Pattern) (rows cols r : ℕ) (hc : 0 < cols) :
    patternSum rows cols r p ≤ cols := by
  cases p <;> simp only [patternSum] <;> try omega
  split_ifs <;> omega

section Generated

variable {options : Options} {p : Pattern} {prepared : PreparedInput} {m : QuantizedMatrix}

/-- A generated deterministic input holds its pattern's words. -/
theorem Generated.word_eq (hgenerated : Generated options p prepared) (hp : p ≠ .random)
    (hshape : options.shape = m.shape) (hrep : m.Represents prepared) {r c : ℕ}
    (hr : r < m.shape.rows) (hc : c < m.shape.cols) :
    m.word r c = patternWord m.shape.rows m.shape.cols r c p := by
  have hregenerated := hgenerated.regenerated
  rw [hshape, regenerated_patternWord hp, hrep.quantized, Int.toNat_natCast, Int.toNat_natCast]
    at hregenerated
  have hwords := littleEndian_injective (Except.ok.inj hregenerated)
  have hword := getElem?_map_positions hr hc fun p => m.word p.1 p.2
  rw [← QuantizedMatrix.words, ← hwords, getElem?_map_positions hr hc] at hword
  exact (Option.some.inj hword).symm

/-- The row sums of a generated exact input are its pattern's. -/
theorem Generated.rowSum_eq (hgenerated : Generated options p prepared) (hp : p.isExact = true)
    (hshape : options.shape = m.shape) (hrep : m.Represents prepared) {r : ℕ}
    (hr : r < m.shape.rows) : m.rowSum r = patternSum m.shape.rows m.shape.cols r p := by
  have hne : p ≠ .random := by
    rintro rfl
    exact absurd hp (by decide)
  rw [← sum_patternWord hp m.shape.rows r m.valid.2.2.1]
  refine congrArg List.sum (List.map_congr_left fun c hc => ?_)
  rw [QuantizedMatrix.value, hgenerated.word_eq hne hshape hrep hr (List.mem_range.mp hc)]

end Generated

end RowReduce
