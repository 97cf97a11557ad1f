import RowReduce.Host.Prepare

/-!
# Comparing rows with their references

The declared error budget and the row-by-row comparison, in double precision
with the rounding left open. A finite row passes when its rounded distance to
the reference is within the tolerance.
-/

namespace RowReduce

open BinaryFloat Fallible FloatValue

def errorBudget (rd : Rounding binary64) (reference : RowReference) (width : ℕ) :
    Except HostException FloatValue := do
  throwIf (width = 0 ∨ 128 < width) (.invalidArgument "comparison width must be in [1,128]")
  let u32 : FloatValue := .finite (2 ^ (-24 : ℤ))
  let ub : FloatValue := .finite (2 ^ (-8 : ℤ))
  let kU32 := mul rd (.finite (width + 64 : ℕ)) u32
  let gamma := div rd kU32 (sub rd (.finite 1) kU32)
  return add rd (add rd (mul rd ub reference.sum.abs)
    (mul rd (mul rd (add rd (.finite 1) ub) gamma) reference.absSum)) (.finite (2 ^ (-20 : ℤ)))

structure RowComparison where
  actual : FloatValue
  reference : FloatValue
  absError : FloatValue
  tolerance : FloatValue
  scaledError : FloatValue
  finite : Bool
  pass : Bool
  deriving DecidableEq, Repr

structure Comparison where
  pass : Bool := true
  maxAbsError : FloatValue := .finite 0
  maxScaledError : FloatValue := .finite 0
  rows : List RowComparison := []
  deriving DecidableEq, Repr

/-- One pass of the comparison loop. -/
def compareRow (rd : Rounding binary64) (width : ℕ) (exact : Bool) (actual : Float32)
    (ref : RowReference) : Except HostException RowComparison := do
  let declaredBudget ← errorBudget rd ref width
  let tolerance := if exact then .finite 0 else declaredBudget
  let error := (sub rd actual.value ref.sum).abs
  let scaledError := div rd error (FloatValue.max ref.absSum (.finite (2 ^ (-20 : ℤ))))
  let finite := actual.value.isFinite && ref.sum.isFinite && ref.absSum.isFinite &&
    le (.finite 0) ref.absSum && declaredBudget.isFinite && error.isFinite && scaledError.isFinite
  let pass := finite && le error tolerance
  return ⟨actual.value, ref.sum, error, tolerance, scaledError, finite, pass⟩

/-- The updates of one compared row. -/
def Comparison.push (c : Comparison) (row : RowComparison) : Comparison where
  pass := c.pass && row.pass
  maxAbsError := if row.finite then FloatValue.max c.maxAbsError row.absError else .infinity false
  maxScaledError :=
    if row.finite then FloatValue.max c.maxScaledError row.scaledError else .infinity false
  rows := c.rows ++ [row]

def compareRows (rd : Rounding binary64) (actual : List Float32) (reference : List RowReference)
    (width : ℕ) (exact : Bool) : Except HostException Comparison := do
  throwIf (actual.length ≠ reference.length ∨ actual = [])
    (.invalidArgument "actual and reference must have matching nonempty row counts")
  throwIf (128 < actual.length) (.invalidArgument "comparison row count exceeds contract")
  (actual.zip reference).foldlM (fun c p => do
    let row ← compareRow rd width exact p.1 p.2
    return c.push row) {}

section Budget

variable (rd : Rounding binary64)

/-- The rounding-error coefficient of a row of the given width. -/
def gammaCoefficient (width : ℕ) : ℚ :=
  let k := rd.round ((width + 64 : ℕ) * 2 ^ (-24 : ℤ))
  rd.round (k / rd.round (1 - k))

/-- The budget as a rational. -/
def budgetValue (sum absSum : ℚ) (width : ℕ) : ℚ :=
  rd.round (rd.round (rd.round (2 ^ (-8 : ℤ) * |sum|) +
    rd.round (rd.round (rd.round (1 + 2 ^ (-8 : ℤ)) * gammaCoefficient rd width) * absSum)) +
      2 ^ (-20 : ℤ))

variable {rd}

/-- Below the contract's width the coefficient's operands are exact. -/
theorem kU32_eq {width : ℕ} (hw : width ≤ 128) :
    rd.round ((width + 64 : ℕ) * 2 ^ (-24 : ℤ)) = (width + 64 : ℕ) * 2 ^ (-24 : ℤ) := by
  have h : |((width + 64 : ℕ) : ℤ)| < 2 ^ binary64.precision := by
    have : width + 64 < 2 ^ 53 := by omega
    rw [Nat.abs_cast]
    exact_mod_cast this
  exact_mod_cast rd.round_intCast_mul h (by decide : binary64.minExponent ≤ -24)

private theorem one_sub_kU32_eq {width : ℕ} (hw : width ≤ 128) :
    rd.round (1 - (width + 64 : ℕ) * 2 ^ (-24 : ℤ)) = 1 - (width + 64 : ℕ) * 2 ^ (-24 : ℤ) := by
  have h : |(2 ^ 24 - (width + 64 : ℕ) : ℤ)| < 2 ^ binary64.precision := by
    rw [abs_of_nonneg (by omega)]
    change _ < (2 : ℤ) ^ 53
    omega
  have hround := rd.round_intCast_mul h (by decide : binary64.minExponent ≤ -24)
  have heq : ((2 ^ 24 - (width + 64 : ℕ) : ℤ) : ℚ) * 2 ^ (-24 : ℤ) =
      1 - (width + 64 : ℕ) * 2 ^ (-24 : ℤ) := by
    push_cast
    rw [sub_mul]
    norm_num
  rwa [heq] at hround

private theorem one_sub_kU32_pos {width : ℕ} (hw : width ≤ 128) :
    (0 : ℚ) < 1 - (width + 64 : ℕ) * 2 ^ (-24 : ℤ) := by
  have h : ((width + 64 : ℕ) : ℚ) ≤ 192 := by
    exact_mod_cast (by omega : width + 64 ≤ 192)
  norm_num at h ⊢
  linarith

/-- The coefficient of the budget is nonnegative for every width in range. -/
theorem gammaCoefficient_nonneg {width : ℕ} (hw : width ≤ 128) : 0 ≤ gammaCoefficient rd width := by
  unfold gammaCoefficient
  simp only [kU32_eq hw, one_sub_kU32_eq hw]
  exact rd.round_nonneg (div_nonneg (by positivity) (one_sub_kU32_pos hw).le)

/-- The budget of finite sums is finite. -/
theorem errorBudget_finite {s a : ℚ} {width : ℕ} (h0 : 0 < width) (hw : width ≤ 128) :
    errorBudget rd ⟨.finite s, .finite a⟩ width = .ok (.finite (budgetValue rd s a width)) := by
  have hne : rd.round (1 - rd.round ((width + 64 : ℕ) * 2 ^ (-24 : ℤ))) ≠ 0 := by
    rw [kU32_eq hw, one_sub_kU32_eq hw]
    exact (one_sub_kU32_pos hw).ne'
  rw [errorBudget, throwIf_of_not (by omega), ok_bind]
  simp only [mul_finite, sub_finite, abs_finite, add_finite, div_finite rd _ hne, pure_eq_ok]
  rfl

end Budget

/-- The tolerance of a row: zero where sums are exact, else the budget. -/
def toleranceValue (rd : Rounding binary64) (exact : Bool) (sum absSum : ℚ) (width : ℕ) : ℚ :=
  if exact then 0 else budgetValue rd sum absSum width

/-- A result row within the tolerance of its reference. -/
def RowPasses (rd : Rounding binary64) (exact : Bool) (sum absSum : ℚ) (width : ℕ)
    (actual : FloatValue) : Prop :=
  ∃ q : ℚ, actual = .finite q ∧
    |rd.round (q - sum)| ≤ toleranceValue rd exact sum absSum width

section Row

variable {rd : Rounding binary64} {s a : ℚ} {width : ℕ} {exact : Bool} {actual : Float32}

/-- What the comparison records of a row with a finite reference. -/
def comparedRow (rd : Rounding binary64) (exact : Bool) (s a : ℚ) (width : ℕ)
    (actual : FloatValue) :
    RowComparison where
  actual := actual
  reference := .finite s
  absError := (sub rd actual (.finite s)).abs
  tolerance := .finite (toleranceValue rd exact s a width)
  scaledError := div rd (sub rd actual (.finite s)).abs (.finite (Max.max a (2 ^ (-20 : ℤ))))
  finite := actual.isFinite
  pass := actual.isFinite &&
    le (sub rd actual (.finite s)).abs (.finite (toleranceValue rd exact s a width))

/-- A row with finite sums is compared without an exception. -/
theorem compareRow_finite (h0 : 0 < width) (hw : width ≤ 128) (ha : 0 ≤ a) :
    compareRow rd width exact actual ⟨.finite s, .finite a⟩ =
      .ok (comparedRow rd exact s a width actual.value) := by
  have hmax : Max.max a (2 ^ (-20 : ℤ)) ≠ 0 := by
    have : (0 : ℚ) < 2 ^ (-20 : ℤ) := by positivity
    exact (lt_max_of_lt_right this).ne'
  have htol : (if exact = true then (.finite 0 : FloatValue) else
      .finite (budgetValue rd s a width)) = .finite (toleranceValue rd exact s a width) := by
    unfold toleranceValue
    split_ifs <;> rfl
  rw [compareRow, errorBudget_finite h0 hw, ok_bind, comparedRow]
  simp only [max_finite, htol, isFinite_finite, le_finite, pure_eq_ok, Except.ok.injEq]
  cases actual.value with
  | finite q =>
    simp only [sub_finite, abs_finite, div_finite rd _ hmax, isFinite_finite, ha, decide_true,
      Bool.and_true, Bool.true_and]
  | infinity n => simp [FloatValue.isFinite]
  | nan => simp [FloatValue.isFinite]

/-- A compared row passes under its condition. -/
theorem comparedRow_pass_iff {actual : FloatValue} :
    (comparedRow rd exact s a width actual).pass = true ↔
      RowPasses rd exact s a width actual := by
  unfold RowPasses
  cases actual with
  | finite q => simp [comparedRow]
  | infinity n => simp [comparedRow, FloatValue.isFinite]
  | nan => simp [comparedRow, FloatValue.isFinite]

/-- A row that equals its reference has no error. -/
theorem comparedRow_self (rd : Rounding binary64) (s a : ℚ) (width : ℕ) :
    comparedRow rd true s a width (.finite s) =
      { actual := .finite s, reference := .finite s, absError := .finite 0, tolerance := .finite 0,
        scaledError := .finite 0, finite := true, pass := true } := by
  have hmax : Max.max a (2 ^ (-20 : ℤ)) ≠ 0 := by
    have : (0 : ℚ) < 2 ^ (-20 : ℤ) := by positivity
    exact (lt_max_of_lt_right this).ne'
  have herror : (sub rd (.finite s) (.finite s)).abs = .finite 0 := by simp
  rw [comparedRow, herror, div_finite rd _ hmax, zero_div, rd.round_zero, toleranceValue,
    if_pos rfl]
  simp

end Row

/-- The finite reference of a row. -/
def finiteReference (p : ℚ × ℚ) : RowReference := ⟨.finite p.1, .finite p.2⟩

/-- Pushed rows are kept in order, and all of them have to pass. -/
theorem foldl_push_rows (rows : List RowComparison) (c : Comparison) :
    (rows.foldl Comparison.push c).rows = c.rows ++ rows ∧
      (rows.foldl Comparison.push c).pass = (c.pass && rows.all fun row => row.pass) := by
  induction rows generalizing c with
  | nil => simp
  | cons row rows ih =>
    obtain ⟨hrows, hpass⟩ := ih (c.push row)
    rw [List.foldl_cons, hrows, hpass, List.all_cons]
    exact ⟨List.append_assoc _ _ _, Bool.and_assoc _ _ _⟩

/-- The errors of finite rows are combined by their maximum. -/
theorem foldl_push_max {ι : Type} {row : ι → RowComparison} {error scaled : ι → ℚ} {l : List ι}
    (h : ∀ i ∈ l, (row i).finite = true ∧ (row i).absError = .finite (error i) ∧
      (row i).scaledError = .finite (scaled i)) {c : Comparison} {a b : ℚ}
    (ha : c.maxAbsError = .finite a) (hb : c.maxScaledError = .finite b) :
    ((l.map row).foldl Comparison.push c).maxAbsError = .finite ((l.map error).foldl max a) ∧
      ((l.map row).foldl Comparison.push c).maxScaledError =
        .finite ((l.map scaled).foldl max b) := by
  induction l generalizing c a b with
  | nil => exact ⟨ha, hb⟩
  | cons i l ih =>
    obtain ⟨⟨hfinite, herror, hscaled⟩, hl⟩ := List.forall_mem_cons.mp h
    simp only [List.map_cons, List.foldl_cons]
    refine ih hl ?_ ?_
    · simp only [Comparison.push, hfinite, if_true, ha, herror, max_finite]
    · simp only [Comparison.push, hfinite, if_true, hb, hscaled, max_finite]

/-- The comparison of matching nonempty rows with finite references. -/
theorem compareRows_finite {rd : Rounding binary64} {exact : Bool} {width : ℕ}
    {actual : List Float32} {reference : List (ℚ × ℚ)} (hlen : actual.length = reference.length)
    (hne : actual ≠ []) (hmax : actual.length ≤ 128) (h0 : 0 < width) (hw : width ≤ 128)
    (ha : ∀ p ∈ reference, 0 ≤ p.2) :
    compareRows rd actual (reference.map finiteReference) width exact =
      .ok (((actual.zip reference).map fun p =>
        comparedRow rd exact p.2.1 p.2.2 width p.1.value).foldl Comparison.push {}) := by
  have hfold : ∀ (l : List (Float32 × ℚ × ℚ)) (c : Comparison), (∀ p ∈ l, 0 ≤ p.2.2) →
      l.foldlM (fun c p => do
        let row ← compareRow rd width exact p.1 (finiteReference p.2)
        return c.push row) c =
      (.ok ((l.map fun p => comparedRow rd exact p.2.1 p.2.2 width p.1.value).foldl
        Comparison.push c) : Except HostException Comparison) := by
    intro l
    induction l with
    | nil => intro c _; rfl
    | cons p l ih =>
      intro c hl
      rw [List.foldlM_cons, finiteReference, compareRow_finite h0 hw (hl p List.mem_cons_self),
        ok_bind, pure_eq_ok, ok_bind, ih _ fun q hq => hl q (List.mem_cons_of_mem _ hq)]
      rfl
  rw [compareRows, throwIf_of_not (by simp [hlen, hne]), ok_bind, throwIf_of_not (by omega),
    ok_bind, List.zip_map_right, List.foldlM_map]
  exact hfold _ _ fun p hp => ha _ (List.of_mem_zip hp).2

end RowReduce
