import RowReduce.Host.Compare

/-!
# Comparing arbitrary rows

The comparison of any rows, finite or not: every entry is that of its own row,
a row that is not finite makes both maxima infinite wherever it stands, and the
order of the rows only orders the entries.
-/

namespace RowReduce

open BinaryFloat Fallible FloatValue

/-- The largest of a list is one of its members. -/
theorem foldl_max_mem (l : List ℚ) (q : ℚ) : l.foldl Max.max q ∈ q :: l := by
  induction l generalizing q with
  | nil => exact List.mem_singleton_self q
  | cons r l ih =>
    rw [List.foldl_cons]
    rcases List.mem_cons.mp (ih (Max.max q r)) with h | h
    · rw [h]
      rcases max_choice q r with hm | hm <;> simp [hm]
    · exact List.mem_cons_of_mem _ (List.mem_cons_of_mem _ h)

private theorem le_foldl_max (l : List ℚ) (q : ℚ) : ∀ r ∈ q :: l, r ≤ l.foldl Max.max q := by
  induction l generalizing q with
  | nil => simp
  | cons s l ih =>
    intro r hr
    rw [List.foldl_cons]
    have hstart := ih (Max.max q s) _ List.mem_cons_self
    rcases List.mem_cons.mp hr with rfl | hr
    · exact (le_max_left _ _).trans hstart
    · rcases List.mem_cons.mp hr with rfl | hr
      · exact (le_max_right _ _).trans hstart
      · exact ih _ _ (List.mem_cons_of_mem _ hr)

section Entry

variable (rd : Rounding binary64) (width : ℕ) (exact : Bool) (row : Float32 × RowReference)

/-- The budget of a reference, past the check of the width. -/
def declaredBudget (reference : RowReference) : FloatValue :=
  (errorBudget rd reference width).toOption.getD .nan

/-- The entry of a row on its own. -/
def rowEntry : RowComparison :=
  let budget := declaredBudget rd width row.2
  let tolerance := if exact then .finite 0 else budget
  let error := (sub rd row.1.value row.2.sum).abs
  let scaledError := div rd error (FloatValue.max row.2.absSum (.finite (2 ^ (-20 : ℤ))))
  let finite := row.1.value.isFinite && row.2.sum.isFinite && row.2.absSum.isFinite &&
    le (.finite 0) row.2.absSum && budget.isFinite && error.isFinite && scaledError.isFinite
  ⟨row.1.value, row.2.sum, error, tolerance, scaledError, finite, finite && le error tolerance⟩

/-- Finite values on both sides, the absolute sum not negative. -/
structure FiniteRow : Prop where
  actual : row.1.value.isFinite = true
  sum : row.2.sum.isFinite = true
  absSum : row.2.absSum.isFinite = true
  nonneg : le (.finite 0) row.2.absSum = true

variable {rd width exact row} (h0 : 0 < width) (hw : width ≤ 128)

include h0 hw

/-- The budget of any reference is computed. -/
theorem errorBudget_eq_ok (reference : RowReference) :
    errorBudget rd reference width = .ok (declaredBudget rd width reference) := by
  rw [declaredBudget, errorBudget, throwIf_of_not (by omega), ok_bind]
  rfl

/-- Any row is compared. -/
theorem compareRow_eq_ok :
    compareRow rd width exact row.1 row.2 = .ok (rowEntry rd width exact row) := by
  rw [compareRow, errorBudget_eq_ok h0 hw, ok_bind]
  rfl

/-- On a finite row every computed value is finite. -/
theorem FiniteRow.exists_rowEntry (h : FiniteRow row) :
    (rowEntry rd width exact row).finite = true ∧
      (∃ e : ℚ, 0 ≤ e ∧ (rowEntry rd width exact row).absError = .finite e) ∧
      ∃ e : ℚ, 0 ≤ e ∧ (rowEntry rd width exact row).scaledError = .finite e := by
  obtain ⟨q, hq⟩ := isFinite_iff.mp h.actual
  obtain ⟨s, hs⟩ := isFinite_iff.mp h.sum
  obtain ⟨a, ha⟩ := isFinite_iff.mp h.absSum
  have ha0 : 0 ≤ a := by simpa [ha] using h.nonneg
  have hreference : row.2 = ⟨.finite s, .finite a⟩ := by
    rw [← hs, ← ha]
  have hentry : rowEntry rd width exact row = comparedRow rd exact s a width (.finite q) := by
    refine Except.ok.inj ((compareRow_eq_ok h0 hw).symm.trans ?_)
    rw [hreference, compareRow_finite h0 hw ha0, hq]
  have hmax : Max.max a (2 ^ (-20 : ℤ)) ≠ 0 := by
    have : (0 : ℚ) < 2 ^ (-20 : ℤ) := by positivity
    exact (lt_max_of_lt_right this).ne'
  have hscaled : (comparedRow rd exact s a width (.finite q)).scaledError =
      .finite (rd.round (|rd.round (q - s)| / Max.max a (2 ^ (-20 : ℤ)))) := by
    simp only [comparedRow, sub_finite, abs_finite, div_finite rd _ hmax]
  rw [hentry]
  refine ⟨rfl, ⟨|rd.round (q - s)|, abs_nonneg _, by simp [comparedRow]⟩, _, ?_, hscaled⟩
  exact rd.round_nonneg (div_nonneg (abs_nonneg _) (ha0.trans (le_max_left _ _)))

/-- What a finite entry is. -/
theorem rowEntry_finite_iff : (rowEntry rd width exact row).finite = true ↔ FiniteRow row := by
  constructor
  · intro h
    simp only [rowEntry, Bool.and_eq_true] at h
    obtain ⟨⟨⟨⟨⟨⟨hactual, hsum⟩, habs⟩, hnonneg⟩, _⟩, _⟩, _⟩ := h
    exact ⟨hactual, hsum, habs, hnonneg⟩
  · exact fun h => (h.exists_rowEntry h0 hw).1

/-- What a passing entry is. -/
theorem rowEntry_pass_iff : (rowEntry rd width exact row).pass = true ↔ FiniteRow row ∧
    le (rowEntry rd width exact row).absError (rowEntry rd width exact row).tolerance = true := by
  rw [← @rowEntry_finite_iff rd width exact row h0 hw, ← Bool.and_eq_true]
  rfl

end Entry

section Rows

variable {rd : Rounding binary64} {width : ℕ} {exact : Bool} {rows : List (Float32 × RowReference)}

/-- An infinite maximum stays. -/
theorem foldl_push_of_infinity (entries : List RowComparison) {c : Comparison}
    (ha : c.maxAbsError = .infinity false) (hb : c.maxScaledError = .infinity false) :
    (entries.foldl Comparison.push c).maxAbsError = .infinity false ∧
      (entries.foldl Comparison.push c).maxScaledError = .infinity false := by
  have hmax : ∀ x, FloatValue.max (.infinity false) x = .infinity false := by
    intro x
    cases x <;> rfl
  induction entries generalizing c with
  | nil => exact ⟨ha, hb⟩
  | cons row entries ih =>
    rw [List.foldl_cons]
    refine ih ?_ ?_
    · rw [Comparison.push, ha, hmax, ite_self]
    · rw [Comparison.push, hb, hmax, ite_self]

/-- A row that is not finite makes both maxima infinite. -/
theorem foldl_push_of_not_finite {entries : List RowComparison}
    (h : ∃ row ∈ entries, row.finite = false) (c : Comparison) :
    (entries.foldl Comparison.push c).maxAbsError = .infinity false ∧
      (entries.foldl Comparison.push c).maxScaledError = .infinity false := by
  obtain ⟨row, hmem, hfinite⟩ := h
  obtain ⟨before, after, rfl⟩ := List.append_of_mem hmem
  rw [List.foldl_append, List.foldl_cons]
  refine foldl_push_of_infinity after ?_ ?_ <;> rw [Comparison.push, hfinite] <;> rfl

variable (h0 : 0 < width) (hw : width ≤ 128)

include h0 hw

/-- The comparison collects the entries of the rows. -/
theorem compareRows_eq_ok (hne : rows ≠ []) (hlen : rows.length ≤ 128) :
    compareRows rd (rows.map Prod.fst) (rows.map Prod.snd) width exact =
      .ok ((rows.map (rowEntry rd width exact)).foldl Comparison.push {}) := by
  have hfold : ∀ (l : List (Float32 × RowReference)) (c : Comparison),
      l.foldlM (fun c p => do
        let row ← compareRow rd width exact p.1 p.2
        return c.push row) c =
      (.ok ((l.map (rowEntry rd width exact)).foldl Comparison.push c) :
        Except HostException Comparison) := by
    intro l
    induction l with
    | nil => exact fun _ => rfl
    | cons p l ih =>
      intro c
      rw [List.foldlM_cons, compareRow_eq_ok h0 hw, ok_bind, pure_eq_ok, ok_bind, ih]
      rfl
  rw [compareRows, throwIf_of_not (by simpa using hne), ok_bind,
    throwIf_of_not (by simpa using hlen),
    ok_bind, ← List.unzip_fst, ← List.unzip_snd, List.zip_unzip]
  exact hfold rows {}

/-- Where all rows are finite, the maxima are those of their errors. -/
theorem foldl_push_rowEntry (hfinite : ∀ row ∈ rows, FiniteRow row) :
    ∃ errors scaled : List ℚ, (∀ e ∈ errors, 0 ≤ e) ∧ (∀ e ∈ scaled, 0 ≤ e) ∧
      rows.map (fun row => (rowEntry rd width exact row).absError) = errors.map .finite ∧
      rows.map (fun row => (rowEntry rd width exact row).scaledError) = scaled.map .finite ∧
      ((rows.map (rowEntry rd width exact)).foldl Comparison.push {}).maxAbsError =
        .finite (errors.foldl Max.max 0) ∧
      ((rows.map (rowEntry rd width exact)).foldl Comparison.push {}).maxScaledError =
        .finite (scaled.foldl Max.max 0) := by
  have hvalues : ∀ row ∈ rows, (rowEntry rd width exact row).finite = true ∧
      (rowEntry rd width exact row).absError =
        .finite (rowEntry rd width exact row).absError.toRat ∧
      (rowEntry rd width exact row).scaledError =
        .finite (rowEntry rd width exact row).scaledError.toRat ∧
      0 ≤ (rowEntry rd width exact row).absError.toRat ∧
      0 ≤ (rowEntry rd width exact row).scaledError.toRat := by
    intro row hrow
    obtain ⟨hf, ⟨e, he0, he⟩, ⟨t, ht0, ht⟩⟩ :=
      @FiniteRow.exists_rowEntry rd width exact row h0 hw (hfinite row hrow)
    rw [he, ht]
    exact ⟨hf, rfl, rfl, he0, ht0⟩
  have hmaxima := @foldl_push_max _ (rowEntry rd width exact)
    (fun row => (rowEntry rd width exact row).absError.toRat)
    (fun row => (rowEntry rd width exact row).scaledError.toRat) rows
    (fun row hrow => ⟨(hvalues row hrow).1, (hvalues row hrow).2.1, (hvalues row hrow).2.2.1⟩)
    {} 0 0 rfl rfl
  refine ⟨_, _, ?_, ?_, ?_, ?_, hmaxima⟩
  · rw [List.forall_mem_map]
    exact fun row hrow => (hvalues row hrow).2.2.2.1
  · rw [List.forall_mem_map]
    exact fun row hrow => (hvalues row hrow).2.2.2.2
  · rw [List.map_map]
    exact List.map_congr_left fun row hrow => (hvalues row hrow).2.1
  · rw [List.map_map]
    exact List.map_congr_left fun row hrow => (hvalues row hrow).2.2.1

end Rows

/-- A value attained among others, none of which is larger. -/
def IsLargest (x : FloatValue) (values : List FloatValue) : Prop :=
  x ∈ values ∧ ∀ y ∈ values, le y x = true

/-- The running maximum is the largest. -/
theorem isLargest_foldl_max {values : List FloatValue} {l : List ℚ} (h : values = l.map .finite)
    (hne : l ≠ []) (h0 : ∀ e ∈ l, 0 ≤ e) : IsLargest (.finite (l.foldl Max.max 0)) values := by
  rw [h]
  constructor
  · refine List.mem_map_of_mem ?_
    cases l with
    | nil => exact absurd rfl hne
    | cons e l =>
      rw [List.foldl_cons, max_eq_right (h0 e List.mem_cons_self)]
      exact foldl_max_mem l e
  · rw [List.forall_mem_map]
    intro e he
    rw [le_finite, decide_eq_true_eq]
    exact le_foldl_max l 0 e (List.mem_cons_of_mem 0 he)

/-- What the comparison says of its rows. -/
structure ComparisonOf (rd : Rounding binary64) (width : ℕ) (exact : Bool)
    (rows : List (Float32 × RowReference)) (c : Comparison) : Prop where
  entries : c.rows = rows.map (rowEntry rd width exact)
  pass : c.pass = true ↔ ∀ row ∈ rows, FiniteRow row ∧
    le (rowEntry rd width exact row).absError (rowEntry rd width exact row).tolerance = true
  absInfinite : c.maxAbsError = .infinity false ↔ ∃ row ∈ rows, ¬FiniteRow row
  scaledInfinite : c.maxScaledError = .infinity false ↔ ∃ row ∈ rows, ¬FiniteRow row
  absLargest : (∀ row ∈ rows, FiniteRow row) →
    IsLargest c.maxAbsError (c.rows.map RowComparison.absError)
  scaledLargest : (∀ row ∈ rows, FiniteRow row) →
    IsLargest c.maxScaledError (c.rows.map RowComparison.scaledError)

/-- The pushed entries are the comparison of the rows. -/
theorem comparisonOf_foldl {rd : Rounding binary64} {width : ℕ} {exact : Bool}
    {rows : List (Float32 × RowReference)} (h0 : 0 < width) (hw : width ≤ 128) (hne : rows ≠ []) :
    ComparisonOf rd width exact rows
      ((rows.map (rowEntry rd width exact)).foldl Comparison.push {}) := by
  obtain ⟨hrows, hpass⟩ := foldl_push_rows (rows.map (rowEntry rd width exact)) {}
  have hrows' : ((rows.map (rowEntry rd width exact)).foldl Comparison.push {}).rows =
      rows.map (rowEntry rd width exact) := hrows
  have hnot : (∃ row ∈ rows, ¬FiniteRow row) →
      ∃ entry ∈ rows.map (rowEntry rd width exact), entry.finite = false := by
    rintro ⟨row, hrow, hn⟩
    refine ⟨_, List.mem_map_of_mem hrow, ?_⟩
    rw [← Bool.not_eq_true, rowEntry_finite_iff h0 hw]
    exact hn
  have hall : (¬∃ row ∈ rows, ¬FiniteRow row) → ∀ row ∈ rows, FiniteRow row := by
    intro hn row hrow
    by_contra hnot
    exact hn ⟨row, hrow, hnot⟩
  refine ⟨hrows', ?_, ⟨fun h => ?_, fun h => ?_⟩, ⟨fun h => ?_, fun h => ?_⟩, fun h => ?_,
    fun h => ?_⟩
  · rw [hpass, Bool.true_and, List.all_eq_true, List.forall_mem_map]
    exact forall₂_congr fun row _ => rowEntry_pass_iff h0 hw
  · by_contra hn
    obtain ⟨_, _, _, _, _, _, hmax, _⟩ := @foldl_push_rowEntry rd width exact rows h0 hw (hall hn)
    rw [hmax] at h
    cases h
  · exact (foldl_push_of_not_finite (hnot h) {}).1
  · by_contra hn
    obtain ⟨_, _, _, _, _, _, _, hmax⟩ := @foldl_push_rowEntry rd width exact rows h0 hw (hall hn)
    rw [hmax] at h
    cases h
  · exact (foldl_push_of_not_finite (hnot h) {}).2
  · obtain ⟨errors, _, herrors, _, heq, _, hmax, _⟩ :=
      @foldl_push_rowEntry rd width exact rows h0 hw h
    rw [hmax, hrows', List.map_map]
    refine isLargest_foldl_max heq ?_ herrors
    rintro rfl
    exact hne (List.map_eq_nil_iff.mp heq)
  · obtain ⟨_, scaled, _, hscaled, _, heq, _, hmax⟩ :=
      @foldl_push_rowEntry rd width exact rows h0 hw h
    rw [hmax, hrows', List.map_map]
    refine isLargest_foldl_max heq ?_ hscaled
    rintro rfl
    exact hne (List.map_eq_nil_iff.mp heq)

/-- Rows in another order have the same verdict and maxima. -/
theorem foldl_push_perm {rd : Rounding binary64} {width : ℕ} {exact : Bool}
    {rows rows' : List (Float32 × RowReference)} (h0 : 0 < width) (hw : width ≤ 128)
    (hperm : rows'.Perm rows) {c c' : Comparison}
    (hc : c = (rows.map (rowEntry rd width exact)).foldl Comparison.push {})
    (hc' : c' = (rows'.map (rowEntry rd width exact)).foldl Comparison.push {}) :
    c'.pass = c.pass ∧ c'.maxAbsError = c.maxAbsError ∧ c'.maxScaledError = c.maxScaledError := by
  have hpass : c'.pass = c.pass := by
    rw [hc, hc', (foldl_push_rows _ _).2, (foldl_push_rows _ _).2]
    exact congrArg (true && ·) ((hperm.map (rowEntry rd width exact)).all_eq)
  by_cases hall : ∀ row ∈ rows, FiniteRow row
  · have hall' : ∀ row ∈ rows', FiniteRow row := fun row hrow => hall row (hperm.mem_iff.mp hrow)
    obtain ⟨errors, scaled, _, _, herrors, hscaled, habs, hmax⟩ :=
      @foldl_push_rowEntry rd width exact rows h0 hw hall
    obtain ⟨errors', scaled', _, _, herrors', hscaled', habs', hmax'⟩ :=
      @foldl_push_rowEntry rd width exact rows' h0 hw hall'
    have hvalues : ∀ {l l' : List ℚ} {f : Float32 × RowReference → FloatValue},
        rows.map f = l.map .finite → rows'.map f = l'.map .finite →
        l'.foldl Max.max 0 = l.foldl Max.max 0 := by
      intro l l' f hl hl'
      have hp := hperm.map f
      rw [hl, hl', List.map_perm_map_iff fun _ _ => FloatValue.finite.inj] at hp
      exact hp.foldl_eq 0
    refine ⟨hpass, ?_, ?_⟩
    · rw [hc, hc', habs, habs', hvalues herrors herrors']
    · rw [hc, hc', hmax, hmax', hvalues hscaled hscaled']
  · push Not at hall
    obtain ⟨row, hrow, hn⟩ := hall
    have hbad : (rowEntry rd width exact row).finite = false := by
      rw [← Bool.not_eq_true, rowEntry_finite_iff h0 hw]
      exact hn
    obtain ⟨habs, hmax⟩ := foldl_push_of_not_finite
      ⟨_, List.mem_map_of_mem (f := rowEntry rd width exact) hrow, hbad⟩ {}
    obtain ⟨habs', hmax'⟩ := foldl_push_of_not_finite
      ⟨_, List.mem_map_of_mem (f := rowEntry rd width exact) (hperm.mem_iff.mpr hrow), hbad⟩ {}
    exact ⟨hpass, by rw [hc, hc', habs, habs'], by rw [hc, hc', hmax, hmax']⟩

/-- Every comparison within the contract reports its rows one by one, passes just when all of them
do, has infinite maxima just beside a row that is not finite, and is the same for every order. -/
theorem compareRows_rowwise (rd : Rounding binary64) {width : ℕ} (h0 : 0 < width)
    (hw : width ≤ 128) (exact : Bool) :
    (∀ row : Float32 × RowReference,
      compareRow rd width exact row.1 row.2 = .ok (rowEntry rd width exact row)) ∧
    ∀ rows : List (Float32 × RowReference), rows ≠ [] → rows.length ≤ 128 →
      ∃ c, compareRows rd (rows.map Prod.fst) (rows.map Prod.snd) width exact = .ok c ∧
        ComparisonOf rd width exact rows c ∧
        ∀ rows' : List (Float32 × RowReference), rows'.Perm rows →
          ∃ c', compareRows rd (rows'.map Prod.fst) (rows'.map Prod.snd) width exact = .ok c' ∧
            c'.rows = rows'.map (rowEntry rd width exact) ∧ c'.rows.Perm c.rows ∧
            c'.pass = c.pass ∧ c'.maxAbsError = c.maxAbsError ∧
            c'.maxScaledError = c.maxScaledError := by
  refine ⟨fun row => compareRow_eq_ok h0 hw, fun rows hne hlen => ?_⟩
  refine ⟨_, compareRows_eq_ok h0 hw hne hlen, comparisonOf_foldl h0 hw hne, fun rows' hperm => ?_⟩
  have hne' : rows' ≠ [] := by
    rintro rfl
    exact hne hperm.symm.eq_nil
  have hrows := (@comparisonOf_foldl rd width exact rows h0 hw hne).entries
  have hrows' := (@comparisonOf_foldl rd width exact rows' h0 hw hne').entries
  refine ⟨_, compareRows_eq_ok h0 hw hne' (hperm.length_eq ▸ hlen), hrows', ?_,
    foldl_push_perm h0 hw hperm rfl rfl⟩
  rw [hrows, hrows']
  exact hperm.map _

/-- NaN before a correct zero. -/
theorem compareRows_rowwise_nan : ∃ c,
    compareRows (.nearestEven binary64) [0x7fc00000#32, 0] [⟨.finite 0, .finite 0⟩,
      ⟨.finite 0, .finite 0⟩]
      1 true = .ok c ∧ c.pass = false ∧ c.maxAbsError = .infinity false := by
  obtain ⟨_, hrows⟩ := @compareRows_rowwise (.nearestEven binary64) 1 (by decide) (by decide) true
  obtain ⟨c, hc, hof, _⟩ := hrows
    [(0x7fc00000#32, ⟨.finite 0, .finite 0⟩), (0, ⟨.finite 0, .finite 0⟩)] (by simp) (by decide)
  have hnan : ¬FiniteRow ((0x7fc00000#32, ⟨.finite 0, .finite 0⟩) : Float32 × RowReference) := by
    intro h
    exact absurd h.actual (by decide +kernel)
  refine ⟨c, hc, ?_, hof.absInfinite.mpr ⟨_, List.mem_cons_self, hnan⟩⟩
  rw [← Bool.not_eq_true, hof.pass]
  exact fun h => hnan (h _ List.mem_cons_self).1

end RowReduce
