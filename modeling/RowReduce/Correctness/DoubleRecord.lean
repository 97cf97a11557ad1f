import RowReduce.Correctness.DocumentFormat
import RowReduce.Correctness.KernelCase

/-!
# The numbers of a record are doubles

In double precision every number a comparison of rounded row sums records is a
double, far below the overflow threshold, so a writer of doubles prints it such
that it reads back.
-/

namespace RowReduce

open BinaryFloat Fallible Grid

/-- A representable number within a thousand binary places is a double. -/
theorem isDouble_of_representable {q : ℚ} (h : binary64.Representable q) (hle : |q| ≤ 2 ^ 1000) :
    IsDouble q := by
  have hbits : binary64.roundBits (2 ^ 1000) < binary64.infinityBits := by decide +kernel
  rw [IsDouble,
    binary64.decode_encode ((binary64.roundBits_mono (abs_nonneg q) hle).trans_lt hbits),
    binary64.round_of_representable h]

/-- A power of two is representable. -/
theorem representable_two_pow (k : ℕ) : binary64.Representable (2 ^ k) :=
  ⟨1, k, by decide, by have hmin : binary64.minExponent = -1074 := by decide
                       omega, by simp⟩

/-- Rounding stays within a power of two. -/
theorem abs_round_le {rd : Rounding binary64} {q : ℚ} {k : ℕ} (h : |q| ≤ 2 ^ k) :
    |rd.round q| ≤ 2 ^ k := by
  obtain ⟨hlow, hhigh⟩ := abs_le.mp h
  have hpow := representable_two_pow k
  refine abs_le.mpr ⟨?_, ?_⟩
  · have hmono := rd.mono hlow
    rwa [rd.representable hpow.neg] at hmono
  · have hmono := rd.mono hhigh
    rwa [rd.representable hpow] at hmono

/-- A rounded number within a thousand binary places is a double. -/
theorem isDouble_round {q : ℚ} {k : ℕ} (h : |q| ≤ 2 ^ k) (hk : k ≤ 1000) :
    IsDouble ((Rounding.nearestEven binary64).round q) :=
  isDouble_of_representable (binary64.round_representable q)
    ((abs_round_le h).trans (pow_le_pow_right₀ (by norm_num) hk))

/-- The absolute value of a double of that size is a double. -/
theorem isDouble_abs_round {q : ℚ} {k : ℕ} (h : |q| ≤ 2 ^ k) (hk : k ≤ 1000) :
    IsDouble |(Rounding.nearestEven binary64).round q| := by
  refine isDouble_of_representable (binary64.round_representable q).abs ?_
  rw [abs_abs]
  exact (abs_round_le h).trans (pow_le_pow_right₀ (by norm_num) hk)

/-- The largest of doubles is one of them. -/
theorem isDouble_foldl_max {l : List ℚ} (hl : ∀ q ∈ l, IsDouble q) {a : ℚ} (ha : IsDouble a) :
    IsDouble (l.foldl max a) := by
  induction l generalizing a with
  | nil => exact ha
  | cons q l ih =>
    obtain ⟨hq, hl⟩ := List.forall_mem_cons.mp hl
    refine ih hl ?_
    rcases max_choice a q with h | h
    · rwa [h]
    · rwa [h]

section Row

variable {s a v : ℚ} {width : ℕ} {exact : Bool}

/-- The coefficient of the budget is at most one. -/
theorem abs_gammaCoefficient_le {rd : Rounding binary64} (hw : width ≤ 128) :
    |gammaCoefficient rd width| ≤ 2 ^ 0 := by
  have hcast : ((width + 64 : ℕ) : ℚ) ≤ 192 := by exact_mod_cast (by omega : width + 64 ≤ 192)
  have hsmall : ((width + 64 : ℕ) : ℚ) * 2 ^ (-24 : ℤ) ≤ 1 / 2 := by
    norm_num at hcast ⊢
    linarith
  have hnonneg : 0 ≤ ((width + 64 : ℕ) : ℚ) * 2 ^ (-24 : ℤ) := by positivity
  have hhalf : rd.round (1 / 2) = 1 / 2 := by
    have hround := rd.round_intCast_mul (n := 1) (e := -1) (by decide) (by decide)
    norm_num at hround ⊢
    exact hround
  have hdivisor : 1 / 2 ≤ rd.round (1 - ((width + 64 : ℕ) : ℚ) * 2 ^ (-24 : ℤ)) := by
    have hmono := rd.mono (show 1 / 2 ≤ 1 - ((width + 64 : ℕ) : ℚ) * 2 ^ (-24 : ℤ) by linarith)
    rwa [hhalf] at hmono
  rw [gammaCoefficient, kU32_eq hw]
  refine abs_round_le ?_
  generalize rd.round (1 - ((width + 64 : ℕ) : ℚ) * 2 ^ (-24 : ℤ)) = divisor at hdivisor ⊢
  rw [abs_of_nonneg (div_nonneg hnonneg (by linarith)), pow_zero,
    div_le_one (by linarith)]
  exact hsmall.trans hdivisor

/-- The budget of a row of small sums is small. -/
theorem abs_budgetValue_le {rd : Rounding binary64} (hw : width ≤ 128) (hs : |s| ≤ 2 ^ 7)
    (ha : |a| ≤ 2 ^ 7) : |budgetValue rd s a width| ≤ 2 ^ 10 := by
  have hadd :
      ∀ {x y : ℚ} {k : ℕ}, |x| ≤ 2 ^ k → |y| ≤ 2 ^ k → |rd.round (x + y)| ≤ 2 ^ (k + 1) := by
    intro x y k hx hy
    refine abs_round_le ((abs_add_le x y).trans ?_)
    rw [pow_succ]
    linarith
  have hmul :
      ∀ {x y : ℚ} {j k : ℕ}, |x| ≤ 2 ^ j → |y| ≤ 2 ^ k → |rd.round (x * y)| ≤ 2 ^ (j + k) := by
    intro x y j k hx hy
    refine abs_round_le ?_
    rw [abs_mul, pow_add]
    exact mul_le_mul hx hy (abs_nonneg y) (by positivity)
  have hunit : |(2 : ℚ) ^ (-8 : ℤ)| ≤ 2 ^ 0 := by norm_num
  have hfactor : |rd.round (rd.round (1 + 2 ^ (-8 : ℤ)) * gammaCoefficient rd width)| ≤
      2 ^ (0 + 1 + 0) :=
    hmul (hadd (by norm_num) hunit) (abs_gammaCoefficient_le hw)
  have hpacking : |rd.round (2 ^ (-8 : ℤ) * |s|)| ≤ 2 ^ 8 := by
    have h := @hmul (2 ^ (-8 : ℤ)) |s| 0 7 hunit (by rwa [abs_abs])
    exact h.trans (by norm_num)
  exact hadd (k := 9) (hadd (k := 8) hpacking (hmul hfactor ha)) (by norm_num)

/-- The numbers of a row. -/
def RowComparison.numbers (row : RowComparison) : List FloatValue :=
  [row.actual, row.reference, row.absError, row.tolerance, row.scaledError]

/-- A finite double. -/
def FiniteDouble (x : FloatValue) : Prop := ∃ q, x = .finite q ∧ IsDouble q

/-- The scaled error of a row is a quotient by at least one unit. -/
theorem abs_scaled_le {rd : Rounding binary64} (hs : |s| ≤ 2 ^ 7) (hv : |v| ≤ 2 ^ 8) :
    |(|rd.round (v - s)| / max a (2 ^ (-20 : ℤ)))| ≤ 2 ^ 29 := by
  have hpos : (0 : ℚ) < 2 ^ (-20 : ℤ) := by positivity
  have hunit : (2 : ℚ) ^ (-20 : ℤ) ≤ max a (2 ^ (-20 : ℤ)) := le_max_right _ _
  have herror : |rd.round (v - s)| ≤ 2 ^ 9 :=
    abs_round_le ((abs_sub v s).trans (by linarith))
  rw [abs_div, abs_abs, abs_of_pos (hpos.trans_le hunit), div_le_iff₀ (hpos.trans_le hunit)]
  calc |rd.round (v - s)| ≤ 2 ^ 29 * 2 ^ (-20 : ℤ) := herror.trans (by norm_num)
    _ ≤ 2 ^ 29 * max a (2 ^ (-20 : ℤ)) := by gcongr

/-- What the comparison records of a small row are finite doubles. -/
theorem comparedRow_numbers (hw : width ≤ 128) (hs : OnGrid (-15) (2 ^ 22) s) (ha : |a| ≤ 2 ^ 7)
    (hv : bfloat16.Representable v) (hle : |v| ≤ 2 ^ 8) :
    ∀ x ∈ (comparedRow (.nearestEven binary64) exact s a width (.finite v)).numbers,
      FiniteDouble x := by
  have hpos : (0 : ℚ) < 2 ^ (-20 : ℤ) := by positivity
  have hmax : max a (2 ^ (-20 : ℤ)) ≠ 0 := (lt_max_of_lt_right hpos).ne'
  have hs7 := abs_le_of_onGrid hs
  have hbig : ∀ {q : ℚ} {k : ℕ}, k ≤ 1000 → |q| ≤ 2 ^ k → |q| ≤ 2 ^ 1000 := fun hk h =>
    h.trans (pow_le_pow_right₀ (by norm_num) hk)
  have herror : |v - s| ≤ 2 ^ 9 := (abs_sub v s).trans (by linarith)
  simp only [RowComparison.numbers, comparedRow, FloatValue.sub_finite, FloatValue.abs_finite,
    FloatValue.div_finite _ _ hmax, List.forall_mem_cons, List.not_mem_nil, false_imp_iff,
    implies_true, and_true]
  refine ⟨⟨v, rfl, isDouble_of_representable (hv.mono (by decide) (by decide))
    (hbig (by norm_num) hle)⟩,
    ⟨s, rfl, isDouble_of_representable (hs.representable (by decide) (by decide))
      (hbig (by norm_num) hs7)⟩,
    ⟨_, rfl, isDouble_abs_round herror (by norm_num)⟩, ⟨_, rfl, ?_⟩,
    ⟨_, rfl, isDouble_round (abs_scaled_le hs7 hle) (by norm_num)⟩⟩
  rw [toleranceValue]
  split_ifs
  · rw [IsDouble]
    decide +kernel
  · have hbudget := @abs_budgetValue_le s a width (.nearestEven binary64) hw hs7 ha
    exact isDouble_of_representable (binary64.round_representable _) (hbig (by norm_num) hbudget)

end Row

/-- The numbers of a comparison. -/
structure Comparison.Doubles (c : Comparison) : Prop where
  maxAbsError : FiniteDouble c.maxAbsError
  maxScaledError : FiniteDouble c.maxScaledError
  rows : ∀ row ∈ c.rows, ∀ x ∈ row.numbers, FiniteDouble x

/-- Small rows are compared by doubles throughout. -/
theorem comparison_doubles {m : QuantizedMatrix} {exact : Bool} {actual : ℕ → FloatValue}
    (h : ∀ r < m.shape.rows, ∃ v, actual r = .finite v ∧ bfloat16.Representable v ∧ |v| ≤ 2 ^ 8) :
    (((List.range m.shape.rows).map fun r => comparedRow (.nearestEven binary64) exact (m.rowSum r)
      (m.rowAbsSum r) m.shape.cols (actual r)).foldl Comparison.push {}).Doubles := by
  have hzero : IsDouble 0 := by
    rw [IsDouble]
    decide +kernel
  have hrow : ∀ r ∈ List.range m.shape.rows, ∀ x ∈ (comparedRow (.nearestEven binary64) exact
      (m.rowSum r) (m.rowAbsSum r) m.shape.cols (actual r)).numbers, FiniteDouble x := by
    intro r hr
    rw [List.mem_range] at hr
    obtain ⟨v, hv, hrepresentable, hle⟩ := h r hr
    rw [hv]
    exact comparedRow_numbers m.valid.2.2.2 (QuantizedMatrix.rowSum_onGrid hr)
      (abs_le_of_onGrid (QuantizedMatrix.rowAbsSum_onGrid hr)) hrepresentable hle
  have hnumber : ∀ r ∈ List.range m.shape.rows, ∃ e q, IsDouble e ∧ IsDouble q ∧
      (comparedRow (.nearestEven binary64) exact (m.rowSum r) (m.rowAbsSum r) m.shape.cols
        (actual r)).finite = true ∧
      (comparedRow (.nearestEven binary64) exact (m.rowSum r) (m.rowAbsSum r) m.shape.cols
        (actual r)).absError = .finite e ∧
      (comparedRow (.nearestEven binary64) exact (m.rowSum r) (m.rowAbsSum r) m.shape.cols
        (actual r)).scaledError = .finite q := by
    intro r hr
    obtain ⟨e, he, hdouble⟩ := hrow r hr _ (List.mem_of_getElem? (i := 2) rfl)
    obtain ⟨q, hq, hscaled⟩ := hrow r hr _ (List.mem_of_getElem? (i := 4) rfl)
    obtain ⟨v, hv, _⟩ := h r (List.mem_range.mp hr)
    exact ⟨e, q, hdouble, hscaled, by rw [comparedRow, hv]; rfl, he, hq⟩
  choose! error scaled herror hscaled hfinite herrorEq hscaledEq using hnumber
  have hmaxima := @foldl_push_max _ (fun r => comparedRow (.nearestEven binary64) exact (m.rowSum r)
    (m.rowAbsSum r) m.shape.cols (actual r)) error scaled (List.range m.shape.rows)
    (fun r hr => ⟨hfinite r hr, herrorEq r hr, hscaledEq r hr⟩) {} 0 0 rfl rfl
  refine ⟨⟨_, hmaxima.1, isDouble_foldl_max ?_ hzero⟩,
    ⟨_, hmaxima.2, isDouble_foldl_max ?_ hzero⟩, ?_⟩
  · exact List.forall_mem_map.mpr herror
  · exact List.forall_mem_map.mpr hscaled
  · rw [(foldl_push_rows _ _).1]
    exact List.forall_mem_map.mpr hrow

/-- A whole number as the stream prints it, every other double exactly. -/
def doubleDigits (q : ℚ) : String :=
  if q.den = 1 ∧ |q| < 10 ^ 17 then toString q.num else exactRepr q

section Digits

variable {maxDigits : Option ℕ}

/-- A numeral is read wherever a comma or a closing bracket follows. -/
theorem NumeralReads.readsAs {text : List Char} {value : Json} (h : NumeralReads text value)
    (hwithin : withinDigits maxDigits value = true) : ReadsAs maxDigits text value := by
  intro fuel c rest _ hc
  have hfollows : Follows (c :: rest) :=
    follows_cons (hc.imp_right fun hclose => hclose.imp_right Or.inl) rest
  have hscan := h.scan _ hfollows
  obtain ⟨d, tail, rfl, hd⟩ := h.head
  have hblank : isJsonBlank d = false := by
    rcases hd with hd | ⟨rfl, _⟩
    · obtain ⟨h1, h2⟩ := charIsDigit_iff.mp hd
      rw [← Char.ofNat_toNat d]
      generalize d.toNat = n at h1 h2
      interval_cases n <;> decide
    · rfl
  rw [List.cons_append] at hscan ⊢
  rw [skipBlanks_cons hblank, (numeralHead_of_scanNumber hscan).scanOnce]
  exact scanNumeral_eq_some_iff.mpr ⟨hscan, hwithin⟩

/-- A printed integer stays on its line. -/
theorem isLineBoundary_toString_int (n : ℤ) :
    ∀ c ∈ (toString n).toList, isLineBoundary c = false := by
  have hdigits : ∀ k, ∀ c ∈ Nat.toDigits 10 k, isLineBoundary c = false := fun k c hc =>
    isLineBoundary_of_isDigit (isDigit_toDigits k c hc)
  cases n with
  | ofNat n =>
    rw [toList_toString_ofNat]
    exact hdigits n
  | negSucc n =>
    rw [toList_toString_negSucc]
    exact List.forall_mem_cons.mpr ⟨by decide, hdigits _⟩

/-- So does an exactly written double. -/
theorem isLineBoundary_exactRepr (q : ℚ) :
    ∀ c ∈ (exactRepr q).toList, isLineBoundary c = false := by
  unfold exactRepr
  split_ifs
  · decide
  · decide
  · rw [String.toList_ofList, exponentText]
    refine List.forall_mem_append.mpr ⟨isLineBoundary_toString_int _, ?_⟩
    refine List.forall_mem_cons.mpr ⟨by decide, List.forall_mem_cons.mpr ⟨by decide, ?_⟩⟩
    exact fun c hc => isLineBoundary_of_isDigit (isDigit_toDigits _ c hc)

/-- Every double reads back from its digits. -/
theorem readsBack_doubleDigits (hlimit : DigitLimit maxDigits) {q : ℚ} (h : IsDouble q) :
    ReadsBack maxDigits doubleDigits q := by
  rw [ReadsBack, doubleDigits, readNumber]
  split_ifs with hwhole
  · have hnum : |q.num| ≤ 10 ^ 20 := by
      have hlt := hwhole.2
      rw [← (Rat.den_eq_one_iff q).mp hwhole.1] at hlt
      have hsmall : |q.num| < 10 ^ 17 := by exact_mod_cast hlt
      omega
    exact ⟨(numeralReads_int q.num).readsAs (hlimit.withinDigits hnum),
      isLineBoundary_toString_int q.num⟩
  · exact ⟨(exactRepr_reads h).readsAs rfl, isLineBoundary_exactRepr q⟩

/-- So do the numbers of doubles. -/
theorem FiniteDouble.readsBack {x : FloatValue} (h : FiniteDouble x)
    (hlimit : DigitLimit maxDigits) {q : ℚ} (hq : x = .finite q) :
    ReadsBack maxDigits doubleDigits q := by
  obtain ⟨r, hr, hdouble⟩ := h
  obtain rfl := FloatValue.finite.inj (hr.symm.trans hq)
  exact readsBack_doubleDigits hlimit hdouble

end Digits

section Run

variable {maxDigits : Option ℕ} {env : HostEnv} {files : String → Option InputFile}
  {args : List String} {options : Options} {first : PreparedInput}

/-- A BF16 number within a rounding of a small row sum is small. -/
theorem smallResult {s v : ℚ} {bits : Bf16Word} (hs : OnGrid (-15) (2 ^ 22) s)
    (hv : bf16Value bits = .finite v) (hle : |v - s| ≤ |bfloat16.round s - s|) :
    bfloat16.Representable v ∧ |v| ≤ 2 ^ 8 := by
  refine ⟨bfloat16.representable_of_decode ((bf16Value_eq_decode bits).symm.trans hv), ?_⟩
  have hs7 := abs_le_of_onGrid hs
  have hround := abs_round_sub_le_of_onGrid hs
  have hunit : (2 : ℚ) ^ (-8 : ℤ) * |s| ≤ |s| := mul_le_of_le_one_left (abs_nonneg s) (by norm_num)
  have htriangle : |v| ≤ |v - s| + |s| := by simpa using abs_add_le (v - s) s
  linarith

/-- The rounded sum of a row is a small BF16 number. -/
theorem roundedRowSum {m : QuantizedMatrix} {r : ℕ} (hr : r < m.shape.rows) :
    ∃ v, bf16Value (roundToBf16 (m.rowSum r)) = .finite v ∧ bfloat16.Representable v ∧
      |v| ≤ 2 ^ 8 := by
  have hs := QuantizedMatrix.rowSum_onGrid hr
  have hvalue : bf16Value (roundToBf16 (m.rowSum r)) = .finite (bfloat16.round (m.rowSum r)) :=
    bf16Value_encode_of_onGrid hs
  exact ⟨_, hvalue, smallResult hs hvalue le_rfl⟩

/-- On a correct device in double precision the records of generated inputs read back. -/
theorem CorrectDevice.record_readable (hlimit : DigitLimit maxDigits)
    (hcorrect : CorrectDevice env options first)
    (hrd : env.rd = .nearestEven binary64) (hup : env.upstream.UntilizeAgrees)
    (h : beforeDevice env files args = .ok (options, first)) (hfile : options.inputFile = "")
    (hseconds : ∀ i, FiniteDouble (env.device.seconds i)) :
    ∀ record ∈ (run env options first).1, record.Readable maxDigits doubleDigits := by
  intro record hrecord q hq
  obtain ⟨i, hi⟩ := List.mem_iff_getElem?.mp hrecord
  obtain ⟨p, input, m, words, hlaunched, _, _, rfl⟩ := run_generated hup h hfile hi
  obtain ⟨upload, hupload, hread⟩ := hlaunched.readback
  have hshape := hlaunched.launchInput.shape
  have hrep := hlaunched.launchInput.represents
  have hwords := hcorrect i _ _ upload words hlaunched.input hupload hread
  have hvalues :
      ∀ r < m.shape.rows, ∃ v, bf16Value (outputWord (resultBits words) r 0) = .finite v ∧
      bfloat16.Representable v ∧ |v| ≤ 2 ^ 8 := by
    intro r hr
    have hrow : (input.row r).sum = m.rowSum r := by
      rw [hrep.row_eq hr]
      rfl
    rw [hwords.rows r (hshape ▸ hr), hrow]
    exact roundedRowSum hr
  have hdoubles := @comparison_doubles _ p.isExact _ hvalues
  rw [← hrd] at hdoubles
  rcases ResultRecord.mem_values hq with ⟨row, hmem, hvalue⟩ | hvalue | hvalue | hvalue
  · have hnumbers := hdoubles.rows row hmem
    have hmember : FloatValue.finite q ∈ row.numbers := by
      rcases hvalue with hvalue | hvalue | hvalue | hvalue <;> simp [RowComparison.numbers, hvalue]
    exact (hnumbers _ hmember).readsBack hlimit rfl
  · exact hdoubles.maxAbsError.readsBack hlimit hvalue.symm
  · exact hdoubles.maxScaledError.readsBack hlimit hvalue.symm
  · exact (hseconds i).readsBack hlimit hvalue.symm

/-- Natural numbers up to the width of a row are doubles. -/
theorem finiteDouble_natCast {n : ℕ} (hn : n ≤ 128) : FiniteDouble (.finite n) := by
  refine ⟨n, rfl,
    isDouble_of_representable ((representable_natCast hn).mono (by decide) (by decide))
    ?_⟩
  rw [Nat.abs_cast]
  calc (n : ℚ) ≤ 2 ^ 7 := by exact_mod_cast hn
    _ ≤ 2 ^ 1000 := pow_le_pow_right₀ (by norm_num) (by norm_num)

/-- On a correct device the records of an exact pattern read back under any rounding. -/
theorem CorrectDevice.exact_readable (hlimit : DigitLimit maxDigits)
    (hcorrect : CorrectDevice env options first) (hup : env.upstream.UntilizeAgrees)
    (h : beforeDevice env files args = .ok (options, first))
    (hfile : options.inputFile = "") {q : Pattern} (hpattern : options.pattern = q.name)
    (hexact : q.isExact = true) (hseconds : ∀ i, FiniteDouble (env.device.seconds i)) :
    ∀ record ∈ (run env options first).1, record.Readable maxDigits doubleDigits := by
  intro record hrecord x hx
  obtain ⟨i, hi⟩ := List.mem_iff_getElem?.mp hrecord
  obtain ⟨p, input, m, words, hlaunched, hfirst, _, hlaunch⟩ := run_generated hup h hfile hi
  have hp : p.isExact = true := by
    have hinput := hlaunched.input
    cases i with
    | zero =>
      obtain rfl := Pattern.name_injective ((hfirst rfl).trans hpattern)
      exact hexact
    | succ i =>
      obtain ⟨previous, _, hnext⟩ := bind_eq_ok_iff.mp hinput
      obtain ⟨p', hp', hname, _⟩ := nextInput_generated h hnext
      obtain rfl := Pattern.name_injective hname
      rw [hp']
      split_ifs <;> rfl
  have hrecordExact : record.exact = true := by
    rw [hlaunch, launchRecord, emitResult, launchIsExact_name]
    exact hp
  rcases hcorrect.record_values hup h hfile hi hrecordExact hx with hvalue | ⟨n, hn, hvalue⟩
  · exact (hseconds i).readsBack hlimit hvalue.symm
  · exact (finiteDouble_natCast hn).readsBack hlimit hvalue.symm

/-- The records of every case from the kernels read back. -/
theorem kernelHost_readable (hlimit : DigitLimit maxDigits) {case : Case} (h : case.Valid) :
    ∀ record ∈ (main (kernelHost (.nearestEven binary64) case) (fun _ => none)
      (case.command none)).records, record.Readable maxDigits doubleDigits := by
  obtain ⟨first, hbefore, hcorrect, hrecords, _⟩ := exists_kernelHost_run (.nearestEven binary64) h
  rw [hrecords]
  exact hcorrect.record_readable hlimit rfl projectUpstream_untilizeAgrees hbefore rfl fun _ =>
    finiteDouble_natCast (Nat.zero_le 128)

/-- So do those of an exact pattern over exact rationals. -/
theorem kernelHost_exact_readable (hlimit : DigitLimit maxDigits) {case : Case} (h : case.Valid)
    {q : Pattern} (hpattern : case.pattern = q.name) (hexact : q.isExact = true) :
    ∀ record ∈ (main (kernelHost (.exact binary64) case) (fun _ => none)
      (case.command none)).records, record.Readable maxDigits doubleDigits := by
  obtain ⟨first, hbefore, hcorrect, hrecords, _⟩ := exists_kernelHost_run (.exact binary64) h
  rw [hrecords]
  exact hcorrect.exact_readable hlimit projectUpstream_untilizeAgrees hbefore rfl
    (((h.requests none).pattern).symm.trans hpattern) hexact fun _ =>
    finiteDouble_natCast (Nat.zero_le 128)

end Run

end RowReduce
