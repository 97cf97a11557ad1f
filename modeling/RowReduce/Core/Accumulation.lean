import RowReduce.Core.FloatArithmetic

/-!
# Accumulation in any order

A sum is a binary tree over its terms: its shape is the association, its leaves
are the order. On a grid that fits the significand no tree rounds; in general the
relative errors collected by each term are bounded by Higham's product lemma.
-/

namespace BinaryFloat

/-- One way to add up terms, by order and association. -/
inductive SumTree (α : Type) where
  | leaf (term : α)
  | add (left right : SumTree α)
  deriving DecidableEq, Repr

namespace SumTree

variable {α β : Type}

/-- The terms in the order they are added. -/
def terms : SumTree α → List α
  | leaf term => [term]
  | add left right => left.terms ++ right.terms

/-- The result under a given addition. -/
def computed (plus : β → β → β) (value : α → β) : SumTree α → β
  | leaf term => value term
  | add left right => plus (left.computed plus value) (right.computed plus value)

/-- The exact sum. -/
def sum (t : SumTree ℚ) : ℚ := t.terms.sum

@[simp] theorem terms_leaf (term : α) : (leaf term).terms = [term] := rfl

@[simp] theorem terms_add (left right : SumTree α) :
    (add left right).terms = left.terms ++ right.terms := rfl

@[simp] theorem sum_leaf (q : ℚ) : (leaf q).sum = q := by simp [sum]

@[simp] theorem sum_add (left right : SumTree ℚ) : (add left right).sum = left.sum + right.sum := by
  simp [sum]

/-- A tree over some of the terms, each used at most once, zeros added at will. -/
def Over (t : SumTree ℚ) (terms : List ℚ) : Prop :=
  ∃ zeros, t.terms.Subperm (terms ++ List.replicate zeros 0)

/-- A tree over some terms has at most as many nonzero leaves as there are terms. -/
theorem Over.countP_le {t : SumTree ℚ} {terms : List ℚ} (h : t.Over terms) :
    t.terms.countP (fun q => q ≠ 0) ≤ terms.length := by
  obtain ⟨zeros, h⟩ := h
  calc t.terms.countP (fun q => q ≠ 0)
      ≤ (terms ++ List.replicate zeros 0).countP (fun q => q ≠ 0) := h.countP_le _
    _ = terms.countP (fun q => q ≠ 0) := by simp [List.countP_append, List.countP_replicate]
    _ ≤ terms.length := List.countP_le_length

/-- What holds of zero and of the terms holds of every leaf over them. -/
theorem Over.forall_mem {t : SumTree ℚ} {terms : List ℚ} (h : t.Over terms) {P : ℚ → Prop}
    (hzero : P 0) (hterms : ∀ q ∈ terms, P q) : ∀ q ∈ t.terms, P q := by
  obtain ⟨zeros, h⟩ := h
  intro q hq
  rcases List.mem_append.mp (h.subset hq) with hq | hq
  · exact hterms q hq
  · rwa [List.eq_of_mem_replicate hq]

end SumTree

namespace OnGrid

variable {e : ℤ} {a : ℕ}

/-- Zero terms do not widen the sum of grid values. -/
theorem sum_countP {l : List ℚ} (hl : ∀ q ∈ l, OnGrid e a q) :
    OnGrid e (l.countP (fun q => q ≠ 0) * a) l.sum := by
  induction l with
  | nil => simpa using zero
  | cons q l ih =>
    have hrest := ih fun r hr => hl r (List.mem_cons_of_mem _ hr)
    by_cases hq : q = 0
    · simpa [hq] using hrest
    · rw [List.countP_cons_of_pos (by simpa using hq), List.sum_cons, Nat.succ_mul, Nat.add_comm]
      exact (hl q List.mem_cons_self).add hrest

/-- Every tree over grid terms has a grid sum. -/
theorem sumTree {t : SumTree ℚ} (ht : ∀ q ∈ t.terms, OnGrid e a q) :
    OnGrid e (t.terms.countP (fun q => q ≠ 0) * a) t.sum := sum_countP ht

/-- No order or association of a fitting sum rounds. -/
theorem computed_sumTree {f : BinaryFormat} (rd : Rounding f) (he : f.minExponent ≤ e)
    {t : SumTree ℚ} (ht : ∀ q ∈ t.terms, OnGrid e a q)
    (hb : t.terms.countP (fun q => q ≠ 0) * a < 2 ^ f.precision) :
    t.computed (FloatValue.add rd) .finite = .finite t.sum := by
  induction t with
  | leaf q => simp [SumTree.computed]
  | add left right ihl ihr =>
    have hsum := (sumTree ht).representable hb he
    simp only [SumTree.terms_add, List.mem_append, List.countP_append, Nat.add_mul] at ht hb
    have hl := ihl (fun q hq => ht q (Or.inl hq)) (by omega)
    have hr := ihr (fun q hq => ht q (Or.inr hq)) (by omega)
    rw [SumTree.computed, hl, hr, FloatValue.add_finite, ← SumTree.sum_add, rd.representable hsum]

end OnGrid

section Factors

variable {K : Type*} [Field K]

/-- The factor a term collects from the rounded operations it takes part in. -/
def roundingFactor (ds : List K) : K := (ds.map fun d => 1 + d).prod

/-- The bound `n u / (1 - n u)` on the error of `n` factors. -/
def gamma (u : K) (n : ℕ) : K := n * u / (1 - n * u)

/-- The sum of terms that carry their factors. -/
def computedSum (terms : List (K × List K)) : K :=
  (terms.map fun t => t.1 * roundingFactor t.2).sum

@[simp] theorem roundingFactor_nil : roundingFactor ([] : List K) = 1 := by simp [roundingFactor]

@[simp] theorem roundingFactor_cons (d : K) (ds : List K) :
    roundingFactor (d :: ds) = (1 + d) * roundingFactor ds := by simp [roundingFactor]

variable [LinearOrder K] [IsStrictOrderedRing K] {u : K} {ds : List K}

/-- Factors lose at most one `u` each. -/
theorem one_sub_le_roundingFactor (hd : ∀ d ∈ ds, |d| ≤ u) (hu : ds.length * u < 1) (hu0 : 0 ≤ u) :
    1 - ds.length * u ≤ roundingFactor ds := by
  induction ds with
  | nil => simp
  | cons d ds ih =>
    rw [List.length_cons, Nat.cast_succ, add_one_mul] at hu ⊢
    have hrest := ih (fun e he => hd e (List.mem_cons_of_mem _ he)) (by linarith)
    have hlow := (abs_le.mp (hd d List.mem_cons_self)).1
    have hlen : 0 ≤ (ds.length : K) * u := mul_nonneg (Nat.cast_nonneg _) hu0
    rw [roundingFactor_cons]
    calc 1 - (ds.length * u + u) ≤ (1 - u) * (1 - ds.length * u) := by
          have := mul_nonneg hu0 hlen
          linarith [this, mul_comm u ((ds.length : K) * u)]
      _ ≤ (1 + d) * roundingFactor ds :=
          mul_le_mul (by linarith) hrest (by linarith) (by linarith)

/-- Factors gain at most the reciprocal. -/
theorem roundingFactor_mul_le (hd : ∀ d ∈ ds, |d| ≤ u) (hu : ds.length * u < 1) (hu0 : 0 ≤ u) :
    roundingFactor ds * (1 - ds.length * u) ≤ 1 := by
  induction ds with
  | nil => simp
  | cons d ds ih =>
    have hlow := one_sub_le_roundingFactor (fun e he => hd e (List.mem_cons_of_mem _ he))
      (by rw [List.length_cons, Nat.cast_succ, add_one_mul] at hu; linarith) hu0
    rw [List.length_cons, Nat.cast_succ, add_one_mul] at hu ⊢
    have hrest := ih (fun e he => hd e (List.mem_cons_of_mem _ he)) (by linarith)
    have hhigh := (abs_le.mp (hd d List.mem_cons_self)).2
    have hlen : 0 ≤ (ds.length : K) * u := mul_nonneg (Nat.cast_nonneg _) hu0
    have hpos : 0 ≤ roundingFactor ds := by linarith
    have hone : (1 + d) * (1 - (ds.length * u + u)) ≤ 1 - ds.length * u := by
      have h1 : (1 + d) * (1 - (ds.length * u + u)) ≤ (1 + u) * (1 - (ds.length * u + u)) :=
        mul_le_mul_of_nonneg_right (by linarith) (by linarith)
      have h2 : (1 + u) * (1 - (ds.length * u + u)) =
          1 - ds.length * u - (u * (ds.length * u) + u * u) := by ring
      have h3 := mul_nonneg hu0 hlen
      have h4 := mul_nonneg hu0 hu0
      linarith
    calc roundingFactor (d :: ds) * (1 - (ds.length * u + u))
        = roundingFactor ds * ((1 + d) * (1 - (ds.length * u + u))) := by
          rw [roundingFactor_cons]
          ring
      _ ≤ roundingFactor ds * (1 - ds.length * u) := mul_le_mul_of_nonneg_left hone hpos
      _ ≤ 1 := hrest

/-- More roundings have a larger bound. -/
theorem gamma_mono {m n : ℕ} (h : m ≤ n) (hu : n * u < 1) (hu0 : 0 ≤ u) :
    gamma u m ≤ gamma u n := by
  have hmn : (m : K) * u ≤ n * u := mul_le_mul_of_nonneg_right (Nat.cast_le.mpr h) hu0
  exact div_le_div₀ (mul_nonneg (Nat.cast_nonneg n) hu0) hmn (by linarith) (by linarith)

/-- Higham's product lemma: the factors of one term stay within `gamma` of one. -/
theorem abs_roundingFactor_sub_one_le (hd : ∀ d ∈ ds, |d| ≤ u) (hu : ds.length * u < 1)
    (hu0 : 0 ≤ u) : |roundingFactor ds - 1| ≤ gamma u ds.length := by
  have hlow := one_sub_le_roundingFactor hd hu hu0
  have hhigh := roundingFactor_mul_le hd hu hu0
  have hpos : 0 < 1 - ds.length * u := by linarith
  have hlen : 0 ≤ (ds.length : K) * u := mul_nonneg (Nat.cast_nonneg _) hu0
  have hle : (ds.length : K) * u ≤ gamma u ds.length := by
    rw [gamma, le_div_iff₀ hpos]
    exact mul_le_of_le_one_right hlen (by linarith)
  rw [abs_le]
  constructor
  · linarith
  · rw [gamma, le_div_iff₀ hpos]
    linarith

/-- The accumulated error is bounded by the magnitudes, whatever cancels. -/
theorem abs_computedSum_sub_le {n : ℕ} {terms : List (K × List K)}
    (hlen : ∀ t ∈ terms, t.2.length ≤ n) (hd : ∀ t ∈ terms, ∀ d ∈ t.2, |d| ≤ u) (hu : n * u < 1)
    (hu0 : 0 ≤ u) : |computedSum terms - (terms.map Prod.fst).sum| ≤
      gamma u n * ((terms.map Prod.fst).map abs).sum := by
  induction terms with
  | nil => simp [computedSum]
  | cons t terms ih =>
    have hrest := ih (fun s hs => hlen s (List.mem_cons_of_mem _ hs))
      fun s hs => hd s (List.mem_cons_of_mem _ hs)
    have hn := hlen t List.mem_cons_self
    have hcast : (t.2.length : K) * u ≤ n * u :=
      mul_le_mul_of_nonneg_right (Nat.cast_le.mpr hn) hu0
    have hterm : |t.1 * roundingFactor t.2 - t.1| ≤ gamma u n * |t.1| := by
      calc |t.1 * roundingFactor t.2 - t.1| = |t.1| * |roundingFactor t.2 - 1| := by
            rw [← abs_mul, mul_sub, mul_one]
        _ ≤ |t.1| * gamma u n := by
            gcongr
            exact (abs_roundingFactor_sub_one_le (hd t List.mem_cons_self) (by linarith) hu0).trans
              (gamma_mono hn hu hu0)
        _ = gamma u n * |t.1| := mul_comm _ _
    simp only [computedSum, List.map_cons, List.sum_cons] at hrest ⊢
    calc |t.1 * roundingFactor t.2 + (terms.map fun s => s.1 * roundingFactor s.2).sum -
            (t.1 + (terms.map Prod.fst).sum)|
        = |(t.1 * roundingFactor t.2 - t.1) + ((terms.map fun s => s.1 * roundingFactor s.2).sum -
            (terms.map Prod.fst).sum)| := by congr 1; ring
      _ ≤ gamma u n * |t.1| + gamma u n * ((terms.map Prod.fst).map abs).sum :=
          (abs_add_le _ _).trans (add_le_add hterm hrest)
      _ = gamma u n * (|t.1| + ((terms.map Prod.fst).map abs).sum) := by ring

/-- A last relative error adds its share of the sum and a cross term. -/
theorem abs_mul_one_add_sub_le {c s b e v : K} (hc : |c - s| ≤ b) (he : |e| ≤ v) :
    |c * (1 + e) - s| ≤ v * |s| + (1 + v) * b := by
  have hv : 0 ≤ v := (abs_nonneg e).trans he
  have hone : |1 + e| ≤ 1 + v := (abs_add_le 1 e).trans (by rw [abs_one]; linarith)
  calc |c * (1 + e) - s| = |s * e + (1 + e) * (c - s)| := by congr 1; ring
    _ ≤ |s| * |e| + |1 + e| * |c - s| := by
        rw [← abs_mul, ← abs_mul]
        exact abs_add_le _ _
    _ ≤ |s| * v + (1 + v) * b :=
        add_le_add (mul_le_mul_of_nonneg_left he (abs_nonneg s))
          (mul_le_mul hone hc (abs_nonneg _) (by linarith))
    _ = v * |s| + (1 + v) * b := by ring

end Factors

end BinaryFloat
