import Mathlib.Data.List.Range
import Mathlib.Data.List.Nodup
import Mathlib.Data.List.ProdSigma
import Mathlib.Tactic

/-!
# Row-major loops over a grid

The positions of a double loop in the order it visits them, and what a loop
leaves behind: one that writes through an index map, one that appends, and one
that checks every position before it updates.
-/

namespace Grid

variable {α β ι ε : Type}

/-- The positions of `for row: for col:` in loop order. -/
def positions (rows cols : ℕ) : List (ℕ × ℕ) :=
  (List.range rows).flatMap fun row => (List.range cols).map fun col => (row, col)

/-- The positions are those in range. -/
@[simp] theorem mem_positions {rows cols : ℕ} {p : ℕ × ℕ} :
    p ∈ positions rows cols ↔ p.1 < rows ∧ p.2 < cols := by
  obtain ⟨r, c⟩ := p
  simp [positions]

private theorem positions_eq_product (rows cols : ℕ) :
    positions rows cols = List.range rows ×ˢ List.range cols := rfl

/-- A grid has its rows times its columns of positions. -/
@[simp] theorem length_positions (rows cols : ℕ) : (positions rows cols).length = rows * cols := by
  simp [positions_eq_product, List.length_product]

/-- No position is listed twice. -/
theorem nodup_positions (rows cols : ℕ) : (positions rows cols).Nodup :=
  List.nodup_range.product List.nodup_range

private theorem positions_succ (rows cols : ℕ) : positions (rows + 1) cols =
    positions rows cols ++ (List.range cols).map fun col => (rows, col) := by
  simp [positions, List.range_succ, List.flatMap_append]

/-- Loop order is row-major order. -/
theorem positions_eq_map_range (rows cols : ℕ) :
    positions rows cols = (List.range (rows * cols)).map fun k => (k / cols, k % cols) := by
  induction rows with
  | zero => simp [positions]
  | succ rows ih =>
    rw [positions_succ, ih, Nat.succ_mul, List.range_add, List.map_append, List.map_map]
    congr 1
    apply List.map_congr_left
    intro c hc
    have hc := List.mem_range.mp hc
    have hpos : 0 < cols := by omega
    simp only [Function.comp_apply, Prod.mk.injEq]
    constructor
    · rw [Nat.mul_comm, Nat.mul_add_div hpos, Nat.div_eq_of_lt hc, Nat.add_zero]
    · rw [Nat.mul_comm, Nat.mul_add_mod, Nat.mod_eq_of_lt hc]

/-- A row-major index is in range. -/
theorem rowMajor_lt {rows cols r c : ℕ} (hr : r < rows) (hc : c < cols) :
    r * cols + c < rows * cols := by
  calc r * cols + c < (r + 1) * cols := by rw [Nat.succ_mul]; omega
    _ ≤ rows * cols := Nat.mul_le_mul_right _ hr

/-- The row of a row-major index. -/
theorem rowMajor_div {cols r c : ℕ} (hc : c < cols) : (r * cols + c) / cols = r := by
  rw [Nat.mul_comm, Nat.mul_add_div (by omega), Nat.div_eq_of_lt hc, Nat.add_zero]

/-- The column of a row-major index. -/
theorem rowMajor_mod {cols r c : ℕ} (hc : c < cols) : (r * cols + c) % cols = c := by
  rw [Nat.mul_comm, Nat.mul_add_mod, Nat.mod_eq_of_lt hc]

/-- A row-major index determines its position. -/
theorem rowMajor_injective {cols r c r' c' : ℕ} (hc : c < cols) (hc' : c' < cols)
    (h : r * cols + c = r' * cols + c') : r = r' ∧ c = c' := by
  have h1 := congrArg (· / cols) h
  have h2 := congrArg (· % cols) h
  simp only [rowMajor_div hc, rowMajor_div hc', rowMajor_mod hc, rowMajor_mod hc'] at h1 h2
  exact ⟨h1, h2⟩

/-- The value a loop produces for a position stands at the row-major index. -/
theorem getElem?_map_positions {rows cols r c : ℕ} (hr : r < rows) (hc : c < cols)
    (g : ℕ × ℕ → α) : ((positions rows cols).map g)[r * cols + c]? = some (g (r, c)) := by
  rw [positions_eq_map_range, List.map_map, List.getElem?_map,
    List.getElem?_range (rowMajor_lt hr hc)]
  simp [rowMajor_div hc, rowMajor_mod hc]

/-- Two grids that agree at every position are equal. -/
theorem eq_map_positions {rows cols : ℕ} {l : List α} (g : ℕ × ℕ → α)
    (hlen : l.length = rows * cols)
    (h : ∀ r c, r < rows → c < cols → l[r * cols + c]? = some (g (r, c))) :
    l = (positions rows cols).map g := by
  apply List.ext_getElem?
  intro i
  by_cases hi : i < rows * cols
  · have hpos : 0 < cols := Nat.pos_of_ne_zero (by rintro rfl; simp at hi)
    have hr : i / cols < rows := Nat.div_lt_of_lt_mul (by rwa [Nat.mul_comm])
    have hc : i % cols < cols := Nat.mod_lt _ hpos
    have he : i / cols * cols + i % cols = i := Nat.div_add_mod' i cols
    rw [← he, h _ _ hr hc, getElem?_map_positions hr hc]
  · rw [List.getElem?_eq_none (by omega), List.getElem?_eq_none (by simp; omega)]

/-- Setting entries keeps the length. -/
@[simp] theorem length_foldl_set (l : List ι) (index : ι → ℕ) (value : ι → α) (init : List α) :
    (l.foldl (fun acc i => acc.set (index i) (value i)) init).length = init.length := by
  induction l generalizing init with
  | nil => rfl
  | cons i l ih => simp [ih]

/-- A position no write targets keeps its initial value. -/
theorem getElem?_foldl_set_of_forall_ne {l : List ι} {index : ι → ℕ} (value : ι → α)
    (init : List α) {k : ℕ} (h : ∀ i ∈ l, index i ≠ k) :
    (l.foldl (fun acc i => acc.set (index i) (value i)) init)[k]? = init[k]? := by
  induction l generalizing init with
  | nil => rfl
  | cons i l ih =>
    rw [List.foldl_cons, ih _ fun j hj => h j (List.mem_cons_of_mem _ hj),
      List.getElem?_set_ne (h i List.mem_cons_self)]

/-- Distinct targets: every written position holds the value written for it. -/
theorem getElem?_foldl_set {l : List ι} (index : ι → ℕ) (value : ι → α) (init : List α)
    (hnodup : l.Nodup) (hinj : ∀ i ∈ l, ∀ j ∈ l, index i = index j → i = j) {i : ι} (hi : i ∈ l)
    (hlt : index i < init.length) :
    (l.foldl (fun acc i => acc.set (index i) (value i)) init)[index i]? = some (value i) := by
  induction l generalizing init with
  | nil => simp at hi
  | cons j l ih =>
    obtain ⟨hj, hl⟩ := List.nodup_cons.mp hnodup
    rw [List.foldl_cons]
    rcases List.mem_cons.mp hi with rfl | hi
    · rw [getElem?_foldl_set_of_forall_ne, List.getElem?_set_self hlt]
      intro k hk he
      have := hinj k (List.mem_cons_of_mem _ hk) i List.mem_cons_self he
      exact hj (this ▸ hk)
    · exact ih _ hl (fun a ha b hb => hinj a (List.mem_cons_of_mem _ ha) b
        (List.mem_cons_of_mem _ hb)) hi (by simpa using hlt)

/-- A loop that writes each position's value at its row-major index fills the grid in order. -/
theorem foldl_set_rowMajor (rows cols : ℕ) (value : ℕ × ℕ → α) {init : List α}
    (hlen : init.length = rows * cols) :
    (positions rows cols).foldl (fun acc p => acc.set (p.1 * cols + p.2) (value p)) init =
      (positions rows cols).map value := by
  apply eq_map_positions
  · simp [hlen]
  · intro r c hr hc
    refine getElem?_foldl_set (fun p : ℕ × ℕ => p.1 * cols + p.2) value init
      (nodup_positions rows cols) ?_ (i := (r, c)) (mem_positions.mpr ⟨hr, hc⟩)
      (by rw [hlen]; exact rowMajor_lt hr hc)
    intro p hp q hq h
    obtain ⟨h1, h2⟩ := rowMajor_injective (mem_positions.mp hp).2 (mem_positions.mp hq).2 h
    exact Prod.ext h1 h2

/-- A loop that fills a list through distinct indices leaves the list of written values. -/
theorem foldl_set_eq_map_range {l : List ι} (index : ι → ℕ) (value : ι → α) {init : List α}
    (hnodup : l.Nodup) (hinj : ∀ i ∈ l, ∀ j ∈ l, index i = index j → i = j) {n : ℕ}
    (hlen : init.length = n) (g : ℕ → α)
    (hcover : ∀ k < n, ∃ i ∈ l, index i = k ∧ value i = g k) :
    l.foldl (fun acc i => acc.set (index i) (value i)) init = (List.range n).map g := by
  apply List.ext_getElem?
  intro k
  by_cases hk : k < n
  · obtain ⟨i, hi, rfl, hv⟩ := hcover k hk
    rw [getElem?_foldl_set index value init hnodup hinj hi (by omega), List.getElem?_map,
      List.getElem?_range hk, hv]
    rfl
  · rw [List.getElem?_eq_none (by simp; omega), List.getElem?_eq_none (by simp; omega)]

/-- A key no update targets keeps its initial value. -/
theorem foldl_update_of_forall_ne {κ : Type} [DecidableEq κ] {key : ι → κ} {value : ι → α}
    {l : List ι} {init : κ → α} {k : κ} (h : ∀ i ∈ l, key i ≠ k) :
    l.foldl (fun f i => Function.update f (key i) (value i)) init k = init k := by
  induction l generalizing init with
  | nil => rfl
  | cons i l ih =>
    rw [List.foldl_cons, ih fun j hj => h j (List.mem_cons_of_mem _ hj),
      Function.update_of_ne (h i List.mem_cons_self).symm]

/-- Distinct keys: every updated key holds the value of its update. -/
theorem foldl_update_of_mem {κ : Type} [DecidableEq κ] (key : ι → κ) (value : ι → α) {l : List ι}
    (init : κ → α) (hnodup : (l.map key).Nodup) {i : ι} (hi : i ∈ l) :
    l.foldl (fun f i => Function.update f (key i) (value i)) init (key i) = value i := by
  induction l generalizing init with
  | nil => simp at hi
  | cons j l ih =>
    obtain ⟨hj, hl⟩ := List.nodup_cons.mp hnodup
    rw [List.foldl_cons]
    rcases List.mem_cons.mp hi with rfl | hi
    · rw [foldl_update_of_forall_ne, Function.update_self]
      exact fun k hk he => hj (List.mem_map.mpr ⟨k, hk, he⟩)
    · exact ih _ hl hi

/-- Repeated updates of one row compose. -/
theorem foldl_modify_same (l : List ι) (row : ℕ) (g : ι → α → α) (init : List α) :
    l.foldl (fun acc i => acc.modify row (g i)) init =
      init.modify row fun x => l.foldl (fun x i => g i x) x := by
  induction l generalizing init with
  | nil => exact (List.modify_id row init).symm
  | cons i l ih => rw [List.foldl_cons, ih, List.modify_modify_eq]; rfl

private theorem modify_append_cons {l : List α} {n : ℕ} (hl : l.length = n) (a : α) (t : List α)
    (g : α → α) : (l ++ a :: t).modify n g = l ++ g a :: t := by
  subst hl
  induction l with
  | nil => rfl
  | cons b l ih => simp [ih]

/-- A loop that accumulates into the current row leaves each row its own fold. -/
theorem foldl_modify_positions (rows cols : ℕ) (g : ℕ × ℕ → α → α) (a : α) :
    (positions rows cols).foldl (fun acc p => acc.modify p.1 (g p)) (List.replicate rows a) =
      (List.range rows).map fun row => (List.range cols).foldl (fun x col => g (row, col) x) a := by
  have key : ∀ n, n ≤ rows →
      (positions n cols).foldl (fun acc p => acc.modify p.1 (g p)) (List.replicate rows a) =
        ((List.range n).map fun row => (List.range cols).foldl (fun x col => g (row, col) x) a) ++
          List.replicate (rows - n) a := by
    intro n
    induction n with
    | zero => simp [positions]
    | succ n ih =>
      intro hn
      rw [positions_succ, List.foldl_append, ih (by omega), List.foldl_map,
        foldl_modify_same (List.range cols) n fun col => g (n, col),
        show rows - n = rows - (n + 1) + 1 by omega, List.replicate_succ,
        modify_append_cons (by simp)]
      simp [List.range_succ]
  simpa using key rows le_rfl

/-- A loop that checks each position before a pure update is all its checks, then the update. -/
theorem foldlM_check (l : List ι) (check : ι → Except ε Unit) (g : β → ι → β) (init : β) :
    l.foldlM (fun acc i => do check i; pure (g acc i)) init =
      (do forM l check; pure (l.foldl g init) : Except ε β) := by
  induction l generalizing init with
  | nil => rfl
  | cons i l ih =>
    rw [List.foldlM_cons, List.forM_cons]
    cases check i with
    | error e => rfl
    | ok u => exact ih _

/-- A loop of checks passes where each check does. -/
theorem forM_eq_ok_iff {l : List ι} {check : ι → Except ε Unit} :
    forM l check = .ok () ↔ ∀ i ∈ l, check i = .ok () := by
  induction l with
  | nil => simp [pure, Except.pure]
  | cons i l ih =>
    rw [List.forM_cons, List.forall_mem_cons, ← ih]
    cases check i <;> simp [bind, Except.bind]

end Grid
