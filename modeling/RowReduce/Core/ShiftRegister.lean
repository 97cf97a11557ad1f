import Mathlib.Tactic

/-!
# Shift registers and their in-place refill

A shift register drops its oldest word and appends the feedback of the whole
window. Refilling an array word by word in place, reading the later positions
cyclically, advances the register by its full length.
-/

namespace ShiftRegister

variable {α β : Type}

/-- One step: the oldest word leaves, the feedback enters. -/
def shift (feedback : List α → α) (window : List α) : List α :=
  window.tail ++ [feedback window]

/-- The in-place loop: position `i` is overwritten with the feedback of the array read from `i`. -/
def refill (feedback : List α → α) (count : ℕ) (state : List α) : List α :=
  (List.range count).foldl (fun state i => state.set i (feedback (state.rotate i))) state

variable {feedback : List α → α} {window : List α}

/-- A shift keeps the length of the window. -/
theorem length_shift (h : window ≠ []) : (shift feedback window).length = window.length := by
  have := List.length_pos_of_ne_nil h
  simp only [shift, List.length_append, List.length_tail, List.length_singleton]
  omega

private theorem length_shift_iterate (k : ℕ) (h : window ≠ []) :
    ((shift feedback)^[k] window).length = window.length := by
  induction k with
  | zero => rfl
  | succ k ih =>
    rw [Function.iterate_succ_apply', length_shift, ih]
    intro hnil
    rw [hnil] at ih
    exact h (List.length_eq_zero_iff.mp ih.symm)

/-- A register maps to a register where the feedbacks agree. -/
theorem shift_map {feedback' : List β → β} {g : α → β}
    (h : feedback' (window.map g) = g (feedback window)) :
    shift feedback' (window.map g) = (shift feedback window).map g := by
  rw [shift, shift, h, List.map_append, List.map_tail, List.map_singleton]

/-- Windows that correspond stay so over any number of shifts. -/
theorem shift_iterate_map {feedback' : List β → β} {g : α → β} {n : ℕ} (hn : n ≠ 0)
    (h : ∀ w : List α, w.length = n → feedback' (w.map g) = g (feedback w)) (k : ℕ)
    (hw : window.length = n) :
    (shift feedback')^[k] (window.map g) = ((shift feedback)^[k] window).map g := by
  have hne : window ≠ [] := List.ne_nil_of_length_pos (by omega)
  induction k with
  | zero => rfl
  | succ k ih =>
    rw [Function.iterate_succ_apply', Function.iterate_succ_apply', ih,
      shift_map (h _ ((length_shift_iterate k hne).trans hw))]

/-- After `k` steps the register holds its remaining words and the `k` new ones. -/
theorem shift_iterate_eq {k : ℕ} (hk : k ≤ window.length) :
    (shift feedback)^[k] window = window.drop k ++
      (List.range k).map fun i => feedback ((shift feedback)^[i] window) := by
  induction k with
  | zero => simp
  | succ k ih =>
    have hne : window.drop k ≠ [] := by
      rw [Ne, List.drop_eq_nil_iff]
      omega
    rw [Function.iterate_succ_apply', shift, ih (by omega), List.tail_append_of_ne_nil hne,
      List.tail_drop, ← ih (by omega), List.range_succ, List.map_append, List.append_assoc]
    rfl

/-- The oldest of the words entered within the last full length. -/
theorem getElem?_shift_iterate {k : ℕ} (hk : 0 < k) (hle : k ≤ window.length) :
    ((shift feedback)^[k] window)[window.length - k]? = some (feedback window) := by
  obtain ⟨k, rfl⟩ : ∃ j, k = j + 1 := ⟨k - 1, by omega⟩
  rw [shift_iterate_eq hle, List.getElem?_append_right (by simp), List.length_drop, Nat.sub_self,
    List.getElem?_map, List.getElem?_range (by omega)]
  rfl

/-- Overwriting the word the reading position is at moves the register one step on. -/
theorem rotate_set_succ {state : List α} {i : ℕ} (hi : i < state.length) (a : α) :
    (state.set i a).rotate (i + 1) = (state.rotate i).tail ++ [a] := by
  obtain ⟨front, b, rest, rfl, rfl⟩ : ∃ front b rest, state = front ++ b :: rest ∧
      i = front.length := by
    refine ⟨state.take i, state[i], state.drop (i + 1), ?_, ?_⟩
    · rw [← List.drop_eq_getElem_cons hi, List.take_append_drop]
    · rw [List.length_take, min_eq_left hi.le]
  have hset : (front ++ b :: rest).set front.length a = (front ++ [a]) ++ rest := by simp
  have hlen : front.length + 1 = (front ++ [a]).length := by simp
  rw [hset, hlen, List.rotate_append_length_eq, List.rotate_append_length_eq, List.cons_append,
    List.tail_cons, List.append_assoc]

/-- The refilled prefix and the unread rest, read cyclically, are the shifted register. -/
theorem refill_rotate {state : List α} {count : ℕ} (h : count ≤ state.length) :
    (refill feedback count state).length = state.length ∧
      (refill feedback count state).rotate count = (shift feedback)^[count] state := by
  induction count with
  | zero => simp [refill]
  | succ count ih =>
    obtain ⟨hlen, hrot⟩ := ih (by omega)
    have hstep : refill feedback (count + 1) state = (refill feedback count state).set count
        (feedback ((refill feedback count state).rotate count)) := by
      rw [refill, List.range_succ, List.foldl_append]
      rfl
    refine ⟨by rw [hstep, List.length_set, hlen], ?_⟩
    rw [hstep, rotate_set_succ (by omega), hrot, Function.iterate_succ_apply', shift]

/-- A full refill is as many register steps as there are words. -/
theorem refill_length (state : List α) :
    refill feedback state.length state = (shift feedback)^[state.length] state := by
  obtain ⟨hlen, hrot⟩ := @refill_rotate _ feedback state _ le_rfl
  calc refill feedback state.length state
      = (refill feedback state.length state).rotate (refill feedback state.length state).length :=
        (List.rotate_length _).symm
    _ = (shift feedback)^[state.length] state := by rw [hlen, hrot]

end ShiftRegister
