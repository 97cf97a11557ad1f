import RowReduce.Correctness.MersenneTwister

/-!
# The standard sequence

The runner's generator yields the tempered words of the standard recurrence from
its 624th word on, and all words of its state stay below `2 ^ 32`.
-/

namespace RowReduce

open Fallible ShiftRegister

/-- The upper bit of one word joined to the lower bits of the next, and twisted. -/
def mtTwist (upper lower : ℕ) : ℕ :=
  let joined := (upper &&& 0x80000000) ||| (lower &&& 0x7fffffff)
  (joined >>> 1) ^^^ (if joined &&& 1 = 0 then 0 else 0x9908b0df)

/-- The words of the standard sequence: 624 from the seed, the others by the recurrence. -/
def mtWord (seed : ℕ) : ℕ → ℕ
  | 0 => seed
  | n + 1 =>
    if 623 ≤ n then
      mtWord seed (n + 1 - 227) ^^^ mtTwist (mtWord seed (n + 1 - 624)) (mtWord seed (n + 1 - 623))
    else (1812433253 * (mtWord seed n ^^^ (mtWord seed n >>> 30)) + (n + 1)) % 2 ^ 32
termination_by n => n

private theorem mtWord_zero (seed : ℕ) : mtWord seed 0 = seed := by
  rw [mtWord]

private theorem mtWord_succ {n : ℕ} (seed : ℕ) (h : n < 623) : mtWord seed (n + 1) =
    (1812433253 * (mtWord seed n ^^^ (mtWord seed n >>> 30)) + (n + 1)) % 2 ^ 32 := by
  rw [mtWord, if_neg (by omega)]

private theorem mtWord_succ_of_le {n : ℕ} (seed : ℕ) (h : 623 ≤ n) : mtWord seed (n + 1) =
    mtWord seed (n + 1 - 227) ^^^
      mtTwist (mtWord seed (n + 1 - 624)) (mtWord seed (n + 1 - 623)) := by
  rw [mtWord, if_pos h]

/-- The recurrence over one whole state. -/
theorem mtWord_add (seed k : ℕ) : mtWord seed (k + 624) =
    mtWord seed (k + 397) ^^^ mtTwist (mtWord seed k) (mtWord seed (k + 1)) := by
  obtain ⟨n, hn⟩ : ∃ n, n = k + 623 := ⟨_, rfl⟩
  have hword := mtWord_succ_of_le (n := n) seed (by omega)
  rwa [show n + 1 = k + 624 by omega, show k + 624 - 227 = k + 397 by omega,
    show k + 624 - 624 = k by omega, show k + 624 - 623 = k + 1 by omega] at hword

/-- The 624 words from position `n` on. -/
def mtWindow (seed n : ℕ) : List ℕ := (List.range 624).map fun i => mtWord seed (n + i)

/-- A window holds consecutive words. -/
theorem getD_mtWindow (seed n : ℕ) {i : ℕ} (h : i < 624) :
    (mtWindow seed n).getD i 0 = mtWord seed (n + i) := by
  rw [mtWindow, List.getD_eq_getElem?_getD, List.getElem?_map, List.getElem?_range h]
  rfl

/-- The feedback of a window is the next word. -/
theorem pyFeedback_mtWindow (seed n : ℕ) :
    pyFeedback (mtWindow seed n) = mtWord seed (n + 624) := by
  simp only [pyFeedback]
  rw [getD_mtWindow seed n (by norm_num), getD_mtWindow seed n (by norm_num),
    getD_mtWindow seed n (by norm_num), mtWord_add, mtTwist, Nat.xor_assoc]
  rfl

/-- A shift of a window is the next one. -/
theorem shift_mtWindow (seed n : ℕ) :
    shift pyFeedback (mtWindow seed n) = mtWindow seed (n + 1) := by
  have htail : (mtWindow seed n).tail = (List.range 623).map fun i => mtWord seed (n + 1 + i) := by
    rw [mtWindow, List.range_succ_eq_map, List.map_cons, List.tail_cons, List.map_map]
    refine List.map_congr_left fun i _ => ?_
    rw [Function.comp_apply, Nat.succ_eq_add_one, ← Nat.add_assoc, Nat.add_right_comm]
  have hlast : n + 1 + 623 = n + 624 := by omega
  rw [shift, pyFeedback_mtWindow, htail, mtWindow, List.range_succ (n := 623), List.map_append,
    List.map_singleton, hlast]

/-- The seeded words are the first window. -/
theorem pySeedWords_eq (seed : ℤ) :
    pySeedWords seed = mtWindow (seed % 2 ^ 32).toNat 0 := by
  have hfold : ∀ k ≤ 623, (List.range' 1 k).foldl pySeedStep [(seed % 2 ^ 32).toNat] =
      (List.range (k + 1)).map (mtWord (seed % 2 ^ 32).toNat) := by
    intro k hk
    induction k with
    | zero => simp [mtWord_zero]
    | succ k ih =>
      have hlast : ((List.range (k + 1)).map (mtWord (seed % 2 ^ 32).toNat)).getLastD 0 =
          mtWord (seed % 2 ^ 32).toNat k := by
        rw [List.range_succ, List.map_append, List.map_singleton, List.getLastD_concat]
      rw [List.range'_concat, List.foldl_append, ih (by omega), List.foldl_cons, List.foldl_nil,
        pySeedStep, hlast, List.range_succ (n := k + 1), List.map_append, List.map_singleton,
        mtWord_succ _ (by omega), Nat.one_mul, Nat.add_comm 1 k]
      exact congrArg (_ ++ [·]) (Nat.and_two_pow_sub_one_eq_mod _ 32)
  rw [pySeedWords, hfold 623 le_rfl, mtWindow]
  simp only [Nat.zero_add]

/-- All words fit 32 bits. -/
def WordsBounded (state : List ℕ) : Prop := ∀ v ∈ state, v < 2 ^ 32

private theorem WordsBounded.getD {state : List ℕ} (h : WordsBounded state) (i : ℕ) :
    state.getD i 0 < 2 ^ 32 := by
  rw [List.getD_eq_getElem?_getD]
  cases hi : state[i]? with
  | none => norm_num
  | some v => exact h v (List.mem_of_getElem? hi)

/-- Each pass of the refill loop writes a word. -/
theorem WordsBounded.pyRefillStep {state : List ℕ} (h : WordsBounded state) (i : ℕ) :
    WordsBounded (pyRefillStep state i) := by
  intro v hv
  rcases List.mem_or_eq_of_mem_set hv with hv | rfl
  · exact h v hv
  · refine Nat.xor_lt_two_pow (Nat.xor_lt_two_pow (h.getD _) ?_) ?_
    · refine lt_of_le_of_lt (Nat.shiftRight_le _ _) ?_
      exact Nat.or_lt_two_pow (lt_of_le_of_lt Nat.and_le_left (h.getD _))
        (lt_of_le_of_lt Nat.and_le_left (h.getD _))
    · split_ifs <;> norm_num

/-- Any part of a refill keeps the words bounded. -/
theorem WordsBounded.foldl_pyRefillStep {state : List ℕ} (h : WordsBounded state) (l : List ℕ) :
    WordsBounded (l.foldl RowReduce.pyRefillStep state) := by
  induction l generalizing state with
  | nil => exact h
  | cons i l ih => exact ih (h.pyRefillStep i)

/-- The generator after its first values. -/
def PyMt19937.after (g : PyMt19937) : ℕ → Except PyException PyMt19937
  | 0 => .ok g
  | n + 1 => do
    let g ← g.after n
    let (_, g) ← PyMt19937.next g
    return g

/-- The value yielded after `n` others. -/
def PyMt19937.value (g : PyMt19937) (n : ℕ) : Except PyException ℕ := do
  let g ← g.after n
  let (value, _) ← PyMt19937.next g
  return value

/-- A generator that follows the host's, whose window stands at position `n`. -/
structure FollowsAt (seed : ℤ) (n : ℕ) (g : PyMt19937) : Prop where
  twister : ∃ host : Mt19937, TwistersAgree host g ∧
    host.window.map BitVec.toNat = mtWindow (seed % 2 ^ 32).toNat n

/-- The seeded state is at the start of the sequence. -/
theorem followsAt_ofSeed (seed : ℤ) : FollowsAt seed 0 (.ofSeed seed) := by
  have hlt : (seed % 2 ^ 32).toNat < 2 ^ 32 := by omega
  have hmod : (((seed % 2 ^ 32).toNat : ℤ) % 2 ^ 32).toNat = (seed % 2 ^ 32).toNat := by omega
  have hword : (BitVec.ofNat 32 (seed % 2 ^ 32).toNat).toNat = (seed % 2 ^ 32).toNat := by
    rw [BitVec.toNat_ofNat, Nat.mod_eq_of_lt hlt]
  have hseed : PyMt19937.ofSeed seed = .ofSeed ((seed % 2 ^ 32).toNat : ℤ) := by
    rw [PyMt19937.ofSeed, PyMt19937.ofSeed, pySeedWords_eq, pySeedWords_eq, hmod]
  refine ⟨.ofSeed (BitVec.ofNat 32 (seed % 2 ^ 32).toNat), ?_, ?_⟩
  · have hagree := twistersAgree_ofSeed (BitVec.ofNat 32 (seed % 2 ^ 32).toNat)
    rwa [hword, ← hseed] at hagree
  · rw [Mt19937.ofSeed, ← pySeedWords_toNat, hword, pySeedWords_eq, hmod]

/-- One value moves the window on by one. -/
theorem FollowsAt.next {seed : ℤ} {n : ℕ} {g : PyMt19937} (h : FollowsAt seed n g) :
    ∃ g', PyMt19937.next g =
        .ok ((mtTemper (BitVec.ofNat 32 (mtWord (seed % 2 ^ 32).toNat (n + 624)))).toNat, g') ∧
      FollowsAt seed (n + 1) g' := by
  obtain ⟨host, hagree, hwindow⟩ := h.twister
  obtain ⟨g', hnext, hagree'⟩ := hagree.next
  have hword : (mtFeedback host.window).toNat = mtWord (seed % 2 ^ 32).toNat (n + 624) := by
    rw [← pyFeedback_map, hwindow, pyFeedback_mtWindow]
  refine ⟨g', ?_, _, hagree', ?_⟩
  · rw [hnext, Mt19937.next, ← hword, BitVec.ofNat_toNat, BitVec.setWidth_eq]
  · rw [← shift_mtWindow, ← hwindow]
    exact (shift_map (pyFeedback_map host.window)).symm

/-- Its words are bounded. -/
theorem FollowsAt.wordsBounded {seed : ℤ} {n : ℕ} {g : PyMt19937} (h : FollowsAt seed n g) :
    WordsBounded g.state := by
  obtain ⟨host, hagree, _⟩ := h.twister
  rw [hagree.state]
  intro v hv
  obtain ⟨w, _, rfl⟩ := List.mem_map.mp hv
  exact w.isLt

/-- After any number of values the state is as far along the sequence. -/
theorem followsAt_after (seed : ℤ) (n : ℕ) :
    ∃ g, (PyMt19937.ofSeed seed).after n = .ok g ∧ FollowsAt seed n g := by
  induction n with
  | zero => exact ⟨_, rfl, followsAt_ofSeed seed⟩
  | succ n ih =>
    obtain ⟨g, hg, hfollows⟩ := ih
    obtain ⟨g', hnext, hfollows'⟩ := hfollows.next
    refine ⟨g', ?_, hfollows'⟩
    rw [PyMt19937.after, hg, ok_bind, hnext, ok_bind]
    rfl

/-- Every value is a word of the standard sequence, tempered as `std::mt19937` does it, and the
words of the state stay below `2 ^ 32` between the values and throughout each refill. -/
theorem mt19937_standard (seed : ℤ) (n : ℕ) :
    (PyMt19937.ofSeed seed).value n =
      .ok (mtTemper (BitVec.ofNat 32 (mtWord (seed % 2 ^ 32).toNat (n + 624)))).toNat ∧
    ∃ g, (PyMt19937.ofSeed seed).after n = .ok g ∧ WordsBounded g.state ∧
      ∀ k, WordsBounded ((List.range k).foldl pyRefillStep g.state) := by
  obtain ⟨g, hg, hfollows⟩ := followsAt_after seed n
  obtain ⟨g', hnext, _⟩ := hfollows.next
  refine ⟨?_, g, hg, hfollows.wordsBounded, fun k => hfollows.wordsBounded.foldl_pyRefillStep _⟩
  rw [PyMt19937.value, hg, ok_bind, hnext, ok_bind]
  rfl

end RowReduce
