import RowReduce.Host.Pattern
import RowReduce.Runner.InputBytes

/-!
# The two Mersenne Twisters

The runner's in-place generator yields the words of the host's shift register.
Its state runs ahead of the host's window by the words it has yet to yield.
-/

namespace RowReduce

open ShiftRegister

/-- The feedback on unbounded integers. -/
def pyFeedback (window : List ℕ) : ℕ :=
  let joined := (window.getD 0 0 &&& 0x80000000) ||| (window.getD 1 0 &&& 0x7fffffff)
  window.getD 397 0 ^^^ (joined >>> 1) ^^^ (if joined &&& 1 = 0 then 0 else 0x9908b0df)

private theorem getD_map_toNat (w : List Word32) (i : ℕ) :
    (w.map BitVec.toNat).getD i 0 = (w.getD i 0).toNat := by
  simp only [List.getD_eq_getElem?_getD, List.getElem?_map]
  cases w[i]? <;> rfl

private theorem toNat_and_one_eq_zero_iff (x : Word32) :
    x &&& 1#32 = 0#32 ↔ x.toNat &&& 1 = 0 := by
  rw [← BitVec.toNat_inj, BitVec.toNat_and]
  rfl

/-- Both feedbacks compute the same word. -/
theorem pyFeedback_map (w : List Word32) :
    pyFeedback (w.map BitVec.toNat) = (mtFeedback w).toNat := by
  simp only [pyFeedback, mtFeedback, getD_map_toNat]
  set y := (w.getD 0 0 &&& 0x80000000#32) ||| (w.getD 1 0 &&& 0x7fffffff#32) with hy
  have hjoined : ((w.getD 0 0).toNat &&& 0x80000000) ||| ((w.getD 1 0).toNat &&& 0x7fffffff) =
      y.toNat := by
    simp only [hy, BitVec.toNat_or, BitVec.toNat_and, BitVec.toNat_ofNat]
  rw [hjoined]
  by_cases h : y &&& 1#32 = 0#32
  · rw [if_pos h, if_pos ((toNat_and_one_eq_zero_iff y).mp h)]
    simp
  · rw [if_neg h, if_neg (mt (toNat_and_one_eq_zero_iff y).mpr h)]
    simp

/-- Both temperings compute the same word. -/
theorem pyTemper_toNat (x : Word32) : pyTemper x.toNat = (mtTemper x).toNat := by
  have hshift : ∀ (y : Word32) (k mask : ℕ), mask < 2 ^ 32 →
      (y.toNat <<< k) &&& mask = ((y <<< k) &&& BitVec.ofNat 32 mask).toNat := by
    intro y k mask hmask
    rw [BitVec.toNat_and, BitVec.toNat_shiftLeft, BitVec.toNat_ofNat, Nat.mod_eq_of_lt hmask]
    apply Nat.eq_of_testBit_eq
    intro i
    rw [Nat.testBit_and, Nat.testBit_and, Nat.testBit_mod_two_pow]
    by_cases hi : i < 32
    · simp [hi]
    · rw [Nat.testBit_lt_two_pow (hmask.trans_le (Nat.pow_le_pow_right (by norm_num)
        (not_lt.mp hi)))]
      simp
  simp only [pyTemper, mtTemper]
  set a := x ^^^ (x >>> 11) with ha
  have h1 : x.toNat ^^^ (x.toNat >>> 11) = a.toNat := by simp [ha]
  rw [h1, hshift a 7 0x9d2c5680 (by norm_num), ← BitVec.toNat_xor,
    hshift _ 15 0xefc60000 (by norm_num), ← BitVec.toNat_xor]
  set c := a ^^^ (a <<< 7 &&& BitVec.ofNat 32 0x9d2c5680) with hc
  set d := c ^^^ (c <<< 15 &&& BitVec.ofNat 32 0xefc60000) with hd
  have hlast : d.toNat ^^^ (d.toNat >>> 18) = (d ^^^ (d >>> 18)).toNat := by simp
  rw [hlast]
  exact (Nat.and_two_pow_sub_one_eq_mod _ 32).trans (Nat.mod_eq_of_lt (BitVec.isLt _))

private theorem getLastD_map_toNat (w : List Word32) :
    (w.map BitVec.toNat).getLastD 0 = (w.getLastD 0).toNat := by
  rw [List.getLastD_eq_getLast?, List.getLastD_eq_getLast?, List.getLast?_map]
  cases w.getLast? <;> rfl

private theorem pySeedStep_map (w : List Word32) (i : ℕ) :
    pySeedStep (w.map BitVec.toNat) i = (mtSeedStep w i).map BitVec.toNat := by
  rw [pySeedStep, mtSeedStep, List.map_append, List.map_singleton, getLastD_map_toNat]
  congr 2
  rw [show (0xffffffff : ℕ) = 2 ^ 32 - 1 from rfl, Nat.and_two_pow_sub_one_eq_mod]
  simp [BitVec.toNat_add, BitVec.toNat_mul, Nat.add_mod]

/-- Both seedings compute the same words. -/
theorem pySeedWords_toNat (seed : Word32) :
    pySeedWords seed.toNat = (mtSeedWords seed).map BitVec.toNat := by
  have hseed : ((seed.toNat : ℤ) % 2 ^ 32).toNat = seed.toNat := by
    have := seed.isLt
    omega
  have hfold : ∀ (l : List ℕ) (w : List Word32),
      l.foldl pySeedStep (w.map BitVec.toNat) = (l.foldl mtSeedStep w).map BitVec.toNat := by
    intro l
    induction l with
    | nil => intro w; rfl
    | cons i l ih =>
      intro w
      rw [List.foldl_cons, List.foldl_cons, pySeedStep_map, ih]
  rw [pySeedWords, mtSeedWords, hseed]
  exact hfold _ [seed]

/-- The seeded state has 624 words. -/
theorem length_mtSeedWords (seed : Word32) : (mtSeedWords seed).length = 624 := by
  have hfold : ∀ (l : List ℕ) (w : List Word32),
      (l.foldl mtSeedStep w).length = w.length + l.length := by
    intro l
    induction l with
    | nil => intro w; rfl
    | cons i l ih =>
      intro w
      have hstep : (mtSeedStep w i).length = w.length + 1 := by simp [mtSeedStep]
      rw [List.foldl_cons, ih, hstep, List.length_cons]
      omega
  rw [mtSeedWords, hfold, List.length_range', List.length_singleton]

private theorem getD_rotate {l : List ℕ} {i k : ℕ} (hk : k < l.length) :
    (l.rotate i).getD k 0 = l.getD ((i + k) % l.length) 0 := by
  rw [List.getD_eq_getElem?_getD, List.getD_eq_getElem?_getD, List.getElem?_rotate hk,
    Nat.add_comm]

private theorem pyRefillStep_eq {state : List ℕ} (h : state.length = 624) {i : ℕ} (hi : i < 624) :
    pyRefillStep state i = state.set i (pyFeedback (state.rotate i)) := by
  have h0 : (i + 0) % 624 = i := by omega
  rw [pyFeedback, getD_rotate (by omega), getD_rotate (by omega), getD_rotate (by omega), h, h0]
  rfl

/-- The index arithmetic of the refill loop reads the state cyclically. -/
theorem pyRefill_eq {state : List ℕ} (h : state.length = 624) :
    pyRefill state = refill pyFeedback 624 state := by
  have hfold : ∀ l : List ℕ, (∀ i ∈ l, i < 624) → ∀ state : List ℕ, state.length = 624 →
      l.foldl pyRefillStep state =
        l.foldl (fun state i => state.set i (pyFeedback (state.rotate i))) state := by
    intro l
    induction l with
    | nil => intro _ state _; rfl
    | cons i l ih =>
      intro hl state hlen
      rw [List.foldl_cons, List.foldl_cons, pyRefillStep_eq hlen (hl i List.mem_cons_self)]
      exact ih (fun j hj => hl j (List.mem_cons_of_mem _ hj)) _ (by rw [List.length_set, hlen])
  exact hfold _ (fun i hi => List.mem_range.mp hi) state h

/-- The runner's state is the host's window advanced by the words not yet yielded. -/
structure TwistersAgree (g : Mt19937) (h : PyMt19937) : Prop where
  length : g.window.length = 624
  index_le : h.index ≤ 624
  state : h.state = ((shift mtFeedback)^[624 - h.index] g.window).map BitVec.toNat

/-- Both twisters start in the same state. -/
theorem twistersAgree_ofSeed (seed : Word32) :
    TwistersAgree (.ofSeed seed) (.ofSeed seed.toNat) := by
  constructor
  · simp only [Mt19937.ofSeed, length_mtSeedWords]
  · simp only [PyMt19937.ofSeed, le_refl]
  · simp only [PyMt19937.ofSeed, Mt19937.ofSeed, Nat.sub_self, Function.iterate_zero, id_eq]
    exact pySeedWords_toNat seed

private theorem shift_iterate_sub {n i : ℕ} (hi : i < n) (w : List Word32) :
    (shift mtFeedback)^[n - i] w = (shift mtFeedback)^[n - (i + 1)] (shift mtFeedback w) := by
  rw [show n - i = n - (i + 1) + 1 by omega, Function.iterate_succ_apply]

/-- With words left to yield, the next one is the host's. -/
private theorem TwistersAgree.yield {g : Mt19937} {h : PyMt19937} (hr : TwistersAgree g h)
    (hi : h.index < 624) : h.state.getD h.index 0 = (mtFeedback g.window).toNat ∧
      TwistersAgree (Mt19937.next g).2 ⟨h.state, h.index + 1⟩ := by
  have hlen := hr.length
  have hne : g.window ≠ [] := List.ne_nil_of_length_pos (by omega)
  have hword := @getElem?_shift_iterate _ mtFeedback g.window (624 - h.index) (by omega) (by omega)
  rw [hlen, Nat.sub_sub_self hr.index_le] at hword
  constructor
  · rw [hr.state, getD_map_toNat, List.getD_eq_getElem?_getD, hword, Option.getD_some]
  · exact ⟨(length_shift hne).trans hlen, Nat.succ_le_of_lt hi,
      hr.state.trans (congrArg _ (shift_iterate_sub hi _))⟩

/-- Refilling after the last word keeps the states related. -/
private theorem TwistersAgree.refill {g : Mt19937} {h : PyMt19937} (hr : TwistersAgree g h)
    (hi : h.index = 624) : TwistersAgree g ⟨pyRefill h.state, 0⟩ := by
  have hstate := hr.state
  rw [hi, Nat.sub_self, Function.iterate_zero, id_eq] at hstate
  have hlen : h.state.length = 624 := by rw [hstate, List.length_map, hr.length]
  have hrefill : pyRefill h.state = (shift pyFeedback)^[624] h.state := by
    rw [pyRefill_eq hlen, ← hlen, refill_length]
  refine ⟨hr.length, Nat.zero_le _, ?_⟩
  rw [hrefill, hstate,
    shift_iterate_map (by norm_num) (fun w _ => pyFeedback_map w) 624 hr.length, Nat.sub_zero]

/-- Both generators draw the same word. -/
theorem TwistersAgree.next {g : Mt19937} {h : PyMt19937} (hr : TwistersAgree g h) :
    ∃ h', PyMt19937.next h = .ok ((Mt19937.next g).1.toNat, h') ∧
      TwistersAgree (Mt19937.next g).2 h' := by
  by_cases hi : h.index < 624
  · obtain ⟨hword, hnext⟩ := hr.yield hi
    refine ⟨_, ?_, hnext⟩
    simp only [PyMt19937.next, if_pos hi, hword, pyTemper_toNat]
    rfl
  · have h0 := hr.refill (le_antisymm hr.index_le (not_lt.mp hi))
    obtain ⟨hword, hnext⟩ := h0.yield (by norm_num)
    refine ⟨_, ?_, hnext⟩
    simp only [PyMt19937.next, if_neg hi]
    rw [hword, pyTemper_toNat]
    rfl

end RowReduce
