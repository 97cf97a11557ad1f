import RowReduce.Correctness.InputBytes

/-!
# Regenerated inputs

For a known pattern the runner always regenerates an input, on any requested
size, and every regenerated word is inside the numeric contract.
-/

namespace RowReduce

open BinaryFloat Fallible Grid Hexadecimal

variable {rows cols : ℤ} {row col : ℕ} {g : PyMt19937}

/-- Every regenerated value is in range. -/
theorem expectedValue_spec (rows cols : ℤ) (p : Pattern) (row col : ℕ) (g : PyMt19937) :
    ∃ v g', expectedValue rows cols p.name row col g = .ok (v, g') ∧ InputRange v := by
  have hone : InputRange 1 := by decide +kernel
  have hzero : InputRange 0 := Or.inl rfl
  have hbool : ∀ (q : Prop) [Decidable q], InputRange (boolToFloat q) := by
    intro q _
    unfold boolToFloat
    split_ifs
    · exact hone
    · exact hzero
  have hpure : ∀ {v : ℚ}, expectedValue rows cols p.name row col = pure v → InputRange v →
      ∃ v g', expectedValue rows cols p.name row col g = .ok (v, g') ∧ InputRange v := by
    intro v h hv
    exact ⟨v, g, by rw [h]; rfl, hv⟩
  cases p with
  | zero => exact hpure (by simp [expectedValue, Pattern.name]) hzero
  | oneHot =>
    exact hpure (v := boolToFloat ((row : ℤ) = rows - 1 ∧ (col : ℤ) = cols - 1))
      (by simp [expectedValue, Pattern.name]) (hbool _)
  | ones => exact hpure (by simp [expectedValue, Pattern.name]) hone
  | cancellation =>
    refine hpure (v := if cols % 2 ≠ 0 ∧ (col : ℤ) = cols - 1 then 0
      else if col % 2 = 0 then 1 else -1) (by simp only [expectedValue, Pattern.name]; simp) ?_
    split_ifs
    · exact hzero
    · exact hone
    · exact hone.neg
  | smallIntegers =>
    exact hpure (v := boolToFloat ((col : ℤ) < min ((row : ℤ) % 17 + 1) cols))
      (by simp [expectedValue, Pattern.name]) (hbool _)
  | decimals =>
    refine hpure (v := pyDecimals.getD ((row + col) % 3) 0)
      (by simp only [expectedValue, Pattern.name]; simp) ?_
    have hall : ∀ i < 3, InputRange (pyDecimals.getD i 0) := by decide +kernel
    exact hall _ (Nat.mod_lt _ (by norm_num))
  | random =>
    have hvalue : expectedValue rows cols Pattern.random.name row col = pyRandomValue := by
      simp [expectedValue, Pattern.name]
    rw [hvalue]
    have hmagnitude : ∀ n : ℕ,
        InputRange (binary64.round (((256 + n % 65281 : ℕ) : ℚ) / 65536)) := by
      intro n
      rw [binary64_round_magnitude]
      exact inputRange_magnitude n
    obtain ⟨sample, g₁, h1⟩ : ∃ sample g₁, PyMt19937.next g = .ok (sample, g₁) := ⟨_, _, rfl⟩
    obtain ⟨sign, g₂, h2⟩ : ∃ sign g₂, PyMt19937.next g₁ = .ok (sign, g₂) := ⟨_, _, rfl⟩
    refine ⟨if sign &&& 1 = 0 then binary64.round (((256 + sample % 65281 : ℕ) : ℚ) / 65536)
      else -binary64.round (((256 + sample % 65281 : ℕ) : ℚ) / 65536), g₂, ?_, ?_⟩
    · simp only [pyRandomValue, bind, StateT.bind, h1, h2, Except.bind]
      rfl
    · split_ifs
      · exact hmagnitude _
      · exact (hmagnitude _).neg

/-- Every regenerated element is the two bytes of a word inside the contract. -/
theorem expectedElement_spec (rows cols : ℤ) (p : Pattern) (q : ℕ × ℕ) (g : PyMt19937) :
    ∃ w g', expectedElement rows cols p.name q g = .ok (wordBytes w, g') ∧ InContract w := by
  obtain ⟨v, g', hv, hrange⟩ := expectedValue_spec rows cols p q.1 q.2 g
  exact ⟨_, g', bind_lift_apply hv hrange.expectedBytes, hrange.accepted.2⟩

/-- A known pattern regenerates the bytes of a list of contract words. -/
theorem exists_regenerated (rows cols : ℤ) (p : Pattern) (seed : ℤ) :
    ∃ words, expectedInputBytes rows cols p.name seed = .ok (littleEndian words) ∧
      words.length = rows.toNat * cols.toNat ∧ ∀ w ∈ words, InContract w := by
  obtain ⟨bytes, g', hpy, hall, _⟩ := @mapM_simulation PyException Unit _ _ Unit _
    (fun _ => pure ()) (expectedElement rows cols p.name) (fun _ _ => True)
    (fun _ bytes => ∃ w, bytes = wordBytes w ∧ InContract w)
    (positions rows.toNat cols.toNat) (fun q _ _ g _ => by
      obtain ⟨w, g', h, hw⟩ := expectedElement_spec rows cols p q g
      exact ⟨_, g', h, ⟨w, rfl, hw⟩, trivial⟩) () (PyMt19937.ofSeed seed) trivial
  have hwords : ∀ {units : List Unit} {bytes : List (List Byte)},
      List.Forall₂ (fun _ bytes => ∃ w, bytes = wordBytes w ∧ InContract w) units bytes →
      ∃ words : List Bf16Word, bytes.flatten = littleEndian words ∧
        words.length = units.length ∧ ∀ w ∈ words, InContract w := by
    intro units bytes h
    induction h with
    | nil => exact ⟨[], rfl, rfl, by simp⟩
    | cons hw _ ih =>
      obtain ⟨w, rfl, hw⟩ := hw
      obtain ⟨words, hflat, hlen, hwords⟩ := ih
      refine ⟨w :: words, ?_, by simp [hlen], List.forall_mem_cons.mpr ⟨hw, hwords⟩⟩
      rw [List.flatten_cons, hflat]
      rfl
  obtain ⟨words, hflat, hlen, hcontract⟩ := hwords hall
  rw [length_mapM_state, length_positions] at hlen
  refine ⟨words, ?_, hlen, hcontract⟩
  rw [expectedInputBytes, StateT.run, hpy, ok_bind, pure_eq_ok, hflat]

/-- The word of a pattern at a position; the random pattern has none. -/
def patternWord (rows cols : ℤ) (row col : ℕ) : Pattern → Bf16Word
  | .zero => 0
  | .oneHot => if (row : ℤ) = rows - 1 ∧ (col : ℤ) = cols - 1 then 0x3f80#16 else 0
  | .ones => 0x3f80#16
  | .cancellation =>
    if cols % 2 ≠ 0 ∧ (col : ℤ) = cols - 1 then 0 else if col % 2 = 0 then 0x3f80#16 else 0xbf80#16
  | .smallIntegers => if (col : ℤ) < min ((row : ℤ) % 17 + 1) cols then 0x3f80#16 else 0
  | .decimals => [0x3dcd#16, 0xbe4d#16, 0x3e9a#16].getD ((row + col) % 3) 0
  | .random => 0

/-- The values of the deterministic patterns and their words. -/
def valueWords : List (ℚ × Bf16Word) :=
  [(0, 0#16), (1, 0x3f80#16), (-1, 0xbf80#16), (3602879701896397 / 2 ^ 55, 0x3dcd#16),
    (-(3602879701896397 / 2 ^ 54), 0xbe4d#16), (5404319552844595 / 2 ^ 54, 0x3e9a#16)]

private theorem expectedBytes_of_mem_valueWords {v : ℚ} {w : Bf16Word} (h : (v, w) ∈ valueWords) :
    expectedBytes v = .ok (wordBytes w) := by
  have hrange : ∀ entry ∈ valueWords,
      InputRange entry.1 ∧ floatToBf16 (Float32.ofRat entry.1) = entry.2 := by decide +kernel
  obtain ⟨hin, hword⟩ := hrange _ h
  rw [hin.expectedBytes, hword]

/-- A deterministic element does not touch the generator. -/
theorem expectedElement_patternWord {p : Pattern} (hp : p ≠ .random) (rows cols : ℤ) (q : ℕ × ℕ)
    (g : PyMt19937) : expectedElement rows cols p.name q g =
      .ok (wordBytes (patternWord rows cols q.1 q.2 p), g) := by
  have hentry : ∀ {v : ℚ} {w : Bf16Word}, expectedValue rows cols p.name q.1 q.2 = pure v →
      (v, w) ∈ valueWords →
        expectedElement rows cols p.name q g = .ok (wordBytes w, g) := by
    intro v w hv hmem
    rw [expectedElement, hv]
    exact bind_lift_apply rfl (expectedBytes_of_mem_valueWords hmem)
  cases p with
  | zero => exact hentry (v := 0) (by simp [expectedValue, Pattern.name]) (by simp [patternWord,
      valueWords])
  | ones => exact hentry (v := 1) (by simp [expectedValue, Pattern.name]) (by simp [patternWord,
      valueWords])
  | oneHot =>
    refine hentry (v := boolToFloat ((q.1 : ℤ) = rows - 1 ∧ (q.2 : ℤ) = cols - 1))
      (by simp [expectedValue, Pattern.name]) ?_
    unfold boolToFloat patternWord
    split_ifs <;> simp [valueWords]
  | cancellation =>
    refine hentry (v := if cols % 2 ≠ 0 ∧ (q.2 : ℤ) = cols - 1 then 0
      else if q.2 % 2 = 0 then 1 else -1) (by simp only [expectedValue, Pattern.name]; simp) ?_
    unfold patternWord
    split_ifs <;> simp [valueWords]
  | smallIntegers =>
    refine hentry (v := boolToFloat ((q.2 : ℤ) < min ((q.1 : ℤ) % 17 + 1) cols))
      (by simp [expectedValue, Pattern.name]) ?_
    unfold boolToFloat patternWord
    split_ifs <;> simp [valueWords]
  | decimals =>
    refine hentry (v := pyDecimals.getD ((q.1 + q.2) % 3) 0)
      (by simp only [expectedValue, Pattern.name]; simp) ?_
    have hindex : (q.1 + q.2) % 3 = 0 ∨ (q.1 + q.2) % 3 = 1 ∨ (q.1 + q.2) % 3 = 2 := by omega
    rcases hindex with h | h | h <;> simp [patternWord, pyDecimals, valueWords, h]
  | random => exact absurd rfl hp

/-- Byte lists of words flatten to the little-endian bytes of the words. -/
theorem flatten_of_forall₂_wordBytes {words : List Bf16Word} {bytes : List (List Byte)}
    (h : List.Forall₂ (fun w bytes => bytes = wordBytes w) words bytes) :
    bytes.flatten = littleEndian words := by
  induction h with
  | nil => rfl
  | cons hw _ ih =>
    rw [List.flatten_cons, hw, ih]
    rfl

/-- A deterministic pattern regenerates its table of words. -/
theorem regenerated_patternWord {p : Pattern} (hp : p ≠ .random) (rows cols seed : ℤ) :
    expectedInputBytes rows cols p.name seed = .ok (littleEndian
      ((positions rows.toNat cols.toNat).map fun q => patternWord rows cols q.1 q.2 p)) := by
  obtain ⟨bytes, g', hpy, hall, _⟩ := @mapM_simulation PyException _ _ _ Unit _
    (fun q => pure (patternWord rows cols q.1 q.2 p)) (expectedElement rows cols p.name)
    (fun _ _ => True) (fun w bytes => bytes = wordBytes w) (positions rows.toNat cols.toNat)
    (fun q _ _ g _ => ⟨_, g, expectedElement_patternWord hp rows cols q g, rfl, trivial⟩)
    () (PyMt19937.ofSeed seed) trivial
  rw [List.mapM_pure] at hall
  rw [expectedInputBytes, StateT.run, hpy, ok_bind, pure_eq_ok, flatten_of_forall₂_wordBytes hall]
  rfl

end RowReduce
