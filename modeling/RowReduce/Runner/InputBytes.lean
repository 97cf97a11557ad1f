import RowReduce.Core.Hexadecimal
import RowReduce.Core.Grid
import RowReduce.Runner.Python

/-!
# Input regeneration in the runner

The runner's own Mersenne Twister over unbounded integers, refilling its 624
words in place, and the bytes it expects the host to have uploaded.
-/

namespace RowReduce

open BinaryFloat Grid Hexadecimal

/-- One pass of the loop that refills the state in place. -/
def pyRefillStep (state : List ℕ) (index : ℕ) : List ℕ :=
  let joined := (state.getD index 0 &&& 0x80000000) |||
    (state.getD ((index + 1) % 624) 0 &&& 0x7fffffff)
  state.set index (state.getD ((index + 397) % 624) 0 ^^^ (joined >>> 1) ^^^
    (if joined &&& 1 = 0 then 0 else 0x9908b0df))

def pyRefill (state : List ℕ) : List ℕ := (List.range 624).foldl pyRefillStep state

def pyTemper (value : ℕ) : ℕ :=
  let value := value ^^^ (value >>> 11)
  let value := value ^^^ ((value <<< 7) &&& 0x9d2c5680)
  let value := value ^^^ ((value <<< 15) &&& 0xefc60000)
  (value ^^^ (value >>> 18)) &&& 0xffffffff

/-- Append the seeded word of index `index`. -/
def pySeedStep (state : List ℕ) (index : ℕ) : List ℕ :=
  let last := state.getLastD 0
  state ++ [(1812433253 * (last ^^^ (last >>> 30)) + index) &&& 0xffffffff]

def pySeedWords (seed : ℤ) : List ℕ :=
  (List.range' 1 623).foldl pySeedStep [(seed % 2 ^ 32).toNat]

/-- The suspended generator `mt19937`: its state and the index of the next word to yield. -/
structure PyMt19937 where
  state : List ℕ
  index : ℕ

/-- The generator before its first refill. -/
def PyMt19937.ofSeed (seed : ℤ) : PyMt19937 := ⟨pySeedWords seed, 624⟩

/-- `next(generator)`: refill in place once all words were yielded. -/
def PyMt19937.next : StateT PyMt19937 (Except PyException) ℕ := fun g =>
  let state := if g.index < 624 then g.state else pyRefill g.state
  let index := if g.index < 624 then g.index else 0
  .ok (pyTemper (state.getD index 0), ⟨state, index + 1⟩)

/-- The double literals `0.1`, `-0.2` and `0.3`. -/
def pyDecimals : List ℚ :=
  [3602879701896397 / 2 ^ 55, -(3602879701896397 / 2 ^ 54), 5404319552844595 / 2 ^ 54]

/-- `float(b)` of a truth value. -/
def boolToFloat (p : Prop) [Decidable p] : ℚ := if p then 1 else 0

/-- One random value: `(256 + next(generator) % 65281) / 65536.0` with a drawn sign. -/
def pyRandomValue : StateT PyMt19937 (Except PyException) ℚ := do
  let sample ← PyMt19937.next
  let value := binary64.round (((256 + sample % 65281 : ℕ) : ℚ) / 65536)
  let sign ← PyMt19937.next
  return if sign &&& 1 = 0 then value else -value

/-- The value the runner expects at `(row, col)`. -/
def expectedValue (rows cols : ℤ) (pattern : String) (row col : ℕ) :
    StateT PyMt19937 (Except PyException) ℚ :=
  if pattern = "zero" then pure 0
  else if pattern = "one_hot" then pure (boolToFloat ((row : ℤ) = rows - 1 ∧ (col : ℤ) = cols - 1))
  else if pattern = "ones" then pure 1
  else if pattern = "cancellation" then
    pure (if cols % 2 ≠ 0 ∧ (col : ℤ) = cols - 1 then 0 else if col % 2 = 0 then 1 else -1)
  else if pattern = "small_integers" then
    pure (boolToFloat ((col : ℤ) < min ((row : ℤ) % 17 + 1) cols))
  else if pattern = "decimals" then pure (pyDecimals.getD ((row + col) % 3) 0)
  else if pattern = "random" then pyRandomValue
  else throw (.valueError "unknown input pattern")

/-- The BF16 bytes of one value. -/
def expectedBytes (value : ℚ) : Except PyException (List Byte) := do
  let fp32 ← packedFloatBits value
  let bf16 := ((fp32 + 0x7fff + ((fp32 >>> 16) &&& 1)) >>> 16) &&& 0xffff
  return wordBytes (BitVec.ofNat 16 bf16)

/-- One pass of the inner loop. -/
def expectedElement (rows cols : ℤ) (pattern : String) (p : ℕ × ℕ) :
    StateT PyMt19937 (Except PyException) (List Byte) := do
  let value ← expectedValue rows cols pattern p.1 p.2
  (expectedBytes value : Except PyException (List Byte))

def expectedInputBytes (rows cols : ℤ) (pattern : String) (seed : ℤ) :
    Except PyException (List Byte) := do
  let raw ← ((positions rows.toNat cols.toNat).mapM (expectedElement rows cols pattern)).run
    (PyMt19937.ofSeed seed)
  return raw.1.flatten

end RowReduce
