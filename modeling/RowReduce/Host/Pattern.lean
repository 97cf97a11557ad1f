import RowReduce.Core.Fallible
import RowReduce.Core.ShiftRegister
import RowReduce.Host.Bf16
import RowReduce.Host.Layout

/-!
# Input patterns

The seven generated inputs. The random one draws twice per element from the
standard 32-bit Mersenne Twister, a shift register of 624 words.
-/

namespace RowReduce

open Grid Fallible

inductive Pattern where
  | zero
  | oneHot
  | ones
  | cancellation
  | smallIntegers
  | decimals
  | random
  deriving DecidableEq, Repr

def Pattern.name : Pattern → String
  | zero => "zero"
  | oneHot => "one_hot"
  | ones => "ones"
  | cancellation => "cancellation"
  | smallIntegers => "small_integers"
  | decimals => "decimals"
  | random => "random"

def patterns : List Pattern :=
  [.zero, .oneHot, .ones, .cancellation, .smallIntegers, .decimals, .random]

/-- The pattern of a valid name. -/
def findPattern (name : String) : Option Pattern := patterns.find? fun p => p.name == name

/-- Whether a pattern's sums are exact. -/
def Pattern.isExact (p : Pattern) : Bool := p != .decimals && p != .random

def comparisonIsExact (name : String) : Except HostException Bool :=
  match findPattern name with
  | none => .error (.invalidArgument "unknown input pattern")
  | some p => .ok p.isExact

/-- Every pattern is listed. -/
theorem mem_patterns (p : Pattern) : p ∈ patterns := by cases p <;> decide

/-- Patterns have different names. -/
theorem Pattern.name_injective : Function.Injective Pattern.name := by
  intro p q h
  cases p <;> cases q <;> first | rfl | exact absurd h (by decide)

/-- A pattern is found by its name. -/
@[simp] theorem findPattern_name (p : Pattern) : findPattern p.name = some p := by
  cases p <;> decide

/-- A name finds the pattern it is of. -/
theorem findPattern_eq_some_iff {name : String} {p : Pattern} :
    findPattern name = some p ↔ name = p.name := by
  constructor
  · intro h
    have := List.find?_some h
    exact (beq_iff_eq.mp this).symm
  · rintro rfl
    exact findPattern_name p

abbrev Word32 := BitVec 32

/-- The word that follows a window of the last 624, oldest first. -/
def mtFeedback (window : List Word32) : Word32 :=
  let y := (window.getD 0 0 &&& 0x80000000#32) ||| (window.getD 1 0 &&& 0x7fffffff#32)
  window.getD 397 0 ^^^ (y >>> 1) ^^^ (if y &&& 1#32 = 0#32 then 0#32 else 0x9908b0df#32)

def mtTemper (x : Word32) : Word32 :=
  let x := x ^^^ (x >>> 11)
  let x := x ^^^ ((x <<< 7) &&& 0x9d2c5680#32)
  let x := x ^^^ ((x <<< 15) &&& 0xefc60000#32)
  x ^^^ (x >>> 18)

/-- Append the seeded word of index `i`. -/
def mtSeedStep (words : List Word32) (i : ℕ) : List Word32 :=
  let last := words.getLastD 0
  words ++ [1812433253#32 * (last ^^^ (last >>> 30)) + BitVec.ofNat 32 i]

def mtSeedWords (seed : Word32) : List Word32 := (List.range' 1 623).foldl mtSeedStep [seed]

/-- `std::mt19937`: the last 624 words of its sequence. -/
structure Mt19937 where
  window : List Word32
  deriving DecidableEq

def Mt19937.ofSeed (seed : Word32) : Mt19937 := ⟨mtSeedWords seed⟩

/-- `generator()`. -/
def Mt19937.next : StateM Mt19937 Word32 := fun g =>
  (mtTemper (mtFeedback g.window), ⟨ShiftRegister.shift mtFeedback g.window⟩)

/-- `-value` on a `float`. -/
def Float32.neg (value : Float32) : Float32 := value ^^^ 0x80000000#32

/-- One random element: a magnitude draw and a sign draw. -/
def randomValue : StateM Mt19937 Float32 := do
  let sample ← Mt19937.next
  let magnitude := 256 + sample.toNat % 65281
  let value := Float32.ofRat (magnitude / 65536)
  let sign ← Mt19937.next
  return if sign &&& 1#32 = 0#32 then value else value.neg

/-- The array `decimals`. -/
def decimalValues : List Float32 :=
  [Float32.ofRat (1 / 10), Float32.ofRat (-(2 / 10)), Float32.ofRat (3 / 10)]

/-- The element of a pattern at `(row, col)`. -/
def patternValue (shape : Shape) (row col : ℕ) : Pattern → StateM Mt19937 Float32
  | .zero => pure (Float32.ofRat 0)
  | .ones => pure (Float32.ofRat 1)
  | .oneHot =>
    pure (if row + 1 = shape.rows ∧ col + 1 = shape.cols then Float32.ofRat 1 else Float32.ofRat 0)
  | .cancellation =>
    pure (if col + 1 = shape.cols ∧ shape.cols % 2 ≠ 0 then Float32.ofRat 0
      else if col % 2 = 0 then Float32.ofRat 1 else Float32.ofRat (-1))
  | .smallIntegers =>
    pure (if col < min (row % 17 + 1) shape.cols then Float32.ofRat 1 else Float32.ofRat 0)
  | .decimals => pure (decimalValues.getD ((row + col) % 3) 0)
  | .random => randomValue

def makeInput (shape : Shape) (pattern : String) (seed : Word32) :
    Except HostException (List Float32) := do
  validateShape shape 1
  match findPattern pattern with
  | none => throw (.invalidArgument "unknown input pattern")
  | some p =>
    let values := (positions shape.rows shape.cols).mapM fun q => patternValue shape q.1 q.2 p
    return (values (Mt19937.ofSeed seed)).1

end RowReduce
