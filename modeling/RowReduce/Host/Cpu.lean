import RowReduce.Host.Compare
import RowReduce.Host.Encoding
import RowReduce.Host.Pattern

/-!
# The CPU reference program

One case of the program without a device: generate, prepare, round the reference
sums to BF16 and compare them with themselves.
-/

namespace RowReduce

open BinaryFloat

/-- `static_cast<float>` of a `double`. -/
def Float32.ofDouble : FloatValue → Float32
  | .finite q => Float32.ofRat q
  | .infinity negative => if negative then 0xff800000#32 else 0x7f800000#32
  | .nan => 0x7fc00000#32

/-- The object printed for one case. -/
structure CpuRecord where
  validationLevel : String := "C0"
  backend : String := "cpu_reference"
  status : String
  shape : Shape
  paddedRows : ℕ
  paddedCols : ℕ
  pattern : String
  seed : Word32
  exact : Bool
  quantizedFnv1a64 : String
  inputBytesStatic : ℕ
  outputBytesStatic : ℕ
  comparison : Comparison
  deriving DecidableEq, Repr

/-- The reference sums through `float` and BF16. -/
def roundedReference (input : PreparedInput) : List Float32 :=
  input.reference.map fun row => bf16ToFloat (floatToBf16 (Float32.ofDouble row.sum))

/-- The printed record and the result of one case. -/
def cpuRunCase (rd : Rounding binary64) (shape : Shape) (pattern : String) (seed : Word32)
    (nodes : ℕ) : Except HostException (CpuRecord × Bool) := do
  let values ← makeInput shape pattern seed
  let input ← prepareInput rd shape values nodes
  let exact ← comparisonIsExact pattern
  let comparison ← compareRows rd (roundedReference input) input.reference shape.cols exact
  return ({ status := if comparison.pass then "pass" else "numerical-fail"
            shape, paddedRows := input.paddedRows, paddedCols := input.paddedCols, pattern, seed,
            exact, quantizedFnv1a64 := quantizedFnv1a64 input.quantized
            inputBytesStatic := input.tiled.length * 2
            outputBytesStatic := input.paddedRows * 32 * 2
            comparison }, comparison.pass)

end RowReduce
