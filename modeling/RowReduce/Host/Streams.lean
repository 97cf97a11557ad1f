import RowReduce.Host.Emit
import RowReduce.Host.Main

/-!
# What the program writes

The standard output and the standard error of one run of the program.
-/

namespace RowReduce

/-- The answer to `--help`. -/
def usageText : String :=
  "tt_row_reduce_metal --rows M --cols N " ++
    "--pattern zero|one_hot|ones|cancellation|small_integers|decimals|random " ++
    "[--seed U32] [--nodes 1] [--repeat 1..100] [--input-file FLOAT_TEXT] [--profile]\n"

/-- The printed fields in order. -/
def ErrorRecord.fields (e : ErrorRecord) : List (String × Emitted) :=
  [("status", .text e.status), ("before_device", .flag e.beforeDevice),
    ("message", .text e.message)]

/-- The printed line; it holds no number. -/
def ErrorRecord.line (e : ErrorRecord) : List Char :=
  "TT_ROW_REDUCE_ERROR=".toList ++ '\x7b' :: ([','].intercalate (e.fields.map fun p =>
    '"' :: (p.1.toList ++ '"' :: ':' :: p.2.print fun _ => "")) ++ ['\x7d', '\n'])

def MainResult.stdout (digits : ℚ → String) (result : MainResult) : List Char :=
  (if result.usage then usageText.toList else []) ++
    result.records.flatMap (ResultRecord.line digits)

def MainResult.stderr (result : MainResult) : List Char := result.errors.flatMap ErrorRecord.line

end RowReduce
