import RowReduce.Host.InputFile
import RowReduce.Host.Run

/-!
# The program

All argument, value and layout checks come before the device is created; what
fails there ends in exit code 2, what fails later in exit code 1.
-/

namespace RowReduce

open Fallible

/-- The object printed after `TT_ROW_REDUCE_ERROR=`. -/
structure ErrorRecord where
  status : String
  beforeDevice : Bool
  message : String
  deriving DecidableEq, Repr

structure MainResult where
  exitCode : ℕ
  /-- The usage text was printed. -/
  usage : Bool
  records : List ResultRecord
  errors : List ErrorRecord
  /-- `create_unit_mesh` was called. -/
  reachedDevice : Bool

/-- The values the options ask for: generated, or read from the named file. -/
def originalInput (files : String → Option InputFile) (options : Options) :
    Except HostException (List Float32) :=
  if options.inputFile = "" then makeInput options.shape options.pattern options.seed
  else readInputFile (files options.inputFile)

/-- The part of the `try` block before `before_device = false`. -/
def beforeDevice (env : HostEnv) (files : String → Option InputFile) (args : List String) :
    Except HostException (Options × PreparedInput) := do
  let options ← parseOptions args
  let original ← originalInput files options
  let prepared ← prepareInput env.rd options.shape original options.nodes
  checkUpstreamQuantization env.upstream original prepared
  let _ ← transferWords env.upstream prepared
  throwIf (options.profile = true ∧ env.profiler ≠ some "1")
    (.invalidArgument "--profile requires TT_METAL_DEVICE_PROFILER=1 before startup")
  return (options, prepared)

/-- The rest of the `try` block: the printed records and `pass && closed`. -/
def onDevice (env : HostEnv) (options : Options) (prepared : PreparedInput) :
    List ResultRecord × Except HostException Bool :=
  match env.device.createUnitMesh with
  | .error e => ([], .error e)
  | .ok () =>
    match run env options prepared with
    | (records, .error e) => (records, .error e)
    | (records, .ok pass) => (records, env.device.close.map fun closed => pass && closed)

def errorRecord (before : Bool) (e : HostException) : ErrorRecord where
  status := if before then "invalid-input" else "runtime-error"
  beforeDevice := before
  message := e.what

def main (env : HostEnv) (files : String → Option InputFile) (args : List String) : MainResult :=
  if args = ["--help"] then
    { exitCode := 0, usage := true, records := [], errors := [], reachedDevice := false }
  else match beforeDevice env files args with
    | .error e =>
      { exitCode := 2, usage := false, records := [], errors := [errorRecord true e],
        reachedDevice := false }
    | .ok (options, prepared) =>
      match onDevice env options prepared with
      | (records, .error e) =>
        { exitCode := 1, usage := false, records, errors := [errorRecord false e],
          reachedDevice := true }
      | (records, .ok success) =>
        { exitCode := if success then 0 else 1, usage := false, records, errors := [],
          reachedDevice := true }

end RowReduce
