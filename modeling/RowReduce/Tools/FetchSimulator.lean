import RowReduce.Core.Renaming
import RowReduce.Runner.Matrix

/-!
# Fetching the simulator

What the tool does to the output directory it finds: a download under another
name, renamed once its digest is verified, and the SoC descriptor beside it.
-/

namespace RowReduce

open Hexadecimal Journal Renaming

/-- One asset of `ttsim` in `upstream.lock`. -/
structure Release where
  asset : String
  sha256 : String
  deriving DecidableEq, Repr

def ttsimVersion : String := "v1.10.6"

/-- The assets by architecture. -/
def ttsimReleases : List (String × Release) :=
  [("aarch64", ⟨"libttsim_wh_aarch64.so",
      "d38142c9d94526a5d6b48e5c0711efd718ffaed9270150c5556da0de788214ae"⟩),
    ("x86_64", ⟨"libttsim_wh.so",
      "2686ebc212ea9753c0aecde74e640aff43efbe54db0322676627c3a0c1b14d81"⟩)]

def Release.url (release : Release) : String :=
  "https://github.com/tenstorrent/ttsim/releases/download/" ++ ttsimVersion ++ "/" ++ release.asset

/-- A name without its last suffix; a point at either end begins none. -/
def stem (name : List Char) : List Char :=
  match name.reverse.dropWhile (· ≠ '.') with
  | _ :: c :: s => if name.getLast? = some '.' then name else (c :: s).reverse
  | _ => name

/-- `path.with_suffix(suffix)`, on the last part of the path. -/
def withSuffix (name suffix : String) : String := String.ofList (stem name.toList) ++ suffix

/-- The file a download is written to. -/
def Release.part (release : Release) : String := withSuffix release.asset ".part"

def descriptorName : String := "soc_descriptor.yaml"

/-- `urlretrieve`: no answer, an exception after some bytes, or all that the server sends. -/
inductive Download where
  | refused (error : String)
  | broken (bytes : List Byte) (error : String)
  | complete (bytes : List Byte)

/-- What a fetch depends on besides the directory it finds. -/
structure FetchWorld where
  /-- `platform.machine()` and `platform.system()`. -/
  architecture : String
  system : String
  /-- Making the output directory where it is missing. -/
  mkdir : Except String Unit
  download : String → Download
  /-- The descriptor of the Metal checkout. -/
  descriptor : Except String (List Byte)

/-- How a fetch ends: `parser.error`, `SystemExit`, an exception, or the printed document. -/
inductive FetchEnd where
  | usage (message : String)
  | exit (message : String)
  | raised (error : String)
  | printed (document : Json)

section Fetch

variable (sha256 : List Byte → String) (w : FetchWorld) (release : Release)

/-- The asset, unless there is one. -/
def fetchAsset (d : Disk) : List (Step String Byte) × Except FetchEnd Unit :=
  if (d.lookup release.asset).isSome = true then ([], .ok ())
  else
    match w.download release.url with
    | .refused e => ([], .error (.raised e))
    | .broken bytes e => (writes release.part bytes, .error (.raised e))
    | .complete bytes =>
      if sha256 bytes = release.sha256 then
        (writes release.part bytes ++ [.rename release.part release.asset], .ok ())
      else (writes release.part bytes, .error (.exit "download SHA-256 mismatch"))

def fetchDocument : Json :=
  .dict [("asset", .str release.asset), ("sha256", .str release.sha256),
    ("version", .str ttsimVersion), ("architecture", .str w.architecture)]

/-- The asset is verified again, and the descriptor is copied. -/
def finishFetch (d : Disk) : List (Step String Byte) × FetchEnd :=
  if (d.lookup release.asset).map sha256 = some release.sha256 then
    match w.descriptor with
    | .error e => ([], .raised e)
    | .ok text => (writes descriptorName text, .printed (fetchDocument w release))
  else ([], .exit "existing asset SHA-256 mismatch")

/-- The steps of `main` on the directory it finds, and its end. -/
def fetchMain (d : Disk) : List (Step String Byte) × FetchEnd :=
  match ttsimReleases.lookup w.architecture with
  | none => ([], .usage "official Linux aarch64/x86_64 asset required")
  | some release =>
    if w.system ≠ "Linux" then ([], .usage "run this on the target Linux environment")
    else
      match w.mkdir with
      | .error e => ([], .raised e)
      | .ok () =>
        match fetchAsset sha256 w release d with
        | (steps, .error e) => (steps, e)
        | (steps, .ok ()) =>
          (steps ++ (finishFetch sha256 w release (runSteps d steps)).1,
            (finishFetch sha256 w release (runSteps d steps)).2)

end Fetch

/-- A fetch interrupted after some of its steps. -/
structure FetchAttempt where
  world : FetchWorld
  cut : ℕ

def FetchAttempt.apply (sha256 : List Byte → String) (a : FetchAttempt) (d : Disk) : Disk :=
  runSteps d ((fetchMain sha256 a.world d).1.take a.cut)

/-- The directory after the attempts, in order. -/
def fetchSession (sha256 : List Byte → String) (d : Disk) (attempts : List FetchAttempt) : Disk :=
  attempts.foldl (fun d a => a.apply sha256 d) d

end RowReduce
