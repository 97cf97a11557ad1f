import Mathlib.Data.List.Lex
import Mathlib.Data.List.Sort
import Mathlib.Data.String.Basic
import RowReduce.Runner.JsonDumps

/-!
# The identity of the source

The manifest of the project's files and its hash, which the runner records before
the first process and compares after the last one.
-/

namespace RowReduce

open Hexadecimal

/-- The parts of the project root, and the regular files below it by their parts below it. -/
structure SourceTree where
  root : List String
  files : List (List String × List Byte)
  distinct : (files.map Prod.fst).Nodup
  separated : ∀ p ∈ files, p.1 ≠ [] ∧ ∀ part ∈ p.1, '/' ∉ part.toList

def sourceNames : List String := ["CMakeLists.txt", "upstream.lock", "NOTICE", "LICENSE"]

def sourceDirectories : List String := ["src", "include", "kernels", "tools", "cmake", "tests"]

/-- `str` of a relative path. -/
def relativeName (parts : List String) : String :=
  String.ofList (['/'].intercalate (parts.map String.toList))

namespace SourceTree

variable (t : SourceTree)

/-- The named files, and what lies below a source directory outside `__pycache__`. -/
def selects : List String → Bool
  | [] => false
  | [name] => sourceNames.contains name
  | directory :: rest =>
    sourceDirectories.contains directory && !(t.root ++ directory :: rest).contains "__pycache__"

def selected : List (List String × List Byte) := t.files.filter fun p => t.selects p.1

variable (sha256 : List Byte → String)

/-- The hash of each selected file by its name, in the order of the paths. -/
def manifest : List (String × String) :=
  (t.selected.insertionSort fun p q => p.1 ≤ q.1).map fun p => (relativeName p.1, sha256 p.2)

/-- `json.dumps(manifest, sort_keys=True)`. -/
def manifestText : List Char :=
  dumpValue (fun _ => "") {} 0 (.dict (((t.manifest sha256).insertionSort fun p q => p.1 ≤ q.1).map
    fun p => (p.1, .str p.2)))

def treeSha256 : String := sha256 (asciiBytes (t.manifestText sha256))

end SourceTree

/-- What `source_identity` finds: the files, and what `git` says where it can be asked. -/
structure SourceView where
  tree : SourceTree
  commit : Option String
  dirty : Option Bool

/-- `source_identity`. -/
def SourceView.identity (sha256 : List Byte → String) (v : SourceView) : Json :=
  .dict [("commit", v.commit.elim .null .str), ("dirty", v.dirty.elim .null .bool),
    ("tree_sha256", .str (v.tree.treeSha256 sha256)),
    ("files", .dict ((v.tree.manifest sha256).map fun p => (p.1, .str p.2)))]

end RowReduce
