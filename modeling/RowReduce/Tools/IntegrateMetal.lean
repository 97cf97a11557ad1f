import RowReduce.Core.Delimiter
import RowReduce.Core.Fallible

/-!
# The CMake integration

What the tool writes into the pinned checkout, and how CMake reads a command
whose arguments are bracket or unquoted arguments. Quoted arguments, escape
sequences and nested parentheses do not occur in the line that names a path.
-/

namespace RowReduce

open Fallible Delimiter

/-- `PIN`. -/
def integrationPin : String := "89e1256c982a5b4739d173bcc446c8c748a44b40"

def integrationMarker : String := "# TT_ROW_REDUCE_LAB integration (tools/integrate_metal.py)"

/-- The line that adds the project's directory. -/
def addSubdirectory (project : String) : String :=
  "add_subdirectory([==[" ++ project ++ "]==] $\x7bCMAKE_BINARY_DIR\x7d/row-reduce-lab)"

def appendedText (project : String) : String :=
  "\n" ++ integrationMarker ++
    "\nset(ROW_REDUCE_BUILD_METAL ON CACHE BOOL \"Build pinned Metal host\" FORCE)\n" ++
    addSubdirectory project ++ "\n"

/-- The checkout: its `HEAD`, and `CMakeLists.txt` as committed and as it stands. -/
structure MetalCheckout where
  commit : String
  original : String
  current : String

/-- The text written to `CMakeLists.txt`, or the message of `parser.error`. -/
def integrateMetal (metal : MetalCheckout) (project : String) : Except String String := do
  throwIf (metal.commit ≠ integrationPin)
    "TT-Metal HEAD must equal upstream.lock; refusing an unpinned integration"
  throwIf ("]==]".toList <:+: project.toList) "unsupported path characters"
  throwIf (metal.current ∉ [metal.original, metal.original ++ appendedText project])
    "upstream CMakeLists has unrelated or differently configured edits; refusing to replace them"
  return metal.original ++ appendedText project

/-- The number of `=` in an opening bracket, and the text after it. -/
def openingBracket : List Char → Option (ℕ × List Char)
  | '[' :: s =>
    match s.dropWhile (· = '=') with
    | '[' :: rest => some ((s.takeWhile (· = '=')).length, rest)
    | _ => none
  | _ => none

def closingBracket (level : ℕ) : List Char := ']' :: (List.replicate level '=' ++ [']'])

/-- A newline right after the opening bracket is ignored. -/
def dropNewline : List Char → List Char
  | '\n' :: s => s
  | s => s

def isSeparation (c : Char) : Bool := c = ' ' || c = '\t' || c = '\n'

def isUnquoted (c : Char) : Bool := !isSeparation c && !"()#\"\\".toList.contains c

/-- One argument: the content of a bracket ends at the first closing bracket of its level. -/
def readArgument (s : List Char) : Option (List Char × List Char) :=
  match openingBracket s with
  | some (level, content) => splitFirst (closingBracket level) (dropNewline content)
  | none =>
    if s.takeWhile isUnquoted = [] then none
    else some (s.takeWhile isUnquoted, s.dropWhile isUnquoted)

/-- Arguments up to the closing parenthesis, each followed by it or by separation. -/
def readArguments : ℕ → List Char → Option (List String)
  | _, ')' :: _ => some []
  | fuel + 1, c :: s =>
    if isSeparation c then readArguments fuel s
    else
      match readArgument (c :: s) with
      | some (argument, d :: rest) =>
        if d = ')' || isSeparation d then
          (readArguments fuel (d :: rest)).map (String.ofList argument :: ·)
        else none
      | _ => none
  | _, _ => none

def isIdentifier (c : Char) : Bool := c.isAlphanum || c = '_'

/-- A command's name and arguments. -/
def readCommand (s : List Char) : Option (String × List String) :=
  match s.dropWhile isIdentifier with
  | '(' :: rest =>
    (readArguments rest.length rest).map fun arguments =>
      (String.ofList (s.takeWhile isIdentifier), arguments)
  | _ => none

end RowReduce
