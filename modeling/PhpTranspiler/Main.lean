import PhpTranspiler.CommandLine.Run
import PhpTranspiler.Json.Reader
import PhpTranspiler.SyntaxTree.Json

namespace PhpTranspiler.CommandLine

def FileFault.ofCode? (code : UInt32) : Option FileFault :=
  if code = 20 ∨ code = -20 then some .notDirectory
  else if code = 21 ∨ code = -21 then some .directory
  else none

def FileFault.ofError (e : IO.Error) : FileFault :=
  match e with
  | .noFileOrDirectory .. => .missing
  | .inappropriateType _ code _ => (ofCode? code).getD (.other (toString e))
  | _ => .other (toString e)

def readFile (path : String) : IO (Except FileFault String) := do
  try
    let bytes ← IO.FS.readBinFile path
    return (String.fromUTF8? bytes).elim (.error .encoding) .ok
  catch e => return .error (.ofError e)

/-- The files of the machine. The tree of a source stands beside it, in a file whose name ends in
`.tree.json`. -/
def machine : Workspace IO where
  read := readFile
  write path text := do
    try
      IO.FS.writeFile path text
      return .ok ()
    catch e => return .error (.ofError e)
  tree path := do
    match ← readFile (path ++ ".tree.json") with
    | .ok text => return (Json.read? text).bind Node.ofJson?
    | .error _ => return none

def usage : String :=
  "usage: [--frontend pattern|tree-sitter] [--strict] COMMAND\n" ++
  "  transpile INPUT [-o FILE] [--source-map]\n" ++
  "  ast INPUT [-o FILE]\n" ++
  "  check INPUT\n"

end PhpTranspiler.CommandLine

open PhpTranspiler CommandLine in
def main (args : List String) : IO UInt32 := do
  match parse? args with
  | none =>
    IO.eprint usage
    return 2
  | some invocation =>
    let outcome ← run machine invocation
    IO.eprint outcome.stderr
    return outcome.status.toUInt32
