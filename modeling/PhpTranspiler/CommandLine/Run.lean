import PhpTranspiler.Anchored.SourceMap
import PhpTranspiler.CommandLine
import PhpTranspiler.Script.Json

namespace PhpTranspiler.CommandLine

inductive FileFault
  | missing
  | directory
  | notDirectory
  | encoding
  | other (message : String)
  deriving DecidableEq, Repr

def FileFault.message : FileFault → String
  | .missing => "No such file or directory (os error 2)"
  | .directory => "Is a directory (os error 21)"
  | .notDirectory => "Not a directory (os error 20)"
  | .encoding => "stream did not contain valid UTF-8"
  | .other message => message

structure Workspace (m : Type → Type) where
  read : String → m (Except FileFault String)
  write : String → String → m (Except FileFault Unit)
  tree : String → m (Option Node)

/-- The error that ends a command, behind the lines that it has reported before. -/
structure Failure where
  notes : String := ""
  message : String
  cause : Option String := none
  deriving DecidableEq, Repr

namespace Failure

def indented (s : String) : String :=
  String.ofList (s.toList.flatMap fun c => if c = '\n' then "\n    ".toList else [c])

def text (f : Failure) : String :=
  let cause := match f.cause with
    | some cause => "\n\nCaused by:\n    " ++ indented cause
    | none => ""
  f.notes ++ "Error: " ++ f.message ++ cause ++ "\n"

end Failure

structure Outcome where
  status : Nat
  stderr : String
  deriving DecidableEq, Repr

def Outcome.ofExcept : Except Failure String → Outcome
  | .ok notes => ⟨0, notes⟩
  | .error f => ⟨1, f.text⟩

variable {m : Type → Type} [Monad m]

def attempt {α : Type} (message : String) (step : m (Except FileFault α)) :
    ExceptT Failure m α := do
  match ← (step : m (Except FileFault α)) with
  | .ok a => return a
  | .error fault => throw { message := message, cause := some fault.message }

def load (w : Workspace m) (frontEnd : FrontEnd) (input : String) : ExceptT Failure m Source := do
  let text ← attempt ("failed to read " ++ input) (w.read input)
  match frontEnd with
  | .pattern => return .plain text
  | .tree =>
    match ← (w.tree input : m (Option Node)) with
    | some root => return .parsed text root
    | none =>
      throw { message := "failed to transpile " ++ input, cause := some "parser produced no tree" }

def transpileFile (w : Workspace m) (options : Options) (input : String) :
    ExceptT Failure m Transpiled := do
  let source ← load w options.frontEnd input
  match transpile options.mode source with
  | .ok t => return t
  | .error fault =>
    throw { message := "failed to transpile " ++ input, cause := some fault.message }

def save (w : Workspace m) (path text : String) : ExceptT Failure m Unit :=
  attempt ("failed to write " ++ path) (w.write path text)

def report (input : String) : List Diagnostic → String
  | [] => ""
  | d :: ds => input ++ ": " ++ d.text ++ "\n" ++ report input ds

def perform (w : Workspace m) (options : Options) : Command → ExceptT Failure m String
  | .transpile input output sourceMap => do
    let t ← transpileFile w options input
    let e := t.program.emit t.text input sourceMap
    save w output e.code
    match e.sourceMap with
    | none => return ""
    | some map =>
      let path := output ++ ".map"
      save w path map
      return "Source map written to " ++ path ++ "\n"
  | .ast input output => do
    let t ← transpileFile w options input
    save w output (t.program.toJson.pretty 0)
    return ""
  | .check input => do
    let t ← transpileFile w options input
    if t.diagnostics.isEmpty then return "OK: " ++ input ++ "\n"
    else
      throw { notes := report input t.diagnostics
              message := input ++ ": " ++ Nat.repr t.diagnostics.length ++
                " statement(s) skipped" }

def run (w : Workspace m) (i : Invocation) : m Outcome := do
  let result ← (perform w i.options i.command).run
  return Outcome.ofExcept result

end PhpTranspiler.CommandLine
