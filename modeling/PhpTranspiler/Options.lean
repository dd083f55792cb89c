import PhpTranspiler.Json
import PhpTranspiler.Transpile

namespace PhpTranspiler

inductive FrontEnd
  | pattern
  | tree
  deriving DecidableEq, Repr

namespace FrontEnd

def name : FrontEnd → String
  | .pattern => "pattern"
  | .tree => "tree-sitter"

def ofName? (s : String) : Option FrontEnd := [pattern, tree].find? (·.name == s)

end FrontEnd

namespace Mode

def name : Mode → String
  | .lenient => "lenient"
  | .strict => "strict"

def ofName? (s : String) : Option Mode := [lenient, strict].find? (·.name == s)

end Mode

structure Options where
  frontEnd : FrontEnd := .pattern
  mode : Mode := .lenient
  deriving DecidableEq, Repr

namespace Options

def toJson (o : Options) : Json :=
  .object [("frontend", .text o.frontEnd.name), ("mode", .text o.mode.name)]

def ofJson? (j : Json) : Option Options :=
  match j.fields? ["frontend", "mode"] with
  | some [some frontEnd, some mode] => do
    let frontEnd ← frontEnd.1.choice?
    let frontEnd ← FrontEnd.ofName? frontEnd
    let mode ← mode.1.choice?
    let mode ← Mode.ofName? mode
    some ⟨frontEnd, mode⟩
  | _ => none

end Options

end PhpTranspiler
