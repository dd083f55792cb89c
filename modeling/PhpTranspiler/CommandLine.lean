import PhpTranspiler.Options

namespace PhpTranspiler

inductive Command
  | transpile (input output : String) (sourceMap : Bool)
  | ast (input output : String)
  | check (input : String)
  deriving DecidableEq, Repr

structure Invocation where
  options : Options
  command : Command
  deriving DecidableEq, Repr

namespace CommandLine

inductive Verb
  | transpile
  | ast
  | check
  deriving DecidableEq, Repr

namespace Verb

def ofName? : String → Option Verb
  | "transpile" => some .transpile
  | "ast" => some .ast
  | "check" => some .check
  | _ => none

def hasOutput : Verb → Bool
  | .check => false
  | _ => true

end Verb

/-- What is given before the name of the command, or behind it. Nothing is given twice. -/
structure Given where
  frontEnd : Option FrontEnd := none
  strict : Bool := false
  output : Option String := none
  sourceMap : Bool := false
  input : Option String := none
  deriving DecidableEq, Repr

namespace Given

def setFrontEnd? (g : Given) (value : String) : Option Given :=
  match g.frontEnd, FrontEnd.ofName? value with
  | none, some f => some { g with frontEnd := some f }
  | _, _ => none

def setOutput? (g : Given) (value : String) : Option Given :=
  if g.output.isNone ∧ value ≠ "" then some { g with output := some value } else none

def setInput? (g : Given) (value : String) : Option Given :=
  if g.input.isNone ∧ value ≠ "" then some { g with input := some value } else none

end Given

/-- An argument as an option: whether it is a long one, its name, and the value that is attached to
it. A hyphen alone is no option. -/
inductive Form
  | long (name : String) (value : Option String)
  | short (letter : Char) (value : Option String)
  | divider
  | plain
  deriving DecidableEq, Repr

def Form.ofArgument (arg : String) : Form :=
  match arg.toList with
  | ['-', '-'] => .divider
  | '-' :: '-' :: cs =>
    let name := cs.takeWhile (· != '=')
    let value := match cs.dropWhile (· != '=') with
      | _ :: value => some (String.ofList value)
      | [] => none
    .long (String.ofList name) value
  | ['-'] => .plain
  | '-' :: c :: '=' :: value => .short c (some (String.ofList value))
  | ['-', c] => .short c none
  | '-' :: c :: value => .short c (some (String.ofList value))
  | _ => .plain

def setter? (verb : Option Verb) : Form → Option (Given → String → Option Given)
  | .long "frontend" _ => some Given.setFrontEnd?
  | .long "output" _ => if verb.any Verb.hasOutput then some Given.setOutput? else none
  | .short 'o' _ => if verb.any Verb.hasOutput then some Given.setOutput? else none
  | _ => none

def switch? (verb : Option Verb) (g : Given) : Form → Option Given
  | .long "strict" none => if g.strict then none else some { g with strict := true }
  | .long "source-map" none =>
    if verb = some .transpile ∧ !g.sourceMap then some { g with sourceMap := true } else none
  | _ => none

def Form.value? : Form → Option String
  | .long _ value => value
  | .short _ value => value
  | _ => none

/-- The arguments behind the name of the command. Behind a divider all are plain. -/
def behind? (verb : Verb) : Bool → Given → List String → Option Given
  | _, g, [] => some g
  | true, g, arg :: args => (g.setInput? arg).bind fun g => behind? verb true g args
  | false, g, arg :: args =>
    let form := Form.ofArgument arg
    match form with
    | .divider => behind? verb true g args
    | .plain => (g.setInput? arg).bind fun g => behind? verb false g args
    | _ =>
      match setter? (some verb) form, form.value?, args with
      | some set, some value, args => (set g value).bind fun g => behind? verb false g args
      | some set, none, value :: args =>
        if Form.ofArgument value = .plain then
          (set g value).bind fun g => behind? verb false g args
        else none
      | some _, none, [] => none
      | none, _, args => (switch? (some verb) g form).bind fun g => behind? verb false g args

def before? : Given → List String → Option (Given × Verb × List String)
  | _, [] => none
  | g, arg :: args =>
    let form := Form.ofArgument arg
    match form with
    | .divider => none
    | .plain => (Verb.ofName? arg).map fun verb => (g, verb, args)
    | _ =>
      match setter? none form, form.value?, args with
      | some set, some value, args => (set g value).bind fun g => before? g args
      | some set, none, value :: args =>
        if Form.ofArgument value = .plain then (set g value).bind fun g => before? g args
        else none
      | some _, none, [] => none
      | none, _, args => (switch? none g form).bind fun g => before? g args

/-- What the arguments ask for, or none if they are not well formed. The options that are given
behind the command win. -/
def parse? (args : List String) : Option Invocation :=
  (before? {} args).bind fun (before, verb, args) =>
    (behind? verb false {} args).bind fun behind =>
      behind.input.map fun input =>
        { options :=
            { frontEnd := (behind.frontEnd.or before.frontEnd).getD .pattern
              mode := if before.strict || behind.strict then .strict else .lenient }
          command := match verb with
            | .transpile => .transpile input (behind.output.getD "output.js") behind.sourceMap
            | .ast => .ast input (behind.output.getD "ast.json")
            | .check => .check input }

end CommandLine

end PhpTranspiler
