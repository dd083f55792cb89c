import PhpTranspiler.Lexer
import PhpTranspiler.Nesting
import PhpTranspiler.Quoted
import PhpTranspiler.Script.Literal

namespace PhpTranspiler.Script

inductive Builtin
  | log
  | math (property : String)
  deriving DecidableEq, Repr

def builtins : List (String × Builtin) :=
  [("echo", .log), ("print", .log), ("print_r", .log), ("var_dump", .log), ("abs", .math "abs"),
    ("ceil", .math "ceil"), ("floor", .math "floor"), ("round", .math "round"),
    ("sqrt", .math "sqrt"), ("pow", .math "pow"), ("max", .math "max"), ("min", .math "min")]

def Builtin.ofName? (name : String) : Option Builtin :=
  (builtins.find? fun entry => Text.sameWord entry.1 name).map Prod.snd

/-- Words that name nothing in a strict program. -/
def reservedWords : List String :=
  ["arguments", "await", "break", "case", "catch", "class", "const", "continue", "debugger",
    "default", "delete", "do", "else", "enum", "eval", "export", "extends", "false", "finally",
    "for", "function", "if", "implements", "import", "in", "instanceof", "interface", "let",
    "new", "null", "package", "private", "protected", "public", "return", "static", "super",
    "switch", "this", "throw", "true", "try", "typeof", "var", "void", "while", "with", "yield"]

def checkName (name : String) : Except Refusal Unit :=
  if name ∈ reservedWords then .error (.reserved name) else .ok ()

inductive Callee
  | member (object property : String)
  | plain (name : String)
  deriving DecidableEq, Repr

def Callee.text : Callee → String
  | .member object property => object ++ "." ++ property
  | .plain name => name

inductive Argument
  | variable (name : String)
  | literal (literal : Literal)
  deriving DecidableEq, Repr

namespace Argument

def text : Argument → String
  | .variable name => name
  | .literal l => l.raw

def scalar? (t : Token) : Option Scalar :=
  match t.kind with
  | .quoted _ true => (Quoted.decode? t.text).map .text
  | .number => some (.number t.text)
  | .word =>
    if t.isWord "true" then some (.bool true)
    else if t.isWord "false" then some (.bool false)
    else if t.isWord "null" then some .null
    else none
  | _ => none

/-- An argument is a variable, a scalar or a number after a minus. -/
def ofTokens (group : List Token) : Except Refusal Argument :=
  let refuse := Except.error (.argument (Token.spelled group))
  match group with
  | [t] =>
    if t.kind = .variable then .ok (.variable t.name)
    else match scalar? t with
      | some s => (Literal.ofScalar s).map .literal
      | none => refuse
  | [minus, n] =>
    if minus.text = "-" ∧ n.kind = .number then
      (Literal.ofScalar (.number ("-" ++ n.text))).map .literal
    else refuse
  | _ => refuse

end Argument

def arguments (raw : String) : Except Refusal (List Argument) :=
  let tokens := Lexer.tokenize raw
  if tokens.isEmpty then .ok [] else (Nesting.groups 0 tokens).mapM Argument.ofTokens

structure Call where
  callee : Callee
  args : List Argument
  deriving DecidableEq, Repr

namespace Call

def log : Callee := .member "console" "log"

def ofSource (name raw : String) : Except Refusal Call :=
  (arguments raw).bind fun args =>
    match Builtin.ofName? name with
    | some .log => if args.length = 1 then .ok ⟨log, args⟩ else .error (.arity name args.length)
    | some (.math property) => .ok ⟨.member "Math" property, args⟩
    | none => .ok ⟨.plain name, args⟩

def isLog (c : Call) : Bool := c.callee == log

def names (c : Call) : List String :=
  (match c.callee with
    | .plain name => [name]
    | .member _ _ => []) ++
  c.args.filterMap fun arg =>
    match arg with
    | .variable name => some name
    | .literal _ => none

end Call

end PhpTranspiler.Script
