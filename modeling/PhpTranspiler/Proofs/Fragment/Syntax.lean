import PhpTranspiler.Proofs.Lexemes
import PhpTranspiler.Transpile

namespace PhpTranspiler.Fragment

/-- An identifier in ASCII that is no reserved word. -/
structure Name where
  text : String
  isWord : Lexer.IsWord text.toList
  isAscii : ∀ c ∈ text.toList, c.toNat < 128
  isFree : text ∉ Script.reservedWords

/-- Text that stands for itself between double quotes. -/
structure Plain where
  text : String
  isPlain : ∀ c ∈ text.toList, c ≠ '"' ∧ c ≠ '\\' ∧ c ≠ '$'

inductive Argument
  | variable (name : Name)
  | text (value : Plain)
  | integer (value : { i : Int // i.natAbs < 10 ^ 15 })
  | bool (value : Bool)
  | null

def printers : List String := ["echo", "print", "print_r", "var_dump"]

def mathFunctions : List String := ["abs", "ceil", "floor", "round", "sqrt", "pow", "max", "min"]

/-- A call of a function that is neither a keyword nor one of the output statements. -/
structure Call where
  callee : Name
  args : List Argument
  isCallable : ∀ word ∈ "echo" :: "print" :: Pattern.keywords, Text.sameWord word callee.text = false
  printsOne : ∀ word ∈ ["print_r", "var_dump"], Text.sameWord word callee.text → args.length = 1

inductive Statement
  | assignment (name : Name) (value : Plain)
  | echo (arg : Argument)
  | print (arg : Argument)
  | call (call : Call)
  | function (name : Name) (params : List Name) (body : List Statement)

/-- How a program is laid out: whether it starts with a tag, and the blanks around statements. -/
structure Style where
  tagged : Bool
  gap : String
  isBlank : ∀ c ∈ gap.toList, Text.isAsciiBlank c

def Name.variable (n : Name) : String := "$" ++ n.text

def Plain.quoted (s : Plain) : String := "\"" ++ s.text ++ "\""

def Argument.source : Argument → String
  | .variable name => name.variable
  | .text value => value.quoted
  | .integer value => value.1.repr
  | .bool true => "true"
  | .bool false => "false"
  | .null => "null"

mutual

def Statement.source (gap : String) : Statement → String
  | .assignment name value => name.variable ++ " = " ++ value.quoted ++ ";"
  | .echo arg => "echo(" ++ arg.source ++ ");"
  | .print arg => "print(" ++ arg.source ++ ");"
  | .call c => c.callee.text ++ "(" ++ Text.commaList (c.args.map Argument.source) ++ ");"
  | .function name params body =>
    "function " ++ name.text ++ "(" ++ Text.commaList (params.map Name.variable) ++ ") \x7b" ++ gap ++
      Statement.sources gap body ++ "\x7d"

def Statement.sources (gap : String) : List Statement → String
  | [] => ""
  | s :: block => s.source gap ++ gap ++ Statement.sources gap block

end

def Style.tag (style : Style) : String := if style.tagged then "<?php\n" else ""

def Style.source (style : Style) (block : List Statement) : String :=
  style.tag ++ Statement.sources style.gap block

def Argument.translation : Argument → Script.Argument
  | .variable name => .variable name.text
  | .text value => .literal ⟨.text value.text, Script.quote value.text⟩
  | .integer value => .literal ⟨.number (.ofInt value.1), value.1.repr⟩
  | .bool true => .literal ⟨.bool true, "true"⟩
  | .bool false => .literal ⟨.bool false, "false"⟩
  | .null => .literal ⟨.null, "null"⟩

/-- Functions that print become `console.log`, those of `Math` move there, and all others keep their name. Names
of built-in functions are the same in any case of the letters. -/
def callee (name : String) : Script.Callee :=
  let word := name.map Char.toLower
  if word ∈ printers then .member "console" "log"
  else if word ∈ mathFunctions then .member "Math" word
  else .plain name

mutual

def Statement.translation : Statement → Script.Draft
  | .assignment name value => .variable name.text ⟨.text value.text, Script.quote value.text⟩
  | .echo arg => .call ⟨callee "echo", [arg.translation]⟩
  | .print arg => .call ⟨callee "print", [arg.translation]⟩
  | .call c => .call ⟨callee c.callee.text, c.args.map Argument.translation⟩
  | .function name params body => .function name.text (params.map Name.text) (Statement.translations body)

def Statement.translations : List Statement → List Script.Draft
  | [] => []
  | s :: block => s.translation :: Statement.translations block

end

def Statement.isAssignment : Statement → Bool
  | .assignment _ _ => true
  | _ => false

def Statement.isFunction : Statement → Bool
  | .function _ _ _ => true
  | _ => false

def result (block : List Statement) : Transpiled :=
  let drafts := Statement.translations block
  { program := ⟨⟨0, (Script.Draft.lines drafts).utf8ByteSize⟩, Script.Draft.nodes 0 drafts⟩
    text := Script.Draft.lines drafts
    diagnostics := []
    summary := ⟨block.countP Statement.isAssignment,
      block.countP fun s => !s.isAssignment && !s.isFunction, block.countP Statement.isFunction, 0⟩ }

end PhpTranspiler.Fragment
