import PhpTranspiler.Script.Call
import PhpTranspiler.Script.Tree

namespace PhpTranspiler.Script

/-- A statement that has no place in a text yet. -/
inductive Draft
  | variable (name : String) (value : Literal)
  | call (call : Call)
  | function (name : String) (params : List String) (body : List Draft)
  deriving Repr

namespace Draft

mutual

def text : Draft → String
  | .variable name value => "var " ++ name ++ " = " ++ value.raw ++ ";"
  | .call c => c.callee.text ++ "(" ++ Text.commaList (c.args.map Argument.text) ++ ");"
  | .function name params body =>
    "function " ++ name ++ "(" ++ Text.commaList params ++ ") " ++
      (if body.isEmpty then "\x7b \x7d" else "\x7b\n" ++ lines body ++ "\x7d")

def lines : List Draft → String
  | [] => ""
  | d :: ds => text d ++ "\n" ++ lines ds

end

def callee (start : Nat) : Callee → Expression
  | .plain name => .identifier (.at start name)
  | .member object property =>
    let object := Identifier.at start object
    let property := Identifier.at (object.span.stop + 1) property
    .member ⟨start, property.span.stop⟩ (.identifier object) property false false

def argument (start : Nat) : Argument → Expression
  | .variable name => .identifier (.at start name)
  | .literal l => .literal ⟨start, start + l.raw.utf8ByteSize⟩ l

def arguments : Nat → List Argument → List Expression
  | _, [] => []
  | start, arg :: args =>
    argument start arg :: arguments (start + arg.text.utf8ByteSize + 2) args

/-- The parameters of a function whose parentheses open before `start`. Each is placed one byte
behind the place of the one before it, however long the names are. -/
def params : Nat → List String → List Identifier
  | _, [] => []
  | start, name :: names => .at start name :: params (start + 1) names

mutual

def node (start : Nat) : Draft → Statement
  | .variable name value =>
    let id := Identifier.at (start + 4) name
    let init : Span := ⟨id.span.stop + 3, id.span.stop + 3 + value.raw.utf8ByteSize⟩
    .declaration ⟨start, init.stop + 1⟩
      [⟨⟨id.span.start, init.stop⟩, id, some (.literal init value)⟩]
  | .call c =>
    let args := start + c.callee.text.utf8ByteSize + 1
    let stop := args + (Text.commaList (c.args.map Argument.text)).utf8ByteSize + 1
    .expression ⟨start, stop + 1⟩
      (.call ⟨start, stop⟩ (callee start c.callee) (arguments args c.args) false)
  | .function name ps body =>
    let id := Identifier.at (start + 9) name
    let block := id.span.stop + 1 + (Text.commaList ps).utf8ByteSize + 2
    let stop := start + (text (.function name ps body)).utf8ByteSize
    .function ⟨start, stop⟩ id ⟨false, false, false⟩ (params (id.span.stop + 1) ps)
      ⟨block, stop⟩ (nodes (block + 2) body)

def nodes (start : Nat) : List Draft → List Statement
  | [] => []
  | d :: ds => node start d :: nodes (start + (text d).utf8ByteSize + 1) ds

end

end Draft

/-- The text laid out so far, one statement a line, and the nodes that stand in it. -/
structure Page where
  body : List Statement
  text : String
  deriving Repr

namespace Page

def empty : Page := ⟨[], ""⟩

def cursor (p : Page) : Nat := p.text.utf8ByteSize

def append (p : Page) (d : Draft) : Page :=
  ⟨p.body ++ [d.node p.cursor], p.text ++ d.text ++ "\n"⟩

def program (p : Page) : Program := ⟨⟨0, p.cursor⟩, p.body⟩

theorem cursor_append (p : Page) (d : Draft) :
    (p.append d).cursor = p.cursor + d.text.utf8ByteSize + 1 := by
  simp only [cursor, append, String.utf8ByteSize_append]
  rfl

end Page

end PhpTranspiler.Script
