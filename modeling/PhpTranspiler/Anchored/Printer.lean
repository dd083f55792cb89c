import PhpTranspiler.Anchored

namespace PhpTranspiler.Anchored

/-- A piece of a printed line: some text, or a place that what follows is traced back to. -/
inductive Cell
  | mark (place : UInt32)
  /-- A mark that stands before the blanks of the line if it is the first thing on it. -/
  | pin (place : UInt32)
  | text (text : String)
  deriving DecidableEq, Repr

structure Line where
  depth : Nat
  cells : List Cell
  deriving DecidableEq, Repr

def commaCells : List (List Cell) → List Cell
  | [] => []
  | [cells] => cells
  | cells :: next :: rest => cells ++ .text ", " :: commaCells (next :: rest)

/-- What is printed in front of a node that starts at `place`, where minifiers look for it. -/
def remark (place : UInt32) : List Cell :=
  if place = Place.effectFree then [.text "/*#__PURE__*/ "] else []

def dropEscapedNull : List Char → List Char
  | '\\' :: '\x00' :: cs => '\\' :: dropEscapedNull cs
  | c :: cs => c :: dropEscapedNull cs
  | [] => []

def Name.text (n : Name) : String := String.ofList (dropEscapedNull n.name.toList)

def Name.cells (n : Name) : List Cell :=
  remark n.place.lo ++ [.mark n.place.lo, .text n.text]

def Name.parameterCells (n : Name) : List Cell :=
  remark n.place.lo ++ n.cells ++ [.mark n.place.hi]

/-- Whether a point behind a number would be read as a part of it: it has digits only, and the first
of several is no zero. Low lines between digits do not count. -/
def takesPoint (raw : String) : Bool :=
  let ds := raw.toList.filter (· != '_')
  ds.all Char.isDigit && !(2 ≤ ds.length && ds.head? == some '0')

def numberCells (place : Place) (raw : String) : List Cell :=
  remark place.lo ++ [.mark place.lo, .text raw]

/-- Whether a text is the directive for strict mode in a spelling that does not count as one. -/
def isDisguisedDirective (value raw : String) : Bool :=
  value == "use strict" && raw.toList.contains '\\'

def textCells (place : Place) (value raw : String) : List Cell :=
  remark place.lo ++ remark place.lo ++ .mark place.lo ::
    if isDisguisedDirective value raw then [.pin place.lo, .text raw, .mark place.hi]
    else [.text raw]

def memberCells (place : Place) (object points : List Cell) (property : Name) : List Cell :=
  remark place.lo ++ .mark place.lo :: object ++ points ++
    remark (property.place.lo - 1) ++ .text "." :: property.cells ++ [.mark place.hi]

mutual

def Expression.cells : Expression → List Cell
  | .name n => n.cells
  | .null place => remark place.lo ++ [.mark place.lo, .text "null"]
  | .bool place true => remark place.lo ++ [.mark place.lo, .text "true"]
  | .bool place false => remark place.lo ++ [.mark place.lo, .text "false"]
  | .number place _ raw => remark place.lo ++ numberCells place raw
  | .text place value raw => textCells place value raw
  | .minus place operand =>
    remark place.lo ++ .mark place.lo :: .text "-" :: operand.cells
  | .call place callee args =>
    remark place.lo ++ .mark place.lo :: callee.cells ++ [.text "("] ++
      commaCells (Expression.listCells args) ++ [.text ")"]
  | .member place (.number p _ raw) property =>
    memberCells place (numberCells p raw) (if takesPoint raw then [.text "."] else []) property
  | .member place object property => memberCells place object.cells [] property

def Expression.listCells : List Expression → List (List Cell)
  | [] => []
  | e :: es => e.cells :: Expression.listCells es

end

def Declarator.cells (d : Declarator) : List Cell :=
  remark d.place.lo ++ .mark d.place.lo :: d.name.cells ++
    d.init.elim [] fun e => .text " = " :: e.cells

def functionKeyword (async generator : Bool) : String :=
  (if async then "async " else "") ++ (if generator then "function* " else "function ")

def closingCells (block : Place) : List Cell :=
  if block.hi = 0 then [.text "\x7d"]
  else remark (block.hi - 1) ++ [.mark (block.hi - 1), .text "\x7d"]

mutual

def Statement.lines (depth : Nat) : Statement → List Line
  | .declaration place ds =>
    [⟨depth, remark place.lo ++ [.mark place.lo, .text "var "] ++
      commaCells (ds.map Declarator.cells) ++ [.text ";"]⟩]
  | .expression place e => [⟨depth, remark place.lo ++ e.cells ++ [.text ";"]⟩]
  | .function place name async generator params block body =>
    let head := remark place.lo ++ [.mark place.lo, .text (functionKeyword async generator)] ++
      name.cells ++ [.text "("] ++ commaCells (params.map Name.parameterCells) ++ [.text ") "] ++
      remark block.lo ++ [.text "\x7b"]
    if body.isEmpty then [⟨depth, head ++ closingCells block⟩]
    else ⟨depth, head⟩ :: Statement.listLines (depth + 1) body ++ [⟨depth, closingCells block⟩]

def Statement.listLines (depth : Nat) : List Statement → List Line
  | [] => []
  | s :: ss => s.lines depth ++ Statement.listLines depth ss

end

def Statement.place : Statement → Place
  | .declaration place _ => place
  | .expression place _ => place
  | .function place _ _ _ _ _ _ => place

def prependCells (cells : List Cell) : List Line → List Line
  | [] => []
  | l :: ls => ⟨l.depth, cells ++ l.cells⟩ :: ls

/-- A statement of the module has its remark twice. -/
def Module.lines (m : Module) : List Line :=
  m.body.flatMap fun s => prependCells (remark s.place.lo) (s.lines 0)

def Cell.code : Cell → String
  | .mark _ => ""
  | .pin _ => ""
  | .text s => s

def indent (depth : Nat) : String := String.ofList (List.replicate (4 * depth) ' ')

def cellsCode : List Cell → String
  | [] => ""
  | c :: cs => c.code ++ cellsCode cs

def linesCode : List Line → String
  | [] => ""
  | l :: ls => indent l.depth ++ cellsCode l.cells ++ "\n" ++ linesCode ls

def Module.opening (m : Module) : List Cell := remark m.place.lo

def Module.code (m : Module) : String := cellsCode m.opening ++ linesCode m.lines

end PhpTranspiler.Anchored
