import PhpTranspiler.Script.Tree

namespace PhpTranspiler.Anchored

/-- A place among several texts that stand one behind the other, as 32-bit words. -/
structure Place where
  lo : UInt32
  hi : UInt32
  deriving DecidableEq, Repr

namespace Place

/-- The last words stand for no byte of a text, from this one on. -/
def reserved : UInt32 := 4294901759

/-- A node that starts here is marked as one without effects. -/
def effectFree : UInt32 := 4294967294

def synthetic : UInt32 := 4294967295

def between (a b : UInt32) : Place := if a ≤ b then ⟨a, b⟩ else ⟨b, a⟩

def ofSpan (base : UInt32) (s : Span) : Place :=
  between (base + s.start.toUInt32) (base + s.stop.toUInt32)

end Place

structure Name where
  place : Place
  name : String
  deriving DecidableEq, Repr

/-- The expressions that are printed. A number is not below zero: one that is stands as a minus in
front of its magnitude. -/
inductive Expression
  | name (name : Name)
  | null (place : Place)
  | bool (place : Place) (value : Bool)
  | number (place : Place) (value : Binary64) (raw : String)
  | text (place : Place) (value raw : String)
  | minus (place : Place) (operand : Expression)
  | call (place : Place) (callee : Expression) (arguments : List Expression)
  | member (place : Place) (object : Expression) (property : Name)
  deriving Repr

structure Declarator where
  place : Place
  name : Name
  init : Option Expression
  deriving Repr

inductive Statement
  | declaration (place : Place) (declarators : List Declarator)
  | expression (place : Place) (expression : Expression)
  | function (place : Place) (name : Name) (async generator : Bool) (params : List Name)
      (block : Place) (body : List Statement)
  deriving Repr

structure Module where
  place : Place
  body : List Statement
  deriving Repr

def Name.ofScript (base : UInt32) (id : Script.Identifier) : Name :=
  ⟨.ofSpan base id.span, id.name⟩

/-- The magnitude of a negative number stands one byte behind the number, and its text is the text
of the number without minus signs in front. -/
def Expression.ofLiteral (base : UInt32) (span : Span) (l : Script.Literal) : Expression :=
  let place := Place.ofSpan base span
  match l.value with
  | .null => .null place
  | .bool b => .bool place b
  | .text s => .text place s l.raw
  | .number x =>
    if x.isBelowZero then
      .minus place (.number (.ofSpan base ⟨span.start + 1, span.stop⟩) x.neg
        (String.ofList (l.raw.toList.dropWhile (· == '-'))))
    else .number place x l.raw

mutual

def Expression.ofScript (base : UInt32) : Script.Expression → Expression
  | .identifier id => .name (.ofScript base id)
  | .literal span l => .ofLiteral base span l
  | .call span callee args _ =>
    .call (.ofSpan base span) (.ofScript base callee) (Expression.listOfScript base args)
  | .member span object property _ _ =>
    .member (.ofSpan base span) (.ofScript base object) (.ofScript base property)

def Expression.listOfScript (base : UInt32) : List Script.Expression → List Expression
  | [] => []
  | e :: es => .ofScript base e :: Expression.listOfScript base es

end

def Declarator.ofScript (base : UInt32) (d : Script.Declarator) : Declarator :=
  ⟨.ofSpan base d.span, .ofScript base d.id, d.init.map (Expression.ofScript base)⟩

mutual

def Statement.ofScript (base : UInt32) : Script.Statement → Statement
  | .declaration span ds => .declaration (.ofSpan base span) (ds.map (Declarator.ofScript base))
  | .expression span e => .expression (.ofSpan base span) (.ofScript base e)
  | .function span id flags params block body =>
    .function (.ofSpan base span) (.ofScript base id) flags.async flags.generator
      (params.map (Name.ofScript base)) (.ofSpan base block) (Statement.listOfScript base body)

def Statement.listOfScript (base : UInt32) : List Script.Statement → List Statement
  | [] => []
  | s :: ss => .ofScript base s :: Statement.listOfScript base ss

end

def Module.ofScript (base : UInt32) (p : Script.Program) : Module :=
  ⟨.ofSpan base p.span, Statement.listOfScript base p.body⟩

end PhpTranspiler.Anchored
