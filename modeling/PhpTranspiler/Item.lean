import PhpTranspiler.Text

namespace PhpTranspiler

/-- A scalar as the source writes it: a string is decoded, a numeral is kept as text. -/
inductive Scalar
  | text (value : String)
  | number (numeral : String)
  | bool (value : Bool)
  | null
  deriving DecidableEq, Repr

structure Excerpt where
  span : Span
  text : String
  deriving DecidableEq, Repr

/-- A piece of the source that is no statement. -/
inductive Fault
  | unrecognized (place : Excerpt)
  | unsupported (construct : String) (place : Excerpt)
  deriving DecidableEq, Repr

namespace Fault

def place : Fault → Excerpt
  | .unrecognized p => p
  | .unsupported _ p => p

def span (f : Fault) : Span := f.place.span

def message : Fault → String
  | .unrecognized p => "unrecognized statement: " ++ p.text
  | .unsupported construct p => "unsupported construct `" ++ construct ++ "`: " ++ p.text

end Fault

inductive Item
  | assignment (place : Excerpt) (name : String) (value : Scalar)
  /-- `callee(args);`, with the arguments as the text between the parentheses. -/
  | call (place : Excerpt) (callee args : String)
  | function (place : Excerpt) (name : String) (params : List String) (body : String)
      (items : List Item)
  | fault (fault : Fault)
  deriving Repr

namespace Item

def span : Item → Span
  | .assignment p _ _ => p.span
  | .call p _ _ => p.span
  | .function p _ _ _ _ => p.span
  | .fault f => f.span

end Item

inductive Shape
  | assignment
  | call
  | function
  deriving DecidableEq, Repr

namespace Shape

def name : Shape → String
  | .assignment => "variable assignment"
  | .call => "function call"
  | .function => "function declaration"

def ofName? (s : String) : Option Shape := [assignment, call, function].find? (·.name == s)

end Shape

end PhpTranspiler
