import PhpTranspiler.Script.Literal

namespace PhpTranspiler.Script

structure Identifier where
  span : Span
  name : String
  deriving DecidableEq, Repr

def Identifier.at (start : Nat) (name : String) : Identifier :=
  ⟨⟨start, start + name.utf8ByteSize⟩, name⟩

inductive Expression
  | identifier (id : Identifier)
  | literal (span : Span) (literal : Literal)
  | call (span : Span) (callee : Expression) (arguments : List Expression) (optional : Bool)
  | member (span : Span) (object : Expression) (property : Identifier)
      (computed optional : Bool)
  deriving Repr

def Expression.span : Expression → Span
  | .identifier id => id.span
  | .literal span _ => span
  | .call span _ _ _ => span
  | .member span _ _ _ _ => span

structure Declarator where
  span : Span
  id : Identifier
  init : Option Expression
  deriving Repr

structure FunctionFlags where
  expression : Bool
  generator : Bool
  async : Bool
  deriving DecidableEq, Repr

inductive Statement
  | declaration (span : Span) (declarators : List Declarator)
  | expression (span : Span) (expression : Expression)
  | function (span : Span) (id : Identifier) (flags : FunctionFlags) (params : List Identifier)
      (block : Span) (body : List Statement)
  deriving Repr

namespace Statement

def span : Statement → Span
  | .declaration span _ => span
  | .expression span _ => span
  | .function span _ _ _ _ _ => span

def kind : Statement → String
  | .declaration _ _ => "VariableDeclaration"
  | .expression _ _ => "ExpressionStatement"
  | .function _ _ _ _ _ _ => "FunctionDeclaration"

end Statement

structure Program where
  span : Span
  body : List Statement
  deriving Repr

end PhpTranspiler.Script
