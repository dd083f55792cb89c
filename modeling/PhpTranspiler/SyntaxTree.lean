import PhpTranspiler.Item
import PhpTranspiler.Numeral
import PhpTranspiler.Quoted

namespace PhpTranspiler

/-- A node of the concrete syntax tree of a source. A node that is not named is a mark or a
keyword; `field` is the part that the node plays in its parent. -/
inductive Node
  | mk (kind : String) (named : Bool) (field : Option String) (span : Span)
      (children : List Node)
  deriving Repr

namespace Node

def kind : Node → String
  | .mk kind _ _ _ _ => kind

def named : Node → Bool
  | .mk _ named _ _ _ => named

def field : Node → Option String
  | .mk _ _ field _ _ => field

def span : Node → Span
  | .mk _ _ _ span _ => span

def children : Node → List Node
  | .mk _ _ _ _ children => children

def namedChildren (n : Node) : List Node := n.children.filter named

def child? (n : Node) (field : String) : Option Node :=
  n.children.find? fun c => c.field == some field

def text (source : String) (n : Node) : String := Text.slice source n.span

def excerpt (source : String) (n : Node) : Excerpt := ⟨n.span, n.text source⟩

end Node

namespace SyntaxTree

def unsupported (source construct : String) (n : Node) : Fault :=
  .unsupported construct (n.excerpt source)

def string (source : String) (n : Node) : Except Fault Scalar :=
  match Quoted.decode? (n.text source) with
  | some s => .ok (.text s)
  | none => .error (unsupported source "string escape" n)

def plainParts : List String := ["string_content", "string_value", "escape_sequence"]

def isInterpolated (n : Node) : Bool := n.namedChildren.any fun c => !plainParts.contains c.kind

/-- The scalar that the right side of an assignment spells. A minus may stand before a number, with
blanks between them. -/
def scalar (source : String) (n : Node) : Except Fault Scalar :=
  match n.kind with
  | "encapsed_string" =>
    if isInterpolated n then .error (unsupported source "interpolated string" n)
    else string source n
  | "string" => string source n
  | "integer" | "float" => .ok (.number (n.text source))
  | "boolean" => .ok (.bool (Text.sameWord (n.text source) "true"))
  | "null" => .ok .null
  | "unary_op_expression" =>
    let compact := (n.text source).toList.filter (!Text.isBlank ·)
    if compact.head? = some '-' ∧ (Numeral.read? (String.ofList compact)).isSome then
      .ok (.number (String.ofList compact))
    else .error (unsupported source "unary_op_expression" n)
  | kind => .error (unsupported source kind n)

def variableName (source : String) (n : Node) : String :=
  String.ofList ((n.text source).toList.dropWhile (· == '$'))

def argumentText (source : String) (n : Node) : String :=
  if n.kind = "parenthesized_expression" then Text.stripPair '(' ')' (n.text source)
  else n.text source

def assignment (source : String) (n e : Node) : Except Fault Item :=
  match (e.child? "left").filter (·.kind == "variable_name"), e.child? "right" with
  | none, _ => .error (unsupported source "assignment target" n)
  | some _, none => .error (unsupported source "assignment_expression" n)
  | some left, some right =>
    (scalar source right).map fun value =>
      .assignment (n.excerpt source) (variableName source left) value

def call (source : String) (n e : Node) : Except Fault Item :=
  match (e.child? "function").filter fun f => ["name", "qualified_name"].contains f.kind with
  | none => .error (unsupported source "dynamic call" n)
  | some f =>
    let args := match e.child? "arguments" with
      | some args => Text.stripPair '(' ')' (args.text source)
      | none => ""
    .ok (.call (n.excerpt source) (f.text source) args)

def print (source : String) (n e : Node) : Item :=
  let arg := match e.namedChildren with
    | arg :: _ => argumentText source arg
    | [] => ""
  .call (n.excerpt source) "print" arg

def expressionStatement (source : String) (n : Node) : Except Fault Item :=
  match n.namedChildren with
  | [] => .error (unsupported source "expression_statement" n)
  | e :: _ =>
    match e.kind with
    | "assignment_expression" => assignment source n e
    | "function_call_expression" => call source n e
    | "print_intrinsic" => .ok (print source n e)
    | kind => .error (unsupported source kind n)

def echo (source : String) (n : Node) : Item :=
  let args := n.namedChildren.filter (·.kind != "comment")
  .call (n.excerpt source) "echo" (Text.commaList (args.map (argumentText source)))

def parameters (source : String) : List Node → Except Fault (List String)
  | [] => .ok []
  | p :: ps =>
    if p.kind = "comment" then parameters source ps
    else match p.kind == "simple_parameter", p.child? "name" with
      | true, some name => (parameters source ps).map (variableName source name :: ·)
      | _, _ => .error (unsupported source p.kind p)

def function (source : String) (n : Node) (items : List Item) : Except Fault Item :=
  match n.child? "name", n.child? "body" with
  | none, _ => .error (unsupported source "anonymous function_definition" n)
  | some _, none => .error (unsupported source "function without body" n)
  | some name, some body =>
    let params := match n.child? "parameters" with
      | some list => parameters source list.namedChildren
      | none => .ok []
    params.map fun params =>
      .function (n.excerpt source) (name.text source) params
        (Text.stripPair '{' '}' (body.text source)) items

def Item.ofExcept : Except Fault Item → Item
  | .ok item => item
  | .error fault => .fault fault

mutual

/-- The item of a statement. Comments, tags and empty statements have none. -/
def item? (source : String) : Node → Option Item
  | .mk kind named field span children =>
    let n := Node.mk kind named field span children
    match kind with
    | "comment" | "php_tag" | "text_interpolation" | "empty_statement" => none
    | "expression_statement" => some (Item.ofExcept (expressionStatement source n))
    | "echo_statement" => some (echo source n)
    | "function_definition" =>
      some (Item.ofExcept (function source n (bodyItems source children)))
    | "ERROR" => some (.fault (.unrecognized (n.excerpt source)))
    | kind => some (.fault (unsupported source kind n))

def items (source : String) : List Node → List Item
  | [] => []
  | n :: ns => (if n.named then (item? source n).toList else []) ++ items source ns

def bodyItems (source : String) : List Node → List Item
  | [] => []
  | .mk _ _ field _ children :: ns =>
    if field = some "body" then items source children else bodyItems source ns

end

def scan (source : String) (root : Node) : List Item := items source root.children

end SyntaxTree

end PhpTranspiler
