import PhpTranspiler.Json
import PhpTranspiler.Script.Tree

namespace PhpTranspiler.Script

def nodeJson (type : String) (span : Span) (members : List (String × Json)) : Json :=
  .object (("type", .text type) :: ("start", .integer span.start) :: ("end", .integer span.stop) ::
    members)

def Identifier.toJson (id : Identifier) : Json :=
  nodeJson "Identifier" id.span [("name", .text id.name)]

/-- Infinity has no form of its own. -/
def Value.toJson : Value → Json
  | .null => .null
  | .bool b => .bool b
  | .number x => if x.isFinite then .real x else .null
  | .text s => .text s

mutual

def Expression.toJson : Expression → Json
  | .identifier id => id.toJson
  | .literal span l =>
    nodeJson "Literal" span [("value", l.value.toJson), ("raw", .text l.raw)]
  | .call span callee args optional =>
    nodeJson "CallExpression" span
      [("callee", callee.toJson), ("arguments", .list (Expression.listToJson args)),
        ("optional", .bool optional)]
  | .member span object property computed optional =>
    nodeJson "MemberExpression" span
      [("object", object.toJson), ("property", property.toJson), ("computed", .bool computed),
        ("optional", .bool optional)]

def Expression.listToJson : List Expression → List Json
  | [] => []
  | e :: es => e.toJson :: Expression.listToJson es

end

def Declarator.toJson (d : Declarator) : Json :=
  nodeJson "VariableDeclarator" d.span
    [("id", d.id.toJson), ("init", d.init.elim .null Expression.toJson)]

mutual

def Statement.toJson : Statement → Json
  | .declaration span ds =>
    nodeJson "VariableDeclaration" span
      [("declarations", .list (ds.map Declarator.toJson)), ("kind", .text "var")]
  | .expression span e => nodeJson "ExpressionStatement" span [("expression", e.toJson)]
  | .function span id flags params block body =>
    nodeJson "FunctionDeclaration" span
      [("id", id.toJson), ("expression", .bool flags.expression),
        ("generator", .bool flags.generator), ("async", .bool flags.async),
        ("params", .list (params.map Identifier.toJson)),
        ("body", nodeJson "BlockStatement" block [("body", .list (Statement.listToJson body))])]

def Statement.listToJson : List Statement → List Json
  | [] => []
  | s :: ss => s.toJson :: Statement.listToJson ss

end

def Program.toJson (p : Program) : Json :=
  nodeJson "Program" p.span
    [("body", .list (Statement.listToJson p.body)), ("sourceType", .text "script")]

def span? (start stop : Json) : Option Span :=
  start.natural?.bind fun start => stop.natural?.map fun stop => ⟨start, stop⟩

def Value.ofJson? : Json → Option Value
  | .null => some .null
  | .bool b => some (.bool b)
  | .integer n => some (.number (.ofInt n))
  | .real x => some (.number x)
  | .text s => some (.text s)
  | _ => none

def Identifier.ofJson? (j : Json) : Option Identifier :=
  match j.fields? ["start", "end", "name"] with
  | some [some start, some stop, some name] => do
    let span ← span? start.1 stop.1
    let name ← name.1.text?
    some ⟨span, name⟩
  | _ => none

def literal? (j : Json) : Option Expression :=
  match j.fields? ["start", "end", "value", "raw"] with
  | some [some start, some stop, some value, some raw] => do
    let span ← span? start.1 stop.1
    let value ← Value.ofJson? value.1
    let raw ← raw.1.text?
    some (.literal span ⟨value, raw⟩)
  | _ => none

/-- The first kind of expression whose fields are all there. The name of the type does not
count. -/
def Expression.ofJson? (j : Json) : Option Expression :=
  (Identifier.ofJson? j).map .identifier
    <|> literal? j
    <|> (match j.fields? ["start", "end", "callee", "arguments", "optional"] with
      | some [some start, some stop, some callee, some list, some optional] => do
        let span ← span? start.1 stop.1
        let callee ← Expression.ofJson? callee.1
        let args ← list.1.items?
        let args ← args.mapM fun arg => Expression.ofJson? arg.1
        let optional ← optional.1.flag?
        some (.call span callee args optional)
      | _ => none)
    <|> (match j.fields? ["start", "end", "object", "property", "computed", "optional"] with
      | some [some start, some stop, some object, some property, some computed, some optional] => do
        let span ← span? start.1 stop.1
        let object ← Expression.ofJson? object.1
        let property ← Identifier.ofJson? property.1
        let computed ← computed.1.flag?
        let optional ← optional.1.flag?
        some (.member span object property computed optional)
      | _ => none)
termination_by sizeOf j
decreasing_by
  · exact callee.2
  · exact Nat.lt_trans arg.2 list.2
  · exact object.2

def Declarator.ofJson? (j : Json) : Option Declarator :=
  match j.fields? ["start", "end", "id", "init"] with
  | some [some start, some stop, some id, init] => do
    let span ← span? start.1 stop.1
    let id ← Identifier.ofJson? id.1
    match init.map Subtype.val with
    | none | some .null => some ⟨span, id, none⟩
    | some init => (Expression.ofJson? init).map fun e => ⟨span, id, some e⟩
  | _ => none

def declaration? (j : Json) : Option Statement :=
  match j.fields? ["start", "end", "declarations", "kind"] with
  | some [some start, some stop, some ds, some kind] => do
    let span ← span? start.1 stop.1
    let ds ← ds.1.items?
    let ds ← ds.mapM fun d => Declarator.ofJson? d.1
    if kind.1.choice? = some "var" then some (.declaration span ds) else none
  | _ => none

def expressionStatement? (j : Json) : Option Statement :=
  match j.fields? ["start", "end", "expression"] with
  | some [some start, some stop, some e] => do
    let span ← span? start.1 stop.1
    let e ← Expression.ofJson? e.1
    some (.expression span e)
  | _ => none

def flags? (expression generator async : Json) : Option FunctionFlags := do
  let expression ← expression.flag?
  let generator ← generator.flag?
  let async ← async.flag?
  some ⟨expression, generator, async⟩

def Statement.ofJson? (j : Json) : Option Statement :=
  declaration? j
    <|> expressionStatement? j
    <|> (match j.fields?
        ["start", "end", "id", "expression", "generator", "async", "params", "body"] with
      | some [some start, some stop, some id, some isExpression, some isGenerator, some isAsync,
          some params, some block] => do
        let span ← span? start.1 stop.1
        let id ← Identifier.ofJson? id.1
        let flags ← flags? isExpression.1 isGenerator.1 isAsync.1
        let params ← params.1.items?
        let params ← params.mapM fun p => Identifier.ofJson? p.1
        match block.1.fields? ["start", "end", "body"] with
        | some [some start, some stop, some list] => do
          let place ← span? start.1 stop.1
          let body ← list.1.items?
          let body ← body.mapM fun s => Statement.ofJson? s.1
          some (.function span id flags params place body)
        | _ => none
      | _ => none)
termination_by sizeOf j
decreasing_by exact Nat.lt_trans s.2 (Nat.lt_trans list.2 block.2)

def Program.ofJson? (j : Json) : Option Program :=
  match j.fields? ["start", "end", "body", "sourceType"] with
  | some [some start, some stop, some body, some type] => do
    let span ← span? start.1 stop.1
    let body ← body.1.items?
    let body ← body.mapM fun s => Statement.ofJson? s.1
    if type.1.choice? = some "script" then some ⟨span, body⟩ else none
  | _ => none

end PhpTranspiler.Script
