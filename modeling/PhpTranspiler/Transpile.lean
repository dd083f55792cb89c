import PhpTranspiler.Pattern
import PhpTranspiler.Script.Draft
import PhpTranspiler.SyntaxTree

namespace PhpTranspiler

inductive Mode
  | lenient
  | strict
  deriving DecidableEq, Repr

/-- A source that is read from its tokens, or one that is read from its concrete syntax tree. -/
inductive Source
  | plain (text : String)
  | parsed (text : String) (root : Node)
  deriving Repr

namespace Source

def text : Source → String
  | .plain text => text
  | .parsed text _ => text

def items : Source → List Item
  | .plain text => Pattern.scan text
  | .parsed text root => SyntaxTree.scan text root

end Source

namespace Diagnostic

inductive Kind
  | statement
  | argument
  | construct
  deriving DecidableEq, Repr

def Kind.text : Kind → String
  | .statement => "unrecognized statement"
  | .argument => "unsupported builtin argument"
  | .construct => "unsupported construct"

end Diagnostic

structure Diagnostic where
  kind : Diagnostic.Kind
  span : Span
  message : String
  deriving DecidableEq, Repr

namespace Diagnostic

def text (d : Diagnostic) : String :=
  d.kind.text ++ " at bytes " ++ Nat.repr d.span.start ++ ".." ++ Nat.repr d.span.stop ++ ": " ++
    d.message

def ofFault (f : Fault) : Diagnostic :=
  let kind := match f with
    | .unrecognized _ => Kind.statement
    | .unsupported _ _ => Kind.construct
  ⟨kind, f.span, f.message⟩

def ofRefusal (place : Excerpt) (r : Refusal) : Diagnostic :=
  let kind := match r with
    | .reserved _ => Kind.construct
    | _ => Kind.argument
  ⟨kind, place.span, r.message ++ " in `" ++ place.text ++ "`"⟩

end Diagnostic

open Script

namespace Transpile

def checkNames : List String → Except Refusal Unit
  | [] => .ok ()
  | name :: names => (checkName name).bind fun _ => checkNames names

def declare (name : String) (value : Scalar) : Except Refusal Draft :=
  (checkName name).bind fun _ => (Literal.ofScalar value).map (Draft.variable name)

def invoke (callee args : String) : Except Refusal Draft :=
  (Call.ofSource callee args).bind fun c => (checkNames c.names).map fun _ => .call c

def settle (place : Excerpt) : Except Refusal Draft → Option Draft × List Diagnostic
  | .ok d => (some d, [])
  | .error r => (none, [.ofRefusal place r])

def report (mode : Mode) (f : Fault) : Except Fault (List Diagnostic) :=
  match mode, f with
  | .strict, .unrecognized _ => .error f
  | _, _ => .ok [.ofFault f]

mutual

/-- What becomes of an item, and what is reported about it and the items in its body. A function
with a reserved word for its name or a parameter is dropped whole, and its body is not visited. -/
def lower (mode : Mode) : Item → Except Fault (Option Draft × List Diagnostic)
  | .assignment place name value => .ok (settle place (declare name value))
  | .call place callee args => .ok (settle place (invoke callee args))
  | .function place name params _ items =>
    match checkNames (name :: params) with
    | .error r => .ok (none, [.ofRefusal place r])
    | .ok _ => (lowerAll mode items).map fun (body, ds) => (some (.function name params body), ds)
  | .fault f => (report mode f).map fun ds => (none, ds)

def lowerAll (mode : Mode) : List Item → Except Fault (List Draft × List Diagnostic)
  | [] => .ok ([], [])
  | item :: items =>
    (lower mode item).bind fun (draft, ds) =>
      (lowerAll mode items).map fun (drafts, rest) => (draft.toList ++ drafts, ds ++ rest)

end

end Transpile

structure Summary where
  assignments : Nat
  calls : Nat
  functions : Nat
  skipped : Nat
  deriving DecidableEq, Repr

namespace Summary

def zero : Summary := ⟨0, 0, 0, 0⟩

def count (s : Summary) : Option Draft → Summary
  | some (.variable _ _) => { s with assignments := s.assignments + 1 }
  | some (.call _) => { s with calls := s.calls + 1 }
  | some (.function _ _ _) => { s with functions := s.functions + 1 }
  | none => { s with skipped := s.skipped + 1 }

end Summary

/-- The state of a run over the items of a source. All of the source before `consumed` is dealt
with. -/
structure Run where
  page : Page
  diagnostics : List Diagnostic
  summary : Summary
  consumed : Nat
  deriving Repr

namespace Run

def start : Run := ⟨.empty, [], .zero, 0⟩

def take (mode : Mode) (r : Run) (item : Item) : Except Fault Run :=
  (Transpile.lower mode item).map fun (draft, ds) =>
    { page := draft.elim r.page r.page.append
      diagnostics := r.diagnostics ++ ds
      summary := r.summary.count draft
      consumed := max item.span.stop r.consumed }

def through (mode : Mode) (ink : Nat) (r : Run) : List Item → Except Fault Run
  | [] => .ok r
  | item :: items =>
    if r.consumed < ink then (r.take mode item).bind fun r => through mode ink r items else .ok r

end Run

structure Transpiled where
  program : Program
  text : String
  diagnostics : List Diagnostic
  summary : Summary
  deriving Repr

/-- The JavaScript form of a source. The run ends when only blanks are left, and in strict mode at
the first statement that is not recognized. -/
def transpile (mode : Mode) (source : Source) : Except Fault Transpiled :=
  (Run.start.through mode (Text.inkEnd source.text) source.items).map fun r =>
    ⟨r.page.program, r.page.text, r.diagnostics, r.summary⟩

end PhpTranspiler
