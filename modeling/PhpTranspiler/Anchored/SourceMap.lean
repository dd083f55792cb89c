import PhpTranspiler.Anchored.Position
import PhpTranspiler.Anchored.Printer
import PhpTranspiler.Json

namespace PhpTranspiler.Anchored

structure Mapping where
  printed : Position
  place : UInt32
  deriving DecidableEq, Repr

/-- The state of tracing printed lines. At the start of a line a mark is held until the first text,
and a later one replaces it. -/
structure Trace where
  position : Position
  fresh : Bool
  held : Option UInt32
  mappings : List Mapping
  deriving Repr

namespace Trace

def start : Trace := ⟨.zero, true, none, []⟩

def record (t : Trace) (place : UInt32) : Trace :=
  let m : Mapping := ⟨t.position, place⟩
  if m ∈ t.mappings then t else { t with mappings := m :: t.mappings }

def settle (depth : Nat) (t : Trace) : Trace :=
  if t.fresh then
    let t := { t with position := t.position.after (indent depth).toList, fresh := false }
    { t.held.elim t t.record with held := none }
  else t

def write (depth : Nat) (t : Trace) (s : String) : Trace :=
  let t := t.settle depth
  { t with position := t.position.after s.toList }

def cell (depth : Nat) (t : Trace) : Cell → Trace
  | .mark place =>
    if place = 0 then t
    else if t.fresh then { t with held := some place }
    else t.record place
  | .pin place => if place = 0 then t else t.record place
  | .text s => if s = "" then t else t.write depth s

def line (t : Trace) (l : Line) : Trace :=
  let t := l.cells.foldl (cell l.depth) t
  { t with position := ⟨t.position.line + 1, 0⟩, fresh := true, held := none }

end Trace

def Module.mappings (m : Module) : List Mapping :=
  (m.lines.foldl Trace.line (m.opening.foldl (Trace.cell 0) Trace.start)).mappings.reverse

def base64 : List Char :=
  "ABCDEFGHIJKLMNOPQRSTUVWXYZabcdefghijklmnopqrstuvwxyz0123456789+/".toList

def base64Digit (n : Nat) : Char := base64.getD n 'A'

/-- Groups of five bits, the least significant first, with a sixth bit where more follow. -/
def groupsOf5 (n : Nat) : List Char :=
  if n < 32 then [base64Digit n] else base64Digit (n % 32 + 32) :: groupsOf5 (n / 32)
termination_by n
decreasing_by omega

def vlq (i : Int) : List Char := groupsOf5 (if i < 0 then 2 * i.natAbs + 1 else 2 * i.natAbs)

def delta (before now : Nat) : List Char := vlq ((now : Int) - (before : Int))

structure Segment where
  printed : Position
  source : Position
  deriving DecidableEq, Repr

/-- The characters of a text that places count. A byte order mark in front is none of them. -/
def countedChars (text : String) : List Char :=
  match text.toList with
  | '\ufeff' :: cs => cs
  | cs => cs

def Mapping.segment? (base : UInt32) (cs : List Char) (m : Mapping) : Option Segment :=
  if m.place = Place.synthetic then some ⟨m.printed, .zero⟩
  else if Place.reserved ≤ m.place ∨ cs.isEmpty then none
  else some ⟨m.printed, Position.zero.ofOffset (m.place - base).toNat cs⟩

/-- The text of the segments that follow `last`: differences of columns and lines, with a semicolon
for every end of a printed line and a comma between two segments of a line. A segment equal to the
one before it is left out. -/
def segmentsText (last : Segment) (first : Bool) : List Segment → List Char
  | [] => []
  | s :: ss =>
    if !first && s == last then segmentsText last first ss else
    let lines := s.printed.line - last.printed.line
    let column := if lines = 0 then last.printed.column else 0
    let separator := if lines = 0 then (if first then [] else [',']) else List.replicate lines ';'
    separator ++ delta column s.printed.column ++ delta 0 0 ++
      delta last.source.line s.source.line ++ delta last.source.column s.source.column ++
      segmentsText s false ss

/-- The map from the printed code back to `text`, which starts at `base`. The text is named if a
mapping refers to it, even to no position in it. -/
def Module.sourceMap (m : Module) (base : UInt32) (text filename : String) : String :=
  let segments := m.mappings.filterMap (Mapping.segment? base (countedChars text))
  let isNamed := m.mappings.any fun mapping => mapping.place < Place.reserved
  let sources := if isNamed then [Json.text filename] else []
  (Json.object [("version", .integer 3), ("sources", .list sources), ("names", .list []),
    ("mappings", .text (String.ofList (segmentsText ⟨.zero, .zero⟩ true segments)))]).compact

end PhpTranspiler.Anchored

namespace PhpTranspiler

structure Emitted where
  code : String
  sourceMap : Option String
  deriving DecidableEq, Repr

def firstPlace : UInt32 := 1

def Script.Program.emit (p : Script.Program) (text filename : String) (withMap : Bool) : Emitted :=
  let m := Anchored.Module.ofScript firstPlace p
  ⟨m.code, if withMap then some (m.sourceMap firstPlace text filename) else none⟩

end PhpTranspiler
