import PhpTranspiler.Decimal

namespace PhpTranspiler

/-- A JSON value. Numbers that are written as integers and fit 64 bits are kept apart from the
others, and the members of an object keep their order. -/
inductive Json
  | null
  | bool (value : Bool)
  | integer (value : Int)
  | real (value : Binary64)
  | text (value : String)
  | list (items : List Json)
  | object (members : List (String × Json))
  deriving Repr

namespace Json

def escape (c : Char) : List Char :=
  match c with
  | '"' => ['\\', '"']
  | '\\' => ['\\', '\\']
  | '\x08' => ['\\', 'b']
  | '\t' => ['\\', 't']
  | '\n' => ['\\', 'n']
  | '\x0c' => ['\\', 'f']
  | '\r' => ['\\', 'r']
  | c => if c.toNat < 0x20 then '\\' :: 'u' :: Digits.hex 4 c.toNat else [c]

def quote (s : String) : String := String.ofList ('"' :: s.toList.flatMap escape ++ ['"'])

/-- The fewest digits that stand for a number, written out with at least one place if the leading
digit is worth between `10 ^ -5` and `10 ^ 15`, else with an exponent. -/
def magnitudeText (rank : Nat) : List Char :=
  if rank = 0 then ['0', '.', '0']
  else
    let d := Decimal.shortest .even rank
    if -5 ≤ d.magnitude ∧ d.magnitude ≤ 15 then
      d.positional ++ (if 0 ≤ d.exponent then ['.', '0'] else [])
    else d.scientific

def realText (x : Binary64) : String :=
  String.ofList ((if x.negative then ['-'] else []) ++ magnitudeText x.rank)

def integerText (n : Int) : String :=
  if n < 0 then "-" ++ Nat.repr n.natAbs else Nat.repr n.natAbs

mutual

def compact : Json → String
  | .null => "null"
  | .bool true => "true"
  | .bool false => "false"
  | .integer n => integerText n
  | .real x => realText x
  | .text s => quote s
  | .list items => "[" ++ compactItems items ++ "]"
  | .object members => "\x7b" ++ compactMembers members ++ "\x7d"

def compactItems : List Json → String
  | [] => ""
  | [j] => compact j
  | j :: k :: rest => compact j ++ "," ++ compactItems (k :: rest)

def compactMembers : List (String × Json) → String
  | [] => ""
  | [(name, j)] => quote name ++ ":" ++ compact j
  | (name, j) :: m :: rest => quote name ++ ":" ++ compact j ++ "," ++ compactMembers (m :: rest)

end

def newline (depth : Nat) : String :=
  String.ofList ('\n' :: List.replicate (2 * depth) ' ')

mutual

def pretty (depth : Nat) : Json → String
  | .list [] => "[]"
  | .list items => "[" ++ prettyItems (depth + 1) items ++ newline depth ++ "]"
  | .object [] => "\x7b\x7d"
  | .object members => "\x7b" ++ prettyMembers (depth + 1) members ++ newline depth ++ "\x7d"
  | .null => "null"
  | .bool true => "true"
  | .bool false => "false"
  | .integer n => integerText n
  | .real x => realText x
  | .text s => quote s

def prettyItems (depth : Nat) : List Json → String
  | [] => ""
  | [j] => newline depth ++ pretty depth j
  | j :: k :: rest => newline depth ++ pretty depth j ++ "," ++ prettyItems depth (k :: rest)

def prettyMembers (depth : Nat) : List (String × Json) → String
  | [] => ""
  | [(name, j)] => newline depth ++ quote name ++ ": " ++ pretty depth j
  | (name, j) :: m :: rest =>
    newline depth ++ quote name ++ ": " ++ pretty depth j ++ "," ++ prettyMembers depth (m :: rest)

end

abbrev Part (j : Json) : Type := { k : Json // sizeOf k < sizeOf j }

theorem sizeOf_lt_list {k : Json} {items : List Json} (h : k ∈ items) :
    sizeOf k < sizeOf (Json.list items) := by
  have := List.sizeOf_lt_of_mem h
  simp only [list.sizeOf_spec]
  omega

theorem sizeOf_lt_object {name : String} {k : Json} {members : List (String × Json)}
    (h : (name, k) ∈ members) : sizeOf k < sizeOf (Json.object members) := by
  have := List.sizeOf_lt_of_mem h
  simp only [Prod.mk.sizeOf_spec] at this
  simp only [object.sizeOf_spec]
  omega

def items? (j : Json) : Option (List j.Part) :=
  match j with
  | .list items => some (items.attach.map fun k => ⟨k.1, sizeOf_lt_list k.2⟩)
  | _ => none

/-- The member of an object, the last one if there are several of the name. -/
def member? (j : Json) (name : String) : Option j.Part :=
  match j with
  | .object members =>
    (members.attach.findRev? fun m => m.1.1 == name).map fun m => ⟨m.1.2, sizeOf_lt_object m.2⟩
  | _ => none

/-- The fields of a record, which is written as an object with these members, or as a list that
holds exactly these fields in their order. -/
def fields? (names : List String) (j : Json) : Option (List (Option j.Part)) :=
  match j with
  | .object members => some (names.map (Json.object members).member?)
  | .list items =>
    if items.length = names.length then (Json.list items).items?.map (·.map some) else none
  | _ => none

/-- One of some names, which is written as the name, or as an object whose one member has that name
and is null. -/
def choice? : Json → Option String
  | .text s => some s
  | .object [(name, .null)] => some name
  | _ => none

def flag? : Json → Option Bool
  | .bool b => some b
  | _ => none

def text? : Json → Option String
  | .text s => some s
  | _ => none

def natural? : Json → Option Nat
  | .integer n => if 0 ≤ n ∧ n < 0x10000000000000000 then some n.toNat else none
  | _ => none

end Json

end PhpTranspiler
