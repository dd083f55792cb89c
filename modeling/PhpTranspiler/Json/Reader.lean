import PhpTranspiler.Json

namespace PhpTranspiler.Json.Reader

def skipBlanks (cs : List Char) : List Char :=
  cs.dropWhile fun c => c == ' ' || c == '\t' || c == '\n' || c == '\r'

def unescape? (c : Char) : Option Char :=
  match c with
  | '"' => some '"'
  | '\\' => some '\\'
  | '/' => some '/'
  | 'b' => some '\x08'
  | 'f' => some '\x0c'
  | 'n' => some '\n'
  | 'r' => some '\r'
  | 't' => some '\t'
  | _ => none

def isHighUnit (n : Nat) : Bool := 0xD800 ≤ n && n < 0xDC00

def isLowUnit (n : Nat) : Bool := 0xDC00 ≤ n && n < 0xE000

/-- The rest of a string behind its opening quote, and what follows it. The first half of a pair of
code units waits for the second one, which must follow at once. -/
def stringRest : Option Nat → List Char → Option (List Char × List Char)
  | none, '"' :: cs => some ([], cs)
  | high, '\\' :: 'u' :: a :: b :: c :: d :: cs =>
    match Digits.natural? 16 [a, b, c, d], high with
    | none, _ => none
    | some low, some high =>
      if isLowUnit low then
        (stringRest none cs).map fun (s, rest) =>
          (Char.ofNat (0x10000 + (high - 0xD800) * 0x400 + (low - 0xDC00)) :: s, rest)
      else none
    | some unit, none =>
      if isHighUnit unit then stringRest (some unit) cs
      else if isLowUnit unit then none
      else (stringRest none cs).map fun (s, rest) => (Char.ofNat unit :: s, rest)
  | none, '\\' :: c :: cs =>
    match unescape? c with
    | some c => (stringRest none cs).map fun (s, rest) => (c :: s, rest)
    | none => none
  | none, c :: cs =>
    if c.toNat < 0x20 then none
    else (stringRest none cs).map fun (s, rest) => (c :: s, rest)
  | none, [] => none
  | some _, _ => none

def real? (x : Binary64) : Option Json := if x.isFinite then some (.real x) else none

/-- An integer is kept as one if it fits 64 bits, signed or not; a zero with a sign does not. -/
def ofDigits? (negative : Bool) (n : Nat) : Option Json :=
  if negative then
    if 0 < n ∧ n ≤ 0x8000000000000000 then some (.integer (-(n : Int)))
    else real? ⟨true, Binary64.nearest n 1⟩
  else if n < 0x10000000000000000 then some (.integer n)
  else real? ⟨false, Binary64.nearest n 1⟩

def isPlainNumber (cs : List Char) : Bool :=
  let whole := cs.takeWhile Char.isDigit
  let rest := cs.dropWhile Char.isDigit
  !whole.isEmpty && (whole.length == 1 || whole.head? != some '0') &&
    (rest.head? != some '.' || rest.tail.head?.any Char.isDigit)

def number? (cs : List Char) : Option Json :=
  let (negative, digits) := match cs with
    | '-' :: rest => (true, rest)
    | _ => (false, cs)
  if !isPlainNumber digits then none
  else match Digits.natural? 10 digits with
    | some n => ofDigits? negative n
    | none =>
      match Decimal.read? digits with
      | some (false, d) => real? ⟨negative, d.rank⟩
      | _ => none

def isNumberChar (c : Char) : Bool :=
  c.isDigit || c == '-' || c == '+' || c == '.' || c == 'e' || c == 'E'

mutual

def value : Nat → List Char → Option (Json × List Char)
  | 0, _ => none
  | fuel + 1, cs =>
    match skipBlanks cs with
    | 'n' :: 'u' :: 'l' :: 'l' :: rest => some (.null, rest)
    | 't' :: 'r' :: 'u' :: 'e' :: rest => some (.bool true, rest)
    | 'f' :: 'a' :: 'l' :: 's' :: 'e' :: rest => some (.bool false, rest)
    | '"' :: rest => (stringRest none rest).map fun (s, rest) => (.text (String.ofList s), rest)
    | '[' :: rest =>
      match skipBlanks rest with
      | ']' :: rest => some (.list [], rest)
      | _ => (items fuel rest).map fun (js, rest) => (.list js, rest)
    | '{' :: rest =>
      match skipBlanks rest with
      | '}' :: rest => some (.object [], rest)
      | _ => (members fuel rest).map fun (ms, rest) => (.object ms, rest)
    | rest =>
      (number? (rest.takeWhile isNumberChar)).map fun j => (j, rest.dropWhile isNumberChar)

def items : Nat → List Char → Option (List Json × List Char)
  | 0, _ => none
  | fuel + 1, cs =>
    match value fuel cs with
    | none => none
    | some (j, rest) =>
      match skipBlanks rest with
      | ',' :: rest => (items fuel rest).map fun (js, rest) => (j :: js, rest)
      | ']' :: rest => some ([j], rest)
      | _ => none

def members : Nat → List Char → Option (List (String × Json) × List Char)
  | 0, _ => none
  | fuel + 1, cs =>
    match skipBlanks cs with
    | '"' :: rest =>
      match stringRest none rest with
      | none => none
      | some (name, rest) =>
        match skipBlanks rest with
        | ':' :: rest =>
          match value fuel rest with
          | none => none
          | some (j, rest) =>
            match skipBlanks rest with
            | ',' :: rest =>
              (members fuel rest).map fun (ms, rest) => ((String.ofList name, j) :: ms, rest)
            | '}' :: rest => some ([(String.ofList name, j)], rest)
            | _ => none
        | _ => none
    | _ => none

end

end PhpTranspiler.Json.Reader

namespace PhpTranspiler

open Json.Reader

/-- The value that a text spells. Each step of the reader takes a character, so the length of the
text bounds their number. -/
def Json.read? (s : String) : Option Json :=
  match value (s.toList.length + 1) s.toList with
  | some (j, rest) => if (skipBlanks rest).isEmpty then some j else none
  | none => none

end PhpTranspiler
