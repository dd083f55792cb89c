import PhpTranspiler.Item
import PhpTranspiler.Numeral
import PhpTranspiler.Refusal

namespace PhpTranspiler.Script

inductive Value
  | null
  | bool (value : Bool)
  | number (value : Binary64)
  | text (value : String)
  deriving DecidableEq, Repr

structure Literal where
  value : Value
  raw : String
  deriving DecidableEq, Repr

def isControl (c : Char) : Bool := c.toNat < 0x20 || (0x7f ≤ c.toNat && c.toNat ≤ 0x9f)

def escape (c : Char) : List Char :=
  match c with
  | '"' => ['\\', '"']
  | '\\' => ['\\', '\\']
  | '\n' => ['\\', 'n']
  | '\r' => ['\\', 'r']
  | '\t' => ['\\', 't']
  | c => if isControl c then '\\' :: 'u' :: Digits.hex 4 c.toNat else [c]

def quote (s : String) : String := String.ofList ('"' :: s.toList.flatMap escape ++ ['"'])

/-- Integers below `10 ^ 15` without a point, and zero without a sign; of the other numbers the
fewest digits that stand for them, never with an exponent. -/
def magnitudeText (rank : Nat) : List Char :=
  match (Binary64.integer? rank).filter (· < 1000000000000000) with
  | some n => Nat.toDigits 10 n
  | none => (Decimal.shortest .up rank).positional

def numberText (x : Binary64) : String :=
  String.ofList ((if x.isBelowZero then ['-'] else []) ++ magnitudeText x.rank)

def Literal.ofScalar : Scalar → Except Refusal Literal
  | .text s => .ok ⟨.text s, quote s⟩
  | .number numeral =>
    match (Numeral.read? numeral).filter Binary64.isFinite with
    | some x => .ok ⟨.number x, numberText x⟩
    | none => .error (.number numeral)
  | .bool true => .ok ⟨.bool true, "true"⟩
  | .bool false => .ok ⟨.bool false, "false"⟩
  | .null => .ok ⟨.null, "null"⟩

end PhpTranspiler.Script
