namespace PhpTranspiler.Digits

def digit (c : Char) : Option Nat :=
  if '0' ≤ c ∧ c ≤ '9' then some (c.toNat - '0'.toNat)
  else if 'a' ≤ c ∧ c ≤ 'f' then some (c.toNat - 'a'.toNat + 10)
  else if 'A' ≤ c ∧ c ≤ 'F' then some (c.toNat - 'A'.toNat + 10)
  else none

def isDigit (base : Nat) (c : Char) : Bool := (digit c).any (· < base)

def value (base : Nat) (cs : List Char) : Nat :=
  cs.foldl (fun n c => base * n + (digit c).getD 0) 0

def natural? (base : Nat) (cs : List Char) : Option Nat :=
  if cs ≠ [] ∧ cs.all (isDigit base) then some (value base cs) else none

/-- Digits that a plus sign may precede, for a value below `2 ^ 32`. -/
def word32? (base : Nat) (cs : List Char) : Option Nat :=
  let body := match cs with
    | '+' :: rest => rest
    | _ => cs
  (natural? base body).filter (· < 0x100000000)

/-- Digits that one sign may precede, for a value of the signed 64-bit range. -/
def signed64? (base : Nat) : List Char → Option Int
  | '-' :: rest => ((natural? base rest).filter (· ≤ 0x8000000000000000)).map (fun n => -(n : Int))
  | '+' :: rest => ((natural? base rest).filter (· < 0x8000000000000000)).map (fun n => (n : Int))
  | cs => ((natural? base cs).filter (· < 0x8000000000000000)).map (fun n => (n : Int))

def hex (width n : Nat) : List Char :=
  let ds := Nat.toDigits 16 n
  List.replicate (width - ds.length) '0' ++ ds

end PhpTranspiler.Digits
