namespace PhpTranspiler

/-- A number of the 64-bit binary format, infinities included and NaN left out. The `rank` is the
place of its magnitude in the ascending list of all magnitudes: 0 is zero, 1 is `2 ^ -1074`. -/
structure Binary64 where
  negative : Bool
  rank : Nat
  deriving DecidableEq, Repr

namespace Binary64

def binade : Nat := 0x10000000000000

def infinityRank : Nat := 2047 * binade

def isFinite (x : Binary64) : Bool := x.rank < infinityRank

/-- Less than zero. Zero is not, whatever its sign. -/
def isBelowZero (x : Binary64) : Bool := x.negative && x.rank != 0

def neg (x : Binary64) : Binary64 := ⟨!x.negative, x.rank⟩

/-- The power of two that the mantissa is scaled by, counted from `2 ^ -1074`. -/
def shift (rank : Nat) : Nat := rank / binade - 1

def mantissa (rank : Nat) : Nat := rank - shift rank * binade

def units (rank : Nat) : Nat := mantissa rank * Nat.pow 2 (shift rank)

def oneUnits : Nat := Nat.pow 2 1074

def roundHalfEven (n d : Nat) : Nat :=
  let q := n / d
  let r := 2 * (n % d)
  if d < r ∨ (r = d ∧ q % 2 = 1) then q + 1 else q

/-- Rank of the magnitude nearest to `n / d`, a half to the even mantissa. A mantissa that is
rounded up to twice a binade carries into the next rank by the addition alone. -/
def nearest (n d : Nat) : Nat :=
  let n := n * oneUnits
  let shift := (n / d).log2 - 52
  min infinityRank (shift * binade + roundHalfEven n (d * Nat.pow 2 shift))

def ofInt (i : Int) : Binary64 := ⟨i < 0, nearest i.natAbs 1⟩

def integer? (rank : Nat) : Option Nat :=
  if units rank % oneUnits = 0 then some (units rank / oneUnits) else none

end Binary64

end PhpTranspiler
