import PhpTranspiler.Binary64
import PhpTranspiler.Digits

namespace PhpTranspiler

structure Decimal where
  digits : Nat
  exponent : Int
  deriving DecidableEq, Repr

namespace Decimal

/-- Digits with an optional point, then an optional exponent, after an optional sign. A digit must
stand before or behind the point. -/
def read? (cs : List Char) : Option (Bool × Decimal) :=
  let (negative, cs) := match cs with
    | '-' :: rest => (true, rest)
    | '+' :: rest => (false, rest)
    | _ => (false, cs)
  let whole := cs.takeWhile Char.isDigit
  let (fraction, rest) := match cs.dropWhile Char.isDigit with
    | '.' :: rest => (rest.takeWhile Char.isDigit, rest.dropWhile Char.isDigit)
    | rest => ([], rest)
  let digits := Digits.value 10 (whole ++ fraction)
  let scale : Int := fraction.length
  if whole.isEmpty && fraction.isEmpty then none
  else match rest with
    | [] => some (negative, ⟨digits, -scale⟩)
    | e :: power =>
      if e = 'e' ∨ e = 'E' then
        match power with
        | '-' :: ds => (Digits.natural? 10 ds).map fun n => (negative, ⟨digits, -(n : Int) - scale⟩)
        | '+' :: ds => (Digits.natural? 10 ds).map fun n => (negative, ⟨digits, (n : Int) - scale⟩)
        | ds => (Digits.natural? 10 ds).map fun n => (negative, ⟨digits, (n : Int) - scale⟩)
      else none

def width (n : Nat) : Nat := (Nat.toDigits 10 n).length

/-- Rank of the nearest binary magnitude. What lies far outside the range of the format is decided
by the number of digits, so that no huge power is formed. -/
def rank (d : Decimal) : Nat :=
  let top := (width d.digits : Int) + d.exponent
  if d.digits = 0 ∨ top < -330 then 0
  else if 310 < top then Binary64.infinityRank
  else if 0 ≤ d.exponent then Binary64.nearest (d.digits * Nat.pow 10 d.exponent.toNat) 1
  else Binary64.nearest d.digits (Nat.pow 10 (-d.exponent).toNat)

inductive Tie
  | up
  | even
  deriving DecidableEq, Repr

def choose (tie : Tie) (admits : Nat → Bool) (v scale step : Nat) : Option Nat :=
  let d := v * scale / step
  let middle := (2 * d + 1) * step
  let upper := 2 * v * scale > middle ||
    (2 * v * scale == middle && (tie == .up || d % 2 == 1))
  match admits d, admits (d + 1) with
  | true, true => some (if upper then d + 1 else d)
  | true, false => some d
  | false, true => some (d + 1)
  | false, false => none

/-- The decimal on the grid of multiples of `10 ^ s` that is nearest to a positive magnitude, of
those that round to this magnitude. The values of an interval around it do so, its two ends
included if the mantissa is even; all is scaled so that the comparisons are between integers. -/
def onGrid? (tie : Tie) (rank : Nat) (s : Int) : Option Nat :=
  let m := Binary64.mantissa rank
  let e := Binary64.shift rank
  let v := 2 * m * Nat.pow 2 e
  let high := v + Nat.pow 2 e
  let low := if m = Binary64.binade ∧ 0 < e then v - Nat.pow 2 (e - 1) else v - Nat.pow 2 e
  let step := 2 * Binary64.oneUnits * Nat.pow 10 s.toNat
  let scale := Nat.pow 10 (-s).toNat
  let hits (d : Nat) : Bool :=
    if m % 2 = 0 then low * scale ≤ d * step && d * step ≤ high * scale
    else low * scale < d * step && d * step < high * scale
  choose tie hits v scale step

def search (grid? : Int → Option Nat) : Nat → Int → Decimal
  | 0, s => ⟨(grid? s).getD 0, s⟩
  | n + 1, s =>
    match grid? s with
    | some d => if d % 10 = 0 then ⟨d / 10, s + 1⟩ else ⟨d, s⟩
    | none => search grid? n (s - 1)

/-- The fewest digits that round to a positive magnitude, and of those the nearest to it. Seventeen
digits are always enough. -/
def shortest (tie : Tie) (rank : Nat) : Decimal :=
  let top : Int := (width (Binary64.units rank * Nat.pow 10 324 / Binary64.oneUnits) : Int) - 325
  search (onGrid? tie rank) 17 top

def magnitude (d : Decimal) : Int := (width d.digits : Int) - 1 + d.exponent

def positional (d : Decimal) : List Char :=
  let ds := Nat.toDigits 10 d.digits
  let places := (-d.exponent).toNat
  if 0 ≤ d.exponent then ds ++ List.replicate d.exponent.toNat '0'
  else if places < ds.length then
    ds.take (ds.length - places) ++ '.' :: ds.drop (ds.length - places)
  else '0' :: '.' :: List.replicate (places - ds.length) '0' ++ ds

def scientific (d : Decimal) : List Char :=
  let fraction := match Nat.toDigits 10 d.digits with
    | c :: [] => [c]
    | c :: ds => c :: '.' :: ds
    | [] => []
  let sign := if d.magnitude < 0 then '-' else '+'
  fraction ++ 'e' :: sign :: Nat.toDigits 10 d.magnitude.natAbs

end Decimal

end PhpTranspiler
