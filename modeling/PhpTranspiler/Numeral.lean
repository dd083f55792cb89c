import PhpTranspiler.Decimal
import PhpTranspiler.Text

namespace PhpTranspiler.Numeral

def inBase? (base : Nat) (cs : List Char) : Option Binary64 :=
  (Digits.signed64? base cs).map Binary64.ofInt

def isDecimalMark (c : Char) : Bool := c.isDigit || c == '.' || c == 'e' || c == '+' || c == '-'

def decimal? (cs : List Char) : Option Binary64 :=
  (Decimal.read? cs).map fun (negative, d) => ⟨negative, d.rank⟩

/-- A numeral in lower case without separators and leading minus. A leading zero among digits
alone makes it octal. -/
def magnitude? (cs : List Char) : Option Binary64 :=
  match cs with
  | '0' :: 'x' :: body => inBase? 16 body
  | '0' :: 'b' :: body => inBase? 2 body
  | '0' :: 'o' :: body => inBase? 8 body
  | _ =>
    if 1 < cs.length ∧ cs.head? = some '0' ∧ cs.all Char.isDigit then inBase? 8 cs.tail
    else if cs ≠ [] ∧ cs.all isDecimalMark then decimal? cs
    else none

/-- The number that a PHP numeral stands for. Underscores do not count, a minus may be followed by
blanks, and a decimal beyond the range of the format is infinite. -/
def read? (text : String) : Option Binary64 :=
  match text.toList.filter (· != '_') with
  | '-' :: rest => (magnitude? ((Text.trimStart rest).map Char.toLower)).map Binary64.neg
  | cs => magnitude? (cs.map Char.toLower)

end PhpTranspiler.Numeral
