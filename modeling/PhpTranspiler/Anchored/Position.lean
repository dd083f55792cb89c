namespace PhpTranspiler.Anchored

structure Position where
  line : Nat
  column : Nat
  deriving DecidableEq, Repr

def units16 (c : Char) : Nat := if c.toNat < 0x10000 then 1 else 2

/-- Whether a line ends with `c` when `rest` follows it. A carriage return in front of a line feed
belongs to the line that the line feed ends. -/
def endsLine (c : Char) (rest : List Char) : Bool :=
  c == '\n' || (c == '\r' && rest.head? != some '\n')

namespace Position

def zero : Position := ⟨0, 0⟩

def after (p : Position) : List Char → Position
  | [] => p
  | c :: cs =>
    if endsLine c cs then after ⟨p.line + 1, 0⟩ cs else after ⟨p.line, p.column + units16 c⟩ cs

/-- The position of a byte offset in a text that stands at `p`. Inside a character the column counts
the bytes before the offset, less those that its code units save, as a word of 32 bits. The end of a
line starts another one only if something follows, and behind the text the last line goes on with a
column a byte. -/
def ofOffset (p : Position) : Nat → List Char → Position
  | n, [] => ⟨p.line, p.column + n⟩
  | 0, _ :: _ => p
  | n + 1, c :: cs =>
    if n + 1 < c.utf8Size then
      ⟨p.line, (p.column + (n + 1) + units16 c + (4294967296 - c.utf8Size)) % 4294967296⟩
    else if endsLine c cs && !cs.isEmpty then ofOffset ⟨p.line + 1, 0⟩ (n + 1 - c.utf8Size) cs
    else ofOffset ⟨p.line, p.column + units16 c⟩ (n + 1 - c.utf8Size) cs

end Position

end PhpTranspiler.Anchored
