import PhpTranspiler.Text

namespace PhpTranspiler

inductive Bracket
  | round
  | curly
  | square
  deriving DecidableEq, Repr

inductive Quote
  | single
  | double
  deriving DecidableEq, Repr

namespace Quote

def char : Quote → Char
  | .single => '\''
  | .double => '"'

def ofChar? (c : Char) : Option Quote :=
  if c = '"' then some .double else if c = '\'' then some .single else none

end Quote

namespace Token

inductive Kind
  | variable
  | word
  /-- A string with its quotes. One that is not closed runs to the end of the source. -/
  | quoted (quote : Quote) (closed : Bool)
  | number
  | opening (bracket : Bracket)
  | closing (bracket : Bracket)
  | comma
  | semicolon
  | equals
  | openTag
  | closeTag
  | mark
  deriving DecidableEq, Repr

end Token

/-- A token and the blanks and comments in front of it. The gaps and the texts of all tokens, and
what follows the last one, are the source again. -/
structure Token where
  gap : String
  start : Nat
  kind : Token.Kind
  text : String
  deriving DecidableEq, Repr

namespace Token

def stop (t : Token) : Nat := t.start + t.text.utf8ByteSize

def span (t : Token) : Span := ⟨t.start, t.stop⟩

def name (t : Token) : String := String.ofList t.text.toList.tail

def isTag (t : Token) : Bool := t.kind == .openTag || t.kind == .closeTag

def isWord (t : Token) (word : String) : Bool := t.kind == .word && Text.sameWord t.text word

def written : List Token → String
  | [] => ""
  | t :: ts => t.gap ++ t.text ++ written ts

def spelled : List Token → String
  | [] => ""
  | t :: ts => t.text ++ written ts

theorem written_append (ts us : List Token) : written (ts ++ us) = written ts ++ written us := by
  induction ts with
  | nil => simp [written]
  | cons t ts ih => simp [written, ih, String.append_assoc]

end Token

end PhpTranspiler
