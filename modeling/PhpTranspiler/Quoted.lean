import PhpTranspiler.Digits
import PhpTranspiler.Token

namespace PhpTranspiler.Quoted

def bytes (c : Char) : List UInt8 := String.utf8EncodeChar c

def char? (code : Nat) : Option Char :=
  if h : code.isValidChar then some (Char.ofNatAux code h) else none

def simple? (c : Char) : Option UInt8 :=
  match c with
  | 'n' => some 0x0a
  | 't' => some 0x09
  | 'r' => some 0x0d
  | 'v' => some 0x0b
  | 'e' => some 0x1b
  | 'f' => some 0x0c
  | '\\' => some 0x5c
  | '$' => some 0x24
  | '"' => some 0x22
  | _ => none

def codePoint? (cs : List Char) : Option (List UInt8 × Nat) :=
  let hex := cs.takeWhile (· != '}')
  if hex.length = cs.length then none
  else ((Digits.word32? 16 hex).bind char?).map fun c => (bytes c, hex.length + 2)

/-- Bytes of the escape that starts with a backslash and `c` between double quotes, and the number
of characters of `cs` that belong to it. Octal values are taken modulo 256, and what is no escape
stands for itself. -/
def escape? (c : Char) (cs : List Char) : Option (List UInt8 × Nat) :=
  match simple? c with
  | some b => some ([b], 0)
  | none =>
    if Digits.isDigit 8 c then
      let more := (cs.take 2).takeWhile (Digits.isDigit 8)
      some ([UInt8.ofNat (Digits.value 8 (c :: more))], more.length)
    else if c = 'x' ∧ cs.head?.any (Digits.isDigit 16) then
      let digits := (cs.take 2).takeWhile (Digits.isDigit 16)
      some ([UInt8.ofNat (Digits.value 16 digits)], digits.length)
    else if c = 'u' ∧ cs.head? = some '{' then codePoint? cs.tail
    else some (0x5c :: bytes c, 0)

def doubleBytes? : List Char → Option (List UInt8)
  | [] => some []
  | c :: cs =>
    if c = '\\' then
      match cs with
      | [] => some [0x5c]
      | d :: rest =>
        match escape? d rest with
        | none => none
        | some (bs, n) => (doubleBytes? (rest.drop n)).map (bs ++ ·)
    else (doubleBytes? cs).map (bytes c ++ ·)
termination_by cs => cs.length
decreasing_by all_goals simp +arith

/-- Text of the body of a single-quoted string: only a backslash and a single quote are escaped. -/
def singleText : List Char → List Char
  | '\\' :: '\\' :: cs => '\\' :: singleText cs
  | '\\' :: '\'' :: cs => '\'' :: singleText cs
  | c :: cs => c :: singleText cs
  | [] => []

def dropClosing (quote : Char) (cs : List Char) : List Char :=
  if cs.getLast? = some quote then cs.dropLast else cs

/-- The string that a quoted text stands for. A text without an opening quote stands for itself,
and there is none if an escape names no code point or the bytes are not UTF-8. -/
def decode? (text : String) : Option String :=
  match text.toList with
  | [] => some text
  | c :: cs =>
    match Quote.ofChar? c with
    | none => some text
    | some .single => some (String.ofList (singleText (dropClosing c cs)))
    | some .double =>
      (doubleBytes? (dropClosing c cs)).bind fun bs => String.fromUTF8? ⟨bs.toArray⟩

end PhpTranspiler.Quoted
