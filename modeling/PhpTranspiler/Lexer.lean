import PhpTranspiler.Token

namespace PhpTranspiler.Lexer

def isWordStart (c : Char) : Bool := c.isAlpha || c == '_' || 0x80 ≤ c.toNat

def isWordRest (c : Char) : Bool := isWordStart c || c.isDigit

inductive Gap
  | blanks
  | line
  | block
  deriving DecidableEq, Repr

/-- Number of characters before the next token. A comment that starts with a number sign or two
slashes ends with its line, and a block comment that is not closed ends with the source. -/
def gapLength : Gap → List Char → Nat
  | .blanks, '/' :: '/' :: cs => gapLength .line cs + 2
  | .blanks, '/' :: '*' :: cs => gapLength .block cs + 2
  | .blanks, c :: cs =>
    if c = '#' then gapLength .line cs + 1
    else if Text.isAsciiBlank c then gapLength .blanks cs + 1
    else 0
  | .line, c :: cs => gapLength (if c = '\n' then .blanks else .line) cs + 1
  | .block, '*' :: '/' :: cs => gapLength .blanks cs + 2
  | .block, _ :: cs => gapLength .block cs + 1
  | _, [] => 0

/-- Length of the rest of a string behind its opening quote, and whether it is closed. -/
def quotedLength (quote : Char) : List Char → Nat × Bool
  | [] => (0, false)
  | ['\\'] => (1, false)
  | '\\' :: _ :: cs => let (n, closed) := quotedLength quote cs; (n + 2, closed)
  | c :: cs =>
    if c = quote then (1, true)
    else let (n, closed) := quotedLength quote cs; (n + 1, closed)

def wordLength (cs : List Char) : Nat := (cs.takeWhile isWordRest).length

/-- Length of the rest of a number behind `previous`. A sign belongs to it directly after an
exponent mark only. -/
def numberLength (previous : Char) : List Char → Nat
  | [] => 0
  | c :: cs =>
    let isSign := (c = '+' || c = '-') && (previous = 'e' || previous = 'E')
    if c.isAlphanum || c = '_' || c = '.' || isSign then numberLength c cs + 1 else 0

def openTagLength (cs : List Char) : Nat :=
  if Text.sameWord (String.ofList (cs.take 3)) "php" then 3
  else if cs.head? = some '=' then 1
  else 0

def single (c : Char) : Token.Kind :=
  match c with
  | '(' => .opening .round
  | ')' => .closing .round
  | '{' => .opening .curly
  | '}' => .closing .curly
  | '[' => .opening .square
  | ']' => .closing .square
  | ',' => .comma
  | ';' => .semicolon
  | '=' => .equals
  | _ => .mark

def lexeme (c : Char) (cs : List Char) : Token.Kind × Nat :=
  if c.isDigit then (.number, numberLength c cs)
  else if isWordStart c then (.word, wordLength cs)
  else if c = '$' ∧ cs.head?.any isWordStart then (.variable, wordLength cs)
  else if c = '<' ∧ cs.head? = some '?' then (.openTag, openTagLength cs.tail + 1)
  else if c = '?' ∧ cs.head? = some '>' then (.closeTag, 1)
  else match Quote.ofChar? c with
    | some quote => let (n, closed) := quotedLength c cs; (.quoted quote closed, n)
    | none => (single c, 0)

/-- The tokens of `cs`, which stands at offset `start`. -/
def tokensFrom (start : Nat) (cs : List Char) : List Token :=
  let gap := gapLength .blanks cs
  match _h : cs.drop gap with
  | [] => []
  | c :: rest =>
    let (kind, n) := lexeme c rest
    let before := cs.take gap
    let text := c :: rest.take n
    let place := start + Text.size before
    ⟨String.ofList before, place, kind, String.ofList text⟩ ::
      tokensFrom (place + Text.size text) (rest.drop n)
termination_by cs.length
decreasing_by
  have h := congrArg List.length _h
  simp only [List.length_drop, List.length_cons] at h ⊢
  omega

def tokenize (source : String) : List Token := tokensFrom 0 source.toList

theorem written_tokensFrom (start : Nat) (cs : List Char) :
    ∃ rest, cs = (Token.written (tokensFrom start cs)).toList ++ rest := by
  fun_induction tokensFrom start cs with
  | case1 => exact ⟨_, rfl⟩
  | case2 start cs gap c rest hc kind n hl before text place ih =>
    obtain ⟨tail, ht⟩ := ih
    refine ⟨tail, ?_⟩
    simp only [Token.written, String.toList_append, String.toList_ofList, List.append_assoc, ← ht]
    simp [before, text, List.take_append_drop, ← hc]

end PhpTranspiler.Lexer
