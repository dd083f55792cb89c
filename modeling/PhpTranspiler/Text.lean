namespace PhpTranspiler

/-- A half-open range of byte offsets. -/
structure Span where
  start : Nat
  stop : Nat
  deriving DecidableEq, Repr

namespace Text

def size : List Char → Nat
  | [] => 0
  | c :: cs => c.utf8Size + size cs

/-- What follows the first `n` bytes. A character that the cut would split is dropped whole. -/
def dropBytes : Nat → List Char → List Char
  | _, [] => []
  | 0, c :: cs => c :: cs
  | n + 1, c :: cs => dropBytes (n + 1 - c.utf8Size) cs

def takeBytes : Nat → List Char → List Char
  | _, [] => []
  | 0, _ :: _ => []
  | n + 1, c :: cs => c :: takeBytes (n + 1 - c.utf8Size) cs

def slice (s : String) (span : Span) : String :=
  String.ofList (takeBytes (span.stop - span.start) (dropBytes span.start s.toList))

def isBlank (c : Char) : Bool :=
  let n := c.toNat
  (9 ≤ n && n ≤ 13) || n == 0x20 || n == 0x85 || n == 0xA0 || n == 0x1680 ||
    (0x2000 ≤ n && n ≤ 0x200A) || n == 0x2028 || n == 0x2029 || n == 0x202F || n == 0x205F ||
    n == 0x3000

/-- The blanks that separate tokens. A vertical tab is not one of them. -/
def isAsciiBlank (c : Char) : Bool :=
  c == ' ' || c == '\t' || c == '\n' || c == '\r' || c == '\x0c'

def trimStart (cs : List Char) : List Char := cs.dropWhile isBlank

def trimEnd (cs : List Char) : List Char := (cs.reverse.dropWhile isBlank).reverse

def trim (s : String) : String := String.ofList (trimEnd (trimStart s.toList))

def inkEnd (s : String) : Nat := size (trimEnd s.toList)

def sameWord (a b : String) : Bool := a.toList.map Char.toLower == b.toList.map Char.toLower

/-- `s` between a leading `opening` and a trailing `closing` if it has both, else `s`; blanks at the
ends are dropped before and after. -/
def stripPair (opening closing : Char) (s : String) : String :=
  let cs := trimEnd (trimStart s.toList)
  let inner := match cs with
    | c :: rest =>
      match rest.reverse with
      | d :: body => if c = opening ∧ d = closing then body.reverse else cs
      | [] => cs
    | [] => cs
  String.ofList (trimEnd (trimStart inner))

def commaList : List String → String
  | [] => ""
  | [s] => s
  | s :: t :: rest => s ++ ", " ++ commaList (t :: rest)

@[simp] theorem size_nil : size [] = 0 := rfl

@[simp] theorem size_cons (c : Char) (cs : List Char) : size (c :: cs) = c.utf8Size + size cs :=
  rfl

@[simp] theorem size_append (cs ds : List Char) : size (cs ++ ds) = size cs + size ds := by
  induction cs with
  | nil => simp
  | cons c cs ih => simp [ih, Nat.add_assoc]

theorem size_utf8Encode (cs : List Char) : cs.utf8Encode.size = size cs := by
  induction cs with
  | nil => rfl
  | cons c cs ih =>
    rw [List.utf8Encode_cons, ByteArray.size_append, ih, size_cons]
    simp [List.utf8Encode_singleton]

@[simp] theorem utf8ByteSize_ofList (cs : List Char) :
    (String.ofList cs).utf8ByteSize = size cs := by
  rw [← String.size_toByteArray, String.toByteArray_ofList, size_utf8Encode]

@[simp] theorem size_toList (s : String) : size s.toList = s.utf8ByteSize := by
  rw [← utf8ByteSize_ofList, String.ofList_toList]

theorem dropBytes_append (cs ds : List Char) : dropBytes (size cs) (cs ++ ds) = ds := by
  induction cs with
  | nil => cases ds <;> rfl
  | cons c cs ih =>
    have h := c.utf8Size_pos
    obtain ⟨n, hn⟩ : ∃ n, c.utf8Size + size cs = n + 1 := ⟨c.utf8Size + size cs - 1, by omega⟩
    rw [size_cons, List.cons_append, hn, dropBytes, ← hn, Nat.add_sub_cancel_left, ih]

theorem takeBytes_append (cs ds : List Char) : takeBytes (size cs) (cs ++ ds) = cs := by
  induction cs with
  | nil => cases ds <;> rfl
  | cons c cs ih =>
    have h := c.utf8Size_pos
    obtain ⟨n, hn⟩ : ∃ n, c.utf8Size + size cs = n + 1 := ⟨c.utf8Size + size cs - 1, by omega⟩
    rw [size_cons, List.cons_append, hn, takeBytes, ← hn, Nat.add_sub_cancel_left, ih]

theorem slice_append (a b c : String) :
    slice (a ++ b ++ c) ⟨a.utf8ByteSize, a.utf8ByteSize + b.utf8ByteSize⟩ = b := by
  simp only [slice, String.toList_append, Nat.add_sub_cancel_left, ← size_toList,
    List.append_assoc, dropBytes_append, takeBytes_append, String.ofList_toList]

end Text

end PhpTranspiler
