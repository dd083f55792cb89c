import PhpTranspiler.Item
import PhpTranspiler.Lexer
import PhpTranspiler.Nesting
import PhpTranspiler.Quoted

namespace PhpTranspiler.Pattern

inductive Form
  | assignment (name : String) (literal : Token)
  | call (callee args : String)
  | function (name : String) (params : List String) (body : List Token) (text : String)
  deriving Repr

structure Match where
  form : Form
  more : Nat
  deriving Repr

def Match.body (m : Match) : List Token :=
  match m.form with
  | .function _ _ body _ => body
  | _ => []

/-- Words that are never called. Output statements are missing, so that their form with
parentheses is a call. -/
def keywords : List String :=
  ["function", "if", "else", "elseif", "while", "for", "foreach", "switch", "return", "class",
    "var", "do", "try", "catch", "finally", "new"]

def isKeyword (word : String) : Bool := keywords.any (Text.sameWord · word)

def inner (inside : List Token) (close : Token) : String :=
  Text.trim (Token.written inside ++ close.gap)

def value? (name : String) (skipped : Nat) : List Token → Option Match
  | eq :: literal :: semi :: _ =>
    if eq.kind = .equals ∧ literal.kind = .quoted .double true ∧ semi.kind = .semicolon then
      some ⟨.assignment name literal, skipped + 3⟩
    else none
  | _ => none

/-- `$name = "text";`, or the form in which assignments are written out, `var name = "text";`. -/
def assignment? (t : Token) (ts : List Token) : Option Match :=
  match t.kind, ts with
  | .variable, ts => value? t.name 0 ts
  | .word, n :: ts => if t.isWord "var" ∧ n.kind = .word then value? n.text 1 ts else none
  | _, _ => none

def call? (t : Token) : List Token → Option Match
  | paren :: ts =>
    if t.kind = .word ∧ !isKeyword t.text ∧ paren.kind = .opening .round then
      match Nesting.enclosed? .round 0 ts with
      | some (inside, close, semi :: _) =>
        if semi.kind = .semicolon then some ⟨.call t.text (inner inside close), inside.length + 3⟩
        else none
      | _ => none
    else none
  | [] => none

/-- The first variable of a group, whatever type or default stands around it. A point before it
makes the parameter variadic, which is refused. -/
def parameter? : List Token → Option String
  | [] => none
  | t :: ts =>
    if t.kind = .variable then some t.name
    else if t.kind = .mark ∧ t.text.toList.head? = some '.' then none
    else parameter? ts

def parameters? (ts : List Token) : Option (List String) :=
  if ts.isEmpty then some [] else (Nesting.groups 0 ts).mapM parameter?

def function? (t : Token) : List Token → Option Match
  | name :: paren :: ts =>
    if t.isWord "function" ∧ name.kind = .word ∧ paren.kind = .opening .round then
      match Nesting.enclosed? .round 0 ts with
      | some (inside, _, brace :: rest) =>
        match parameters? inside, Nesting.enclosed? .curly 0 rest with
        | some params, some (body, close, _) =>
          if brace.kind = .opening .curly then
            some ⟨.function name.text params body (inner body close),
              inside.length + body.length + 5⟩
          else none
        | _, _ => none
      | _ => none
    else none
  | _ => none

def match? : Shape → Token → List Token → Option Match
  | .assignment => assignment?
  | .call => call?
  | .function => function?

def classify : List Token → Option Shape
  | [] => none
  | t :: ts => [.assignment, .call, .function].find? fun shape => (match? shape t ts).isSome

def continues : List Token → Bool
  | [] => false
  | t :: _ => ["else", "elseif", "catch", "finally"].any t.isWord

/-- Number of tokens that go on a chunk in which `depth` brackets are open: to the next semicolon
outside brackets or the end of a block, and up to a tag or a bracket that closes nothing. -/
def chunkTail : Nat → List Token → Nat
  | _, [] => 0
  | depth, t :: ts =>
    match t.kind with
    | .opening _ => chunkTail (depth + 1) ts + 1
    | .closing b =>
      match depth with
      | 0 => 0
      | depth + 1 =>
        if b = .curly ∧ depth = 0 ∧ !continues ts then 1 else chunkTail depth ts + 1
    | .semicolon => if depth = 0 then 1 else chunkTail depth ts + 1
    | .openTag | .closeTag => if depth = 0 then 0 else chunkTail depth ts + 1
    | _ => chunkTail depth ts + 1

/-- Number of tokens behind `t` that are skipped with it if they make no statement. -/
def chunk (t : Token) (ts : List Token) : Nat :=
  match t.kind with
  | .opening _ => chunkTail 1 ts
  | .closing _ | .semicolon => 0
  | _ => chunkTail 0 ts

def excerpt (t : Token) (ts : List Token) (more : Nat) : Excerpt :=
  let text := Token.spelled (t :: ts.take more)
  ⟨⟨t.start, t.start + text.utf8ByteSize⟩, text⟩

def unrecognized (t : Token) (ts : List Token) : Fault :=
  .unrecognized (excerpt t ts (chunk t ts))

def Match.item (m : Match) (t : Token) (ts : List Token) (items : List Item) :
    Except Fault Item :=
  let place := excerpt t ts m.more
  match m.form with
  | .assignment name literal =>
    match Quoted.decode? literal.text with
    | some s => .ok (.assignment place name (.text s))
    | none => .error (.unsupported "string escape" { place with text := literal.text })
  | .call callee args => .ok (.call place callee args)
  | .function name params _ text => .ok (.function place name params text items)

def recognize? (t : Token) (ts : List Token) : Option Match :=
  (classify (t :: ts)).bind fun shape => match? shape t ts

theorem function?_body {t : Token} {ts : List Token} {m : Match} (h : function? t ts = some m) :
    m.body.length < ts.length := by
  unfold function? at h
  split at h
  · split at h
    · split at h
      · rename_i he
        split at h
        · rename_i hb
          split at h
          · cases h
            simp [Match.body, Nesting.enclosed?_eq he, Nesting.enclosed?_eq hb]
            omega
          · simp at h
        · simp at h
      · simp at h
    · simp at h
  · simp at h

theorem value?_body {name : String} {skipped : Nat} {ts : List Token} {m : Match}
    (h : value? name skipped ts = some m) : m.body = [] := by
  unfold value? at h
  split at h
  · split at h
    · cases h; rfl
    · simp at h
  · simp at h

theorem assignment?_body {t : Token} {ts : List Token} {m : Match}
    (h : assignment? t ts = some m) : m.body = [] := by
  unfold assignment? at h
  split at h
  · exact value?_body h
  · split at h
    · exact value?_body h
    · simp at h
  · simp at h

theorem call?_body {t : Token} {ts : List Token} {m : Match} (h : call? t ts = some m) :
    m.body = [] := by
  unfold call? at h
  split at h
  · split at h
    · split at h
      · split at h
        · cases h; rfl
        · simp at h
      · simp at h
    · simp at h
  · simp at h

theorem match?_body {shape : Shape} {t : Token} {ts : List Token} {m : Match}
    (h : match? shape t ts = some m) : m.body.length < ts.length + 1 := by
  cases shape with
  | assignment => simp [assignment?_body h]
  | call => simp [call?_body h]
  | function => have := function?_body h; omega

theorem recognize?_body {t : Token} {ts : List Token} {m : Match}
    (h : recognize? t ts = some m) : m.body.length < ts.length + 1 := by
  obtain ⟨shape, _, hm⟩ := Option.bind_eq_some_iff.1 h
  exact match?_body hm

def items : List Token → List Item
  | [] => []
  | t :: ts =>
    if t.isTag then items ts
    else match _h : recognize? t ts with
      | none => .fault (unrecognized t ts) :: items (ts.drop (chunk t ts))
      | some m =>
        match m.item t ts (items m.body) with
        | .ok item => item :: items (ts.drop m.more)
        | .error fault => .fault fault :: items (ts.drop (chunk t ts))
termination_by ts => ts.length
decreasing_by
  · simp
  · simp +arith
  · simpa using recognize?_body _h
  · simp +arith
  · simp +arith

def extract (shape : Shape) (t : Token) (ts : List Token) : Except Fault (Item × Nat) :=
  match match? shape t ts with
  | none => .error (unrecognized t ts)
  | some m => (m.item t ts (items m.body)).map fun item => (item, m.more + 1)

def scan (source : String) : List Item := items (Lexer.tokenize source)

end PhpTranspiler.Pattern
