import PhpTranspiler.Proofs.Recognition
import PhpTranspiler.Proofs.TokenPlaces
import PhpTranspiler.Transpile

namespace PhpTranspiler

def Span.shift (n : Nat) (s : Span) : Span := ⟨n + s.start, n + s.stop⟩

def Token.shift (n : Nat) (t : Token) : Token := { t with start := n + t.start }

def Excerpt.shift (n : Nat) (p : Excerpt) : Excerpt := { p with span := p.span.shift n }

def Fault.shift (n : Nat) : Fault → Fault
  | .unrecognized p => .unrecognized (p.shift n)
  | .unsupported construct p => .unsupported construct (p.shift n)

mutual

def Item.shift (n : Nat) : Item → Item
  | .assignment p name value => .assignment (p.shift n) name value
  | .call p callee args => .call (p.shift n) callee args
  | .function p name params body items =>
    .function (p.shift n) name params body (Item.shiftAll n items)
  | .fault f => .fault (f.shift n)

def Item.shiftAll (n : Nat) : List Item → List Item
  | [] => []
  | item :: items => item.shift n :: Item.shiftAll n items

end

def Diagnostic.shift (n : Nat) (d : Diagnostic) : Diagnostic := { d with span := d.span.shift n }

namespace Script

def Identifier.shift (n : Nat) (id : Identifier) : Identifier := { id with span := id.span.shift n }

mutual

def Expression.shift (n : Nat) : Expression → Expression
  | .identifier id => .identifier (id.shift n)
  | .literal span l => .literal (span.shift n) l
  | .call span callee arguments optional =>
    .call (span.shift n) (callee.shift n) (Expression.shiftAll n arguments) optional
  | .member span object property computed optional =>
    .member (span.shift n) (object.shift n) (property.shift n) computed optional

def Expression.shiftAll (n : Nat) : List Expression → List Expression
  | [] => []
  | e :: es => e.shift n :: Expression.shiftAll n es

end

def Declarator.shift (n : Nat) (d : Declarator) : Declarator :=
  ⟨d.span.shift n, d.id.shift n, d.init.map (Expression.shift n)⟩

mutual

def Statement.shift (n : Nat) : Statement → Statement
  | .declaration span declarators => .declaration (span.shift n) (declarators.map (Declarator.shift n))
  | .expression span e => .expression (span.shift n) (e.shift n)
  | .function span id flags params block body =>
    .function (span.shift n) (id.shift n) flags (params.map (Identifier.shift n)) (block.shift n)
      (Statement.shiftAll n body)

def Statement.shiftAll (n : Nat) : List Statement → List Statement
  | [] => []
  | s :: body => s.shift n :: Statement.shiftAll n body

end

end Script

theorem Item.shiftAll_eq_map (n : Nat) (items : List Item) : shiftAll n items = items.map (shift n) := by
  induction items with
  | nil => rfl
  | cons item items ih => rw [shiftAll, ih, List.map_cons]

theorem Script.Statement.shiftAll_eq_map (n : Nat) (body : List Statement) :
    shiftAll n body = body.map (shift n) := by
  induction body with
  | nil => rfl
  | cons s body ih => rw [shiftAll, ih, List.map_cons]

theorem Item.span_shift (n : Nat) (item : Item) : (item.shift n).span = item.span.shift n := by
  cases item with
  | fault f => cases f <;> simp [shift, span, Fault.shift, Fault.span, Fault.place, Excerpt.shift]
  | _ => simp [shift, span, Excerpt.shift]

namespace Token

@[simp] theorem kind_shift (n : Nat) (t : Token) : (t.shift n).kind = t.kind := rfl

@[simp] theorem text_shift (n : Nat) (t : Token) : (t.shift n).text = t.text := rfl

@[simp] theorem name_shift (n : Nat) (t : Token) : (t.shift n).name = t.name := rfl

@[simp] theorem isTag_shift (n : Nat) (t : Token) : (t.shift n).isTag = t.isTag := rfl

@[simp] theorem isWord_shift (n : Nat) (t : Token) (word : String) :
    (t.shift n).isWord word = t.isWord word := rfl

theorem written_map_shift (n : Nat) (ts : List Token) : written (ts.map (shift n)) = written ts := by
  induction ts with
  | nil => rfl
  | cons t ts ih => rw [List.map_cons, written, written, ih]; rfl

theorem spelled_map_shift (n : Nat) (ts : List Token) : spelled (ts.map (shift n)) = spelled ts := by
  cases ts with
  | nil => rfl
  | cons t ts => rw [List.map_cons, spelled, spelled, written_map_shift]; rfl

end Token

theorem Lexer.tokensFrom_shift (n start : Nat) (cs : List Char) :
    tokensFrom (n + start) cs = (tokensFrom start cs).map (Token.shift n) := by
  fun_induction tokensFrom start cs with
  | case1 start cs gap hc => rw [tokensFrom_of_gap hc, List.map_nil]
  | case2 start cs gap c rest hc kind k hl before text place ih =>
      rw [tokensFrom_of_lexeme hc hl, List.map_cons, ← ih]
      simp [Token.shift, place, before, text, gap, Nat.add_assoc]

namespace Nesting

variable {f : Token → Token}

theorem enclosed?_map (hf : ∀ t, (f t).kind = t.kind) (b : Bracket) (depth : Nat) (ts : List Token) :
    enclosed? b depth (ts.map f) =
      (enclosed? b depth ts).map fun (inside, t, rest) => (inside.map f, f t, rest.map f) := by
  fun_induction enclosed? b depth ts with
  | case1 => rfl
  | case2 depth t ts hk ih =>
      simp [enclosed?, hf, hk, ih, Option.map_map, Function.comp_def]
  | case3 t ts hne hk => simp [enclosed?, hf, hk]
  | case4 t ts hne hk depth ih =>
      simp [enclosed?, hf, hk, ih, Option.map_map, Function.comp_def]
  | case5 depth t ts hne hk ih =>
      simp [enclosed?, hf, hne, hk, ih, Option.map_map, Function.comp_def]

theorem onto_map (t : Token) (gs : List (List Token)) :
    onto (f t) (gs.map (List.map f)) = (onto t gs).map (List.map f) := by
  cases gs <;> rfl

theorem groups_map (hf : ∀ t, (f t).kind = t.kind) (depth : Nat) (ts : List Token) :
    groups depth (ts.map f) = (groups depth ts).map (List.map f) := by
  induction ts generalizing depth with
  | nil => rfl
  | cons t ts ih =>
      rw [List.map_cons, groups, groups, hf]
      cases t.kind with
      | comma =>
          by_cases hd : depth = 0
          · simp [hd, ih]
          · simp [hd, ih, onto_map]
      | _ => simp [ih, onto_map]

end Nesting

namespace Pattern

open Token

section

variable {f : Token → Token} (hk : ∀ t, (f t).kind = t.kind) (ht : ∀ t, (f t).text = t.text)

include hk ht

theorem parameter?_map (ts : List Token) : parameter? (ts.map f) = parameter? ts := by
  induction ts with
  | nil => rfl
  | cons t ts ih => rw [List.map_cons, parameter?, parameter?, ih, hk, ht, Token.name, Token.name, ht]

theorem parameters?_map (ts : List Token) : parameters? (ts.map f) = parameters? ts := by
  have hp : parameter? ∘ List.map f = parameter? := funext (parameter?_map hk ht)
  rw [parameters?, parameters?, Nesting.groups_map hk, List.isEmpty_map, List.mapM_map, hp]

theorem continues_map (ts : List Token) : continues (ts.map f) = continues ts := by
  cases ts with
  | nil => rfl
  | cons t ts => simp [continues, Token.isWord, hk, ht]

theorem chunkTail_map (depth : Nat) (ts : List Token) : chunkTail depth (ts.map f) = chunkTail depth ts := by
  induction ts generalizing depth with
  | nil => rfl
  | cons t ts ih =>
      rw [List.map_cons, chunkTail.eq_def, chunkTail.eq_def]
      simp only [hk, ih, continues_map hk ht]

theorem chunk_map (t : Token) (ts : List Token) : chunk (f t) (ts.map f) = chunk t ts := by
  simp only [chunk, hk, chunkTail_map hk ht]

end

def Form.shift (n : Nat) : Form → Form
  | .assignment name literal => .assignment name (literal.shift n)
  | .call callee args => .call callee args
  | .function name params body text => .function name params (body.map (Token.shift n)) text

def Match.shift (n : Nat) (m : Match) : Match := ⟨m.form.shift n, m.more⟩

variable (n : Nat)

theorem inner_shift (inside : List Token) (close : Token) :
    inner (inside.map (shift n)) (close.shift n) = inner inside close := by
  rw [inner, inner, written_map_shift]
  rfl

theorem parameters?_shift (ts : List Token) : parameters? (ts.map (shift n)) = parameters? ts :=
  parameters?_map (kind_shift n) (text_shift n) ts

theorem value?_shift (name : String) (skipped : Nat) (ts : List Token) :
    value? name skipped (ts.map (shift n)) = (value? name skipped ts).map (Match.shift n) := by
  match ts with
  | [] | [_] | [_, _] => rfl
  | equals :: literal :: semi :: rest =>
      simp only [List.map_cons, value?]
      split <;> simp_all [shift, Match.shift, Form.shift]

theorem assignment?_shift (t : Token) (ts : List Token) :
    assignment? (t.shift n) (ts.map (shift n)) = (assignment? t ts).map (Match.shift n) := by
  cases ts with
  | nil =>
      rw [List.map_nil, assignment?.eq_def, assignment?.eq_def, kind_shift]
      cases t.kind <;> rfl
  | cons name ts =>
      rw [assignment?.eq_def, assignment?.eq_def, kind_shift, name_shift, isWord_shift]
      cases t.kind with
      | «variable» => exact value?_shift n t.name 0 (name :: ts)
      | word =>
          simp only [List.map_cons, kind_shift, text_shift, value?_shift]
          split <;> rfl
      | _ => rfl

theorem call?_shift (t : Token) (ts : List Token) :
    call? (t.shift n) (ts.map (shift n)) = (call? t ts).map (Match.shift n) := by
  cases ts with
  | nil => rfl
  | cons paren ts =>
      rw [List.map_cons, call?, call?, kind_shift, text_shift, kind_shift,
        Nesting.enclosed?_map (kind_shift n)]
      split
      · rcases Nesting.enclosed? .round 0 ts with _ | ⟨inside, close, _ | ⟨semi, rest⟩⟩
        · rfl
        · rfl
        · simp only [Option.map_some, List.map_cons, kind_shift, inner_shift, List.length_map]
          split <;> rfl
      · rfl

theorem function?_shift (t : Token) (ts : List Token) :
    function? (t.shift n) (ts.map (shift n)) = (function? t ts).map (Match.shift n) := by
  match ts with
  | [] | [_] => rfl
  | name :: paren :: ts =>
      rw [List.map_cons, List.map_cons, function?, function?, isWord_shift, kind_shift, kind_shift,
        Nesting.enclosed?_map (kind_shift n)]
      split
      · rcases Nesting.enclosed? .round 0 ts with _ | ⟨inside, close, _ | ⟨brace, rest⟩⟩
        · rfl
        · rfl
        · simp only [Option.map_some, List.map_cons, parameters?_shift,
            Nesting.enclosed?_map (kind_shift n)]
          rcases parameters? inside with _ | params
          · rfl
          rcases Nesting.enclosed? .curly 0 rest with _ | ⟨body, last, more⟩
          · rfl
          · simp only [Option.map_some, kind_shift, text_shift, inner_shift, List.length_map]
            split <;> rfl
      · rfl

theorem match?_shift (shape : Shape) (t : Token) (ts : List Token) :
    match? shape (t.shift n) (ts.map (shift n)) = (match? shape t ts).map (Match.shift n) := by
  cases shape with
  | assignment => exact assignment?_shift n t ts
  | call => exact call?_shift n t ts
  | function => exact function?_shift n t ts

theorem recognize?_shift (t : Token) (ts : List Token) :
    recognize? (t.shift n) (ts.map (shift n)) = (recognize? t ts).map (Match.shift n) := by
  have hc : classify (t.shift n :: ts.map (shift n)) = classify (t :: ts) := by
    simp only [classify, match?_shift, Option.isSome_map]
  rw [recognize?, recognize?, hc]
  cases classify (t :: ts) with
  | none => rfl
  | some shape => exact match?_shift n shape t ts

theorem continues_shift (ts : List Token) : continues (ts.map (shift n)) = continues ts :=
  continues_map (kind_shift n) (text_shift n) ts

theorem chunk_shift (t : Token) (ts : List Token) : chunk (t.shift n) (ts.map (shift n)) = chunk t ts :=
  chunk_map (kind_shift n) (text_shift n) t ts

theorem excerpt_shift (t : Token) (ts : List Token) (more : Nat) :
    excerpt (t.shift n) (ts.map (shift n)) more = (excerpt t ts more).shift n := by
  have hs : spelled (t.shift n :: (ts.map (shift n)).take more) = spelled (t :: ts.take more) := by
    rw [← List.map_take, ← List.map_cons, spelled_map_shift]
  rw [excerpt, excerpt, hs]
  simp [Excerpt.shift, Span.shift, Token.shift, Nat.add_assoc]

theorem body_shift (m : Match) : (m.shift n).body = m.body.map (shift n) := by
  obtain ⟨form, more⟩ := m
  cases form <;> rfl

theorem item_shift (m : Match) (t : Token) (ts : List Token) (items : List Item) :
    (m.shift n).item (t.shift n) (ts.map (shift n)) (items.map (Item.shift n)) =
      match m.item t ts items with
      | .ok item => .ok (item.shift n)
      | .error fault => .error (fault.shift n) := by
  obtain ⟨form, more⟩ := m
  cases form with
  | assignment name literal =>
      simp only [Match.shift, Form.shift, Match.item, excerpt_shift, text_shift]
      cases Quoted.decode? literal.text <;> rfl
  | call callee args =>
      simp only [Match.shift, Form.shift, Match.item, excerpt_shift]
      rfl
  | function name params body text =>
      simp only [Match.shift, Form.shift, Match.item, excerpt_shift, Item.shift, Item.shiftAll_eq_map]

/-- What tokens are read into does not depend on where they stand, but for the places. -/
theorem items_shift (ts : List Token) : items (ts.map (shift n)) = (items ts).map (Item.shift n) := by
  fun_induction items ts with
  | case1 => rw [List.map_nil, items]; rfl
  | case2 t ts ht ih => rw [List.map_cons, items_of_tag (by simpa using ht), ih]
  | case3 t ts ht hm ih =>
      have hr : recognize? (t.shift n) (ts.map (shift n)) = none := by rw [recognize?_shift, hm]; rfl
      rw [List.map_cons, items_of_none (by simpa using ht) hr, chunk_shift, ← List.map_drop, ih,
        unrecognized, chunk_shift, excerpt_shift]
      rfl
  | case4 t ts ht m hm item hi ihb ih =>
      have hr : recognize? (t.shift n) (ts.map (shift n)) = some (m.shift n) := by
        rw [recognize?_shift, hm]; rfl
      have hit := item_shift n m t ts (items m.body)
      rw [hi, ← ihb, ← body_shift] at hit
      rw [List.map_cons, items_of_ok (by simpa using ht) hr hit, Match.shift, ← List.map_drop, ih,
        List.map_cons]
  | case5 t ts ht m hm fault hf ihb ih =>
      have hr : recognize? (t.shift n) (ts.map (shift n)) = some (m.shift n) := by
        rw [recognize?_shift, hm]; rfl
      have hit := item_shift n m t ts (items m.body)
      rw [hf, ← ihb, ← body_shift] at hit
      rw [List.map_cons, items_of_error (by simpa using ht) hr hit, chunk_shift, ← List.map_drop, ih,
        List.map_cons]
      rfl

theorem scan_shift (source : String) :
    items (Lexer.tokensFrom n source.toList) = (scan source).map (Item.shift n) := by
  rw [scan, ← items_shift]
  exact congrArg items (Lexer.tokensFrom_shift n 0 source.toList)

end Pattern

namespace Script

variable (n : Nat)

theorem Identifier.at_shift (start : Nat) (name : String) :
    Identifier.at (n + start) name = (Identifier.at start name).shift n := by
  simp [Identifier.at, Identifier.shift, Span.shift, Nat.add_assoc]

theorem Statement.kind_shift (s : Statement) : (s.shift n).kind = s.kind := by
  cases s <;> simp [shift, kind]

namespace Draft

theorem callee_shift (start : Nat) (c : Callee) : callee (n + start) c = (callee start c).shift n := by
  cases c with
  | plain name => simp [callee, Expression.shift, Identifier.at_shift]
  | member object property =>
      simp [callee, Expression.shift, Identifier.at, Identifier.shift, Span.shift, Nat.add_assoc]

theorem argument_shift (start : Nat) (arg : Argument) :
    argument (n + start) arg = (argument start arg).shift n := by
  cases arg <;> simp [argument, Expression.shift, Identifier.at_shift, Span.shift, Nat.add_assoc]

theorem arguments_shift (start : Nat) (args : List Argument) :
    arguments (n + start) args = Expression.shiftAll n (arguments start args) := by
  induction args generalizing start with
  | nil => rfl
  | cons arg args ih =>
      rw [arguments, arguments, Expression.shiftAll, argument_shift, ← ih]
      simp [Nat.add_assoc]

theorem params_shift (start : Nat) (names : List String) :
    params (n + start) names = (params start names).map (Identifier.shift n) := by
  induction names generalizing start with
  | nil => rfl
  | cons name names ih =>
      rw [params, params, List.map_cons, Identifier.at_shift, ← ih, Nat.add_assoc]

mutual

theorem node_shift (start : Nat) : (d : Draft) → d.node (n + start) = (d.node start).shift n
  | .variable name value => by
      simp [node, Statement.shift, Declarator.shift, Expression.shift, Identifier.at, Identifier.shift,
        Span.shift, Nat.add_assoc]
  | .call c => by
      rw [node, node, Statement.shift, Expression.shift, callee_shift, ← arguments_shift]
      simp [Span.shift, Nat.add_assoc]
  | .function name ps body => by
      rw [node, node, Statement.shift, ← params_shift, ← nodes_shift]
      simp [Identifier.at, Identifier.shift, Span.shift, Nat.add_assoc]

theorem nodes_shift (start : Nat) : (ds : List Draft) →
    nodes (n + start) ds = Statement.shiftAll n (nodes start ds)
  | [] => by simp [nodes, Statement.shiftAll]
  | d :: ds => by
      rw [nodes, nodes, Statement.shiftAll, ← node_shift, ← nodes_shift]
      simp [Nat.add_assoc]

end

end Draft

end Script

end PhpTranspiler
