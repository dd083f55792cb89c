import PhpTranspiler.Proofs.Fragment.Reading

namespace PhpTranspiler

open Token Lexer Nesting Script

namespace Script

/-- Any literal but a number that is no integer below `10 ^ 15`. -/
def Value.IsShort : Value → Prop
  | .number x => ∃ n, Binary64.integer? x.rank = some n ∧ n < 10 ^ 15
  | _ => True

inductive Statement.Rereadable : Statement → Prop
  | declaration {span : Span} {ds : List Declarator} : Rereadable (.declaration span ds)
  | call {span place : Span} {id : Identifier} {args : List Expression} {optional : Bool}
      (h : ∀ a ∈ args, ∃ span l, a = .literal span l ∧ l.value.IsShort) :
      Rereadable (.expression span (.call place (.identifier id) args optional))
  | function {span block : Span} {id : Identifier} {flags : FunctionFlags} {body : List Statement}
      (h : ∀ s ∈ body, Rereadable s) : Rereadable (.function span id flags [] block body)

inductive Value.Resembles : Value → Value → Prop
  | null : Resembles .null .null
  | bool (b : Bool) : Resembles (.bool b) (.bool b)
  | number {x y : Binary64} (h : x.Equals y) : Resembles (.number x) (.number y)
  | text (s : String) : Resembles (.text s) (.text (reread s))

inductive Expression.Resembles : Expression → Expression → Prop
  | literal {p q : Span} {l m : Literal} (h : l.value.Resembles m.value) : Resembles (.literal p l) (.literal q m)

mutual

/-- Statements of the same kind with the same names, and with literals of the same kinds that are equal unless
they are strings. Their places differ. -/
inductive Statement.Resembles : Statement → Statement → Prop
  | declaration {p q : Span} {d e : Declarator} {a b : Expression} (hn : d.id.name = e.id.name)
      (hd : d.init = some a) (he : e.init = some b) (h : a.Resembles b) :
      Resembles (.declaration p [d]) (.declaration q [e])
  | call {p q p' q' : Span} {f g : Identifier} {as bs : List Expression} {optional : Bool} (hn : f.name = g.name)
      (h : List.Forall₂ Expression.Resembles as bs) :
      Resembles (.expression p (.call p' (.identifier f) as optional))
        (.expression q (.call q' (.identifier g) bs optional))
  | function {p q p' q' : Span} {f g : Identifier} {flags : FunctionFlags} {xs ys : List Statement}
      (hn : f.name = g.name) (h : Statement.ResembleAll xs ys) :
      Resembles (.function p f flags [] p' xs) (.function q g flags [] q' ys)

inductive Statement.ResembleAll : List Statement → List Statement → Prop
  | nil : ResembleAll [] []
  | cons {x y : Statement} {xs ys : List Statement} (h : x.Resembles y) (hs : ResembleAll xs ys) :
      ResembleAll (x :: xs) (y :: ys)

end

end Script

/-- A literal that is read again. An integer may be a negative zero, which is written without its sign. -/
inductive Constant
  | text (s : String)
  | integer (x : Binary64) (i : { i : Int // i.natAbs < 10 ^ 15 }) (h : x.Equals (.ofInt i.1))
  | bool (b : Bool)
  | null

namespace Constant

def literal : Constant → Literal
  | .text s => ⟨.text s, quote s⟩
  | .integer x i _ => ⟨.number x, i.1.repr⟩
  | .bool true => ⟨.bool true, "true"⟩
  | .bool false => ⟨.bool false, "false"⟩
  | .null => ⟨.null, "null"⟩

def again : Constant → Constant
  | .text s => .text (reread s)
  | .integer _ i _ => .integer (.ofInt i.1) i ⟨rfl, .inl rfl⟩
  | .bool b => .bool b
  | .null => .null

def tokens : Constant → List Token
  | .text s => [ofText (.quoted .double true) (quote s)]
  | .integer _ i _ => (Fragment.Argument.integer i).tokens
  | .bool b => (Fragment.Argument.bool b).tokens
  | .null => Fragment.Argument.null.tokens

theorem bareTokens_raw (c : Constant) {rest : List Char} (hr : Fragment.EndsArgument rest) :
    bareTokens (c.literal.raw.toList ++ rest) = c.tokens ++ bareTokens rest := by
  match c with
  | .text s =>
      have ht := bareTokens_quoted (enclosable_escapes s.toList) rest
      simpa [literal, tokens, quote] using ht
  | .integer _ i _ => exact (Fragment.Argument.integer i).bareTokens_source hr
  | .bool true => exact (Fragment.Argument.bool true).bareTokens_source hr
  | .bool false => exact (Fragment.Argument.bool false).bareTokens_source hr
  | .null => exact Fragment.Argument.null.bareTokens_source hr

theorem spelled (c : Constant) : (Argument.literal c.again.literal).Spelled c.tokens := by
  match c with
  | .text s =>
      refine ⟨by simp [tokens, isAtom, ofText], rfl, by simp [tokens], ?_⟩
      simp [tokens, ofText, Argument.ofTokens, Argument.scalar?, decode?_quote, Literal.ofScalar, Except.map,
        again, literal]
  | .integer _ i _ => exact (Fragment.Argument.integer i).spelled
  | .bool true => exact (Fragment.Argument.bool true).spelled
  | .bool false => exact (Fragment.Argument.bool false).spelled
  | .null => exact Fragment.Argument.null.spelled

theorem clean (c : Constant) : ∀ t ∈ c.tokens, t.Clean := by
  match c with
  | .text s => exact List.forall_mem_singleton.2 (Fragment.clean_quoted _)
  | .integer _ i _ => exact (Fragment.Argument.integer i).clean
  | .bool b => exact (Fragment.Argument.bool b).clean
  | .null => exact Fragment.Argument.null.clean

theorem resembles_again (c : Constant) : c.literal.value.Resembles c.again.literal.value := by
  match c with
  | .text s => exact .text s
  | .integer x i h => exact .number h
  | .bool true => exact .bool true
  | .bool false => exact .bool false
  | .null => exact .null

theorem isShort (c : Constant) : c.literal.value.IsShort := by
  match c with
  | .integer x i h =>
      refine ⟨i.1.natAbs, ?_, i.2⟩
      have hi := i.2
      rw [h.1]
      exact Binary64.integer?_nearest (by omega)
  | .text _ | .bool true | .bool false | .null => trivial

theorem isAtom_tokens (cs : List Constant) : ∀ group ∈ cs.map tokens, ∀ t ∈ group, isAtom t :=
  Script.isAtom_of_spelled fun c _ => c.spelled

theorem exists_of_ofScalar {s : Scalar} {l : Literal} (h : Literal.ofScalar s = .ok l) (hl : l.value.IsShort) :
    ∃ c : Constant, c.literal = l := by
  cases s with
  | text s =>
      cases h
      exact ⟨.text s, rfl⟩
  | number numeral =>
      rw [Literal.ofScalar] at h
      split at h
      · cases h
        obtain ⟨n, hi, hn⟩ := hl
        obtain ⟨i, hlt, hx, ht⟩ := exists_numberText hi hn
        exact ⟨.integer _ ⟨i, hlt⟩ hx, by rw [literal, ht]⟩
      · cases h
  | bool b =>
      cases b with
      | true =>
          cases h
          exact ⟨.bool true, rfl⟩
      | false =>
          cases h
          exact ⟨.bool false, rfl⟩
  | null =>
      cases h
      exact ⟨.null, rfl⟩

end Constant

inductive Phrase
  | variable (name : String) (hn : IsName name) (s : String)
  | call (name : String) (hn : IsName name) (hk : Pattern.isKeyword name = false)
      (hb : Builtin.ofName? name = none) (args : List Constant)
  | function (name : String) (hn : IsName name) (body : List Phrase)

namespace Phrase

mutual

def draft : Phrase → Draft
  | .variable name _ s => .declared (name, s)
  | .call name _ _ _ args => .call ⟨.plain name, args.map fun c => .literal c.literal⟩
  | .function name _ body => .function name [] (drafts body)

def drafts : List Phrase → List Draft
  | [] => []
  | p :: ps => p.draft :: drafts ps

end

mutual

def again : Phrase → Phrase
  | .variable name hn s => .variable name hn (reread s)
  | .call name hn hk hb args => .call name hn hk hb (args.map Constant.again)
  | .function name hn body => .function name hn (againAll body)

def againAll : List Phrase → List Phrase
  | [] => []
  | p :: ps => p.again :: againAll ps

end

mutual

def tokens : Phrase → List Token
  | .variable name _ s => declarationTokens (name, s)
  | .call name _ _ _ args => callOf name (args.map Constant.tokens)
  | .function name _ body => functionOf name [] (tokensAll body)

def tokensAll : List Phrase → List Token
  | [] => []
  | p :: ps => p.tokens ++ tokensAll ps

end

theorem drafts_eq_map (ps : List Phrase) : drafts ps = ps.map draft := by
  induction ps with
  | nil => rfl
  | cons p ps ih => rw [drafts, ih, List.map_cons]

mutual

theorem bareTokens_text : (p : Phrase) → (rest : List Char) →
    bareTokens (p.draft.text.toList ++ rest) = p.tokens ++ bareTokens rest
  | .variable name hn s, rest => bareTokens_declared (v := (name, s)) hn.1 rest
  | .call name hn hk hb args, rest => by
      have he : (draft (.call name hn hk hb args)).text.toList ++ rest = name.toList ++ '(' ::
          ((Text.commaList (args.map fun c => c.literal.raw)).toList ++ ')' :: ';' :: rest) := by
        simp [draft, Draft.text, Callee.text, Function.comp_def, Argument.text]
      have hargs := Fragment.bareTokens_commaList (fun c _ h => Constant.bareTokens_raw c h) args
        (Fragment.endsArgument_cons (.inr rfl) (';' :: rest))
      rw [he, bareTokens_word hn.1 (endsWord_cons (by decide) _), bareTokens_mark (by decide), hargs,
        bareTokens_mark (by decide), bareTokens_mark (by decide)]
      simp [tokens, callOf, single]
  | .function name hn body, rest => by
      have he : (draft (.function name hn body)).text.toList ++ rest = "function".toList ++ ' ' ::
          (name.toList ++ '(' :: ')' :: ' ' :: '\x7b' ::
            ((if (drafts body).isEmpty then ' ' else '\n') :: ((Draft.lines (drafts body)).toList ++ '\x7d' :: rest))) := by
        cases body with
        | nil => simp [draft, drafts, Draft.text, Draft.lines, Text.commaList]
        | cons p ps => simp [draft, drafts, Draft.text, Text.commaList]
      have hf : IsWord "function".toList := isWord_of_all (by decide)
      have hblank : Text.isAsciiBlank (if (drafts body).isEmpty then ' ' else '\n') := by split <;> decide
      rw [he, bareTokens_word hf (endsWord_cons (by decide) _), bareTokens_blank (by decide),
        bareTokens_word hn.1 (endsWord_cons (by decide) _), bareTokens_mark (by decide),
        bareTokens_mark (by decide), bareTokens_blank (by decide), bareTokens_mark (by decide),
        bareTokens_blank hblank, bareTokens_lines body, bareTokens_mark (by decide)]
      simp [tokens, functionOf, single]

theorem bareTokens_lines : (ps : List Phrase) → (rest : List Char) →
    bareTokens ((Draft.lines (drafts ps)).toList ++ rest) = tokensAll ps ++ bareTokens rest
  | [], rest => rfl
  | p :: ps, rest => by
      have he : (Draft.lines (drafts (p :: ps))).toList ++ rest =
          p.draft.text.toList ++ '\n' :: ((Draft.lines (drafts ps)).toList ++ rest) := by
        simp [drafts, Draft.lines]
      rw [he, bareTokens_text p, bareTokens_blank (by decide), bareTokens_lines ps, tokensAll, List.append_assoc]

end

mutual

theorem neutral : (p : Phrase) → Neutral .curly p.tokens
  | .variable name _ s => neutral_of_forall (by simp [tokens, declarationTokens, ofText])
  | .call name _ _ _ args => neutral_callOf name (Constant.isAtom_tokens args)
  | .function name _ body => neutral_functionOf name (fun _ => rfl) (neutralAll body)

theorem neutralAll : (ps : List Phrase) → Neutral .curly (tokensAll ps)
  | [] => fun _ => rfl
  | p :: ps => (neutral p).append (neutralAll ps)

end

theorem lower_call {name raw : String} {args : List Constant} (hn : IsName name) (hb : Builtin.ofName? name = none)
    (h : (tokenize raw).map bare = separated (args.map Constant.tokens)) (mode : Mode) (place : Excerpt) :
    Transpile.lower mode (.call place name raw) =
      .ok (some (.call ⟨.plain name, (args.map Constant.again).map fun c => .literal c.literal⟩), []) := by
  have ha := Script.arguments_eq (fun c _ => c.spelled) h
  have hfree : ∀ n ∈ Call.names ⟨.plain name, args.map fun c => .literal c.again.literal⟩, n ∉ reservedWords := by
    simp [Call.names, hn.2]
  rw [Transpile.lower, Transpile.invoke, Call.ofSource, ha, hb]
  simp [Except.bind, Except.map, Transpile.checkNames_of_free hfree, Transpile.settle, Function.comp_def]

mutual

theorem items_tokens (mode : Mode) : (p : Phrase) → {ts more : List Token} → ts.map bare = p.tokens ++ more →
    Lexed ts → ∃ item us, Pattern.items ts = item :: Pattern.items us ∧ (∀ f, item ≠ .fault f) ∧
      Transpile.lower mode item = .ok (some p.again.draft, []) ∧ us.map bare = more ∧ Lexed us
  | .variable name hn s, ts, more, h, hl => by
      obtain ⟨place, us, hi, hus, before, rfl⟩ := Pattern.items_declaration h
      exact ⟨_, us, hi, by simp, Transpile.lower_assignment place hn.2 rfl, hus, hl.append.2⟩
  | .call name hn hk hb args, ts, more, h, hl => by
      have hc : ∀ group ∈ args.map Constant.tokens, ∀ t ∈ group, t.Clean := by
        simp only [List.mem_map]
        rintro _ ⟨c, _, rfl⟩
        exact c.clean
      obtain ⟨place, raw, before, us, rfl, hi, hraw, hus⟩ :=
        Pattern.items_of_callOf h hk hl (Constant.isAtom_tokens args) hc
      exact ⟨_, us, hi, by simp, lower_call hn hb hraw mode place, hus, hl.append.2⟩
  | .function name hn body, ts, more, h, hl => by
      obtain ⟨place, text, before, block, last, us, rfl, hi, hbody, hus⟩ :=
        Pattern.items_of_functionOf h (fun _ => rfl) rfl (neutralAll body)
      obtain ⟨_, hlower⟩ := items_tokensAll mode body hbody hl.append.1.append.2
      refine ⟨_, us, hi, by simp, ?_, hus, hl.append.2.drop 1⟩
      have hcheck : Transpile.checkNames [name] = .ok () := Transpile.checkNames_of_free (by simp [hn.2])
      rw [Transpile.lower, hcheck, hlower]
      rfl

theorem items_tokensAll (mode : Mode) : (ps : List Phrase) → {ts : List Token} → ts.map bare = tokensAll ps →
    Lexed ts → (∀ f, .fault f ∉ Pattern.items ts) ∧
      Transpile.lowerAll mode (Pattern.items ts) = .ok (drafts (againAll ps), [])
  | [], ts, h, _ => by
      obtain rfl : ts = [] := by simpa [tokensAll] using h
      rw [Pattern.items]
      exact ⟨by simp, rfl⟩
  | p :: ps, ts, h, hl => by
      obtain ⟨item, us, hi, hf, hlower, hus, hl⟩ := items_tokens mode p h hl
      obtain ⟨hfs, hlowers⟩ := items_tokensAll mode ps hus hl
      rw [hi]
      refine ⟨?_, Transpile.lowerAll_of_lower hlower hlowers⟩
      intro f hm
      rcases List.mem_cons.1 hm with rfl | hm
      · exact hf f rfl
      · exact hfs f hm

end

theorem forall₂_arguments (cs : List Constant) (m n : Nat) :
    List.Forall₂ Expression.Resembles (Draft.arguments m (cs.map fun c => .literal c.literal))
      (Draft.arguments n ((cs.map Constant.again).map fun c => .literal c.literal)) := by
  induction cs generalizing m n with
  | nil => exact .nil
  | cons c cs ih => exact .cons (.literal c.resembles_again) (ih _ _)

mutual

theorem resembles_again : (p : Phrase) → (m n : Nat) →
    Statement.Resembles (p.draft.node m) (p.again.draft.node n)
  | .variable name _ s, m, n => by
      rw [draft, again, draft, Draft.declared, Draft.declared, Draft.node, Draft.node]
      exact .declaration rfl rfl rfl (.literal (.text s))
  | .call name _ _ _ args, m, n => by
      rw [draft, again, draft, Draft.node, Draft.node]
      exact .call rfl (forall₂_arguments args _ _)
  | .function name _ body, m, n => by
      rw [draft, again, draft, Draft.node, Draft.node]
      exact .function rfl (resembleAll_again body _ _)

theorem resembleAll_again : (ps : List Phrase) → (m n : Nat) →
    Statement.ResembleAll (Draft.nodes m (drafts ps)) (Draft.nodes n (drafts (againAll ps)))
  | [], _, _ => by
      rw [drafts, againAll, drafts, Draft.nodes, Draft.nodes]
      exact .nil
  | p :: ps, m, n => by
      rw [drafts, againAll, drafts, Draft.nodes, Draft.nodes]
      exact .cons (resembles_again p m n) (resembleAll_again ps _ _)

end

theorem exists_argument_mem {a : Argument} {args : List Argument} (h : a ∈ args) (start : Nat) :
    ∃ n, Draft.argument n a ∈ Draft.arguments start args := by
  induction args generalizing start with
  | nil => cases h
  | cons b args ih =>
      rw [Draft.arguments]
      rcases List.mem_cons.1 h with rfl | h
      · exact ⟨start, .head _⟩
      · obtain ⟨n, hn⟩ := ih h (start + b.text.utf8ByteSize + 2)
        exact ⟨n, List.mem_cons_of_mem _ hn⟩

theorem exists_constants {args : List Argument} {start : Nat} (hs : ∀ a ∈ args, a.Sourced)
    (h : ∀ e ∈ Draft.arguments start args, ∃ span l, e = .literal span l ∧ l.value.IsShort) :
    ∃ cs : List Constant, cs.map (fun c => .literal c.literal) = args := by
  have hc : ∀ a ∈ args, a ∈ Set.range fun c : Constant => Argument.literal c.literal := by
    intro a ha
    obtain ⟨n, hn⟩ := exists_argument_mem ha start
    obtain ⟨span, l, he, hl⟩ := h _ hn
    cases hs a ha with
    | «variable» => cases he
    | literal hscalar =>
        cases he
        obtain ⟨c, rfl⟩ := Constant.exists_of_ofScalar hscalar hl
        exact ⟨c, rfl⟩
  have hr := (Set.range_list_map fun c : Constant => Argument.literal c.literal).ge hc
  exact hr

theorem exists_literal (cs : List Constant) (start : Nat) :
    ∀ e ∈ Draft.arguments start (cs.map fun c => .literal c.literal),
      ∃ span l, e = .literal span l ∧ l.value.IsShort := by
  induction cs generalizing start with
  | nil => simp [Draft.arguments]
  | cons c cs ih => exact List.forall_mem_cons.2 ⟨⟨_, _, rfl, c.isShort⟩, ih _⟩

theorem exists_draft {d : Draft} (h : d.Sourced) {start : Nat} (hr : (d.node start).Rereadable) :
    ∃ p : Phrase, p.draft = d := by
  induction h generalizing start with
  | «variable» s hn => exact ⟨.variable _ hn s, rfl⟩
  | @call c hc ha =>
      obtain ⟨callee, args⟩ := c
      rw [Draft.node] at hr
      cases hc with
      | log | math => cases hr
      | plain hn hk hb =>
          cases hr with
          | call hargs =>
              obtain ⟨cs, rfl⟩ := exists_constants ha hargs
              exact ⟨.call _ hn hk hb cs, rfl⟩
  | @function name params body hn hp hb ih =>
      rw [Draft.node] at hr
      cases params with
      | cons p ps => cases hr
      | nil =>
          cases hr with
          | function hbody =>
              have hm : ∀ d ∈ body, d ∈ Set.range draft := by
                intro d hd
                obtain ⟨n, hn⟩ := Draft.exists_node_mem hd _
                exact ih d hd (hbody _ hn)
              obtain ⟨ps, rfl⟩ := (Set.range_list_map draft).ge hm
              exact ⟨.function name hn ps, by rw [draft, drafts_eq_map]⟩

mutual

theorem rereadable_node : (p : Phrase) → (start : Nat) → (p.draft.node start).Rereadable
  | .variable name _ s, start => by
      rw [draft, Draft.declared, Draft.node]
      exact .declaration
  | .call name _ _ _ args, start => by
      rw [draft, Draft.node]
      exact .call (exists_literal args _)
  | .function name _ body, start => by
      rw [draft, Draft.node]
      exact .function (rereadable_nodes body _)

theorem rereadable_nodes : (ps : List Phrase) → (start : Nat) →
    ∀ s ∈ Draft.nodes start (drafts ps), s.Rereadable
  | [], start => by simp [drafts, Draft.nodes]
  | p :: ps, start => by
      rw [drafts, Draft.nodes]
      exact List.forall_mem_cons.2 ⟨rereadable_node p start, rereadable_nodes ps _⟩

end

theorem lowerAll_lines (mode : Mode) (ps : List Phrase) :
    Transpile.lowerAll mode (Source.plain (Draft.lines (drafts ps))).pulled = .ok (drafts (againAll ps), []) := by
  have ht : (tokenize (Draft.lines (drafts ps))).map bare = tokensAll ps := by
    have hb := bareTokens_lines ps []
    rwa [List.append_nil, bareTokens_nil, List.append_nil] at hb
  obtain ⟨hf, hagain⟩ := items_tokensAll mode ps ht (lexed_tokenize _)
  rwa [← Pattern.scan, ← Source.pulled_of_faultless hf] at hagain

end Phrase

/-- What is written in the language it is read from is read again without a fault, with the same statements, names
and arguments. Only strings change, and only as their control characters do. -/
theorem transpile_reproduces {source : String} {out : Transpiled}
    (h : transpile .lenient (.plain source) = .ok out) (hr : ∀ s ∈ out.program.body, s.Rereadable) :
    ∃ again, transpile .lenient (.plain out.text) = .ok again ∧ again.diagnostics = [] ∧
      Statement.ResembleAll out.program.body again.program.body := by
  obtain ⟨drafts, ds, hlower, _⟩ := Transpile.lowerAll_lenient (Source.plain source).pulled
  cases (transpile_of_lowerAll hlower).symm.trans h
  have hp : ∀ d ∈ drafts, d ∈ Set.range Phrase.draft := by
    intro d hd
    obtain ⟨n, hn⟩ := Draft.exists_node_mem hd 0
    exact Phrase.exists_draft (sourced_of_pulled hlower d hd) (hr _ hn)
  obtain ⟨ps, rfl⟩ := (Set.range_list_map Phrase.draft).ge hp
  rw [← Phrase.drafts_eq_map]
  exact ⟨_, transpile_of_lowerAll (Phrase.lowerAll_lines .lenient ps), rfl, Phrase.resembleAll_again ps 0 0⟩

theorem transpile_reproduces_nested :
    ∃ out again, transpile .lenient (.plain "function f() \x7b\ng(\"\x7d/*\", -7, true, null);\n\x7d\nvar a = \"\\u001b\";\n") = .ok out ∧
      (∀ s ∈ out.program.body, s.Rereadable) ∧ out.program.body.length = 2 ∧
      transpile .lenient (.plain out.text) = .ok again ∧ again.diagnostics = [] ∧
      Statement.ResembleAll out.program.body again.program.body := by
  let args : List Constant := [.text "\x7d/*", .integer (.ofInt (-7)) ⟨-7, by decide⟩ ⟨rfl, .inl rfl⟩, .bool true, .null]
  let body : List Phrase := [.call "g" ⟨isWord_of_all (by decide), by decide⟩ (by decide) (by decide) args]
  let ps : List Phrase :=
    [.function "f" ⟨isWord_of_all (by decide), by decide⟩ body,
      .variable "a" ⟨isWord_of_all (by decide), by decide⟩ "\x1b"]
  have hs : Draft.lines (Phrase.drafts ps) = "function f() \x7b\ng(\"\x7d/*\", -7, true, null);\n\x7d\nvar a = \"\\u001b\";\n" := by
    decide
  have h := transpile_of_lowerAll (Phrase.lowerAll_lines .lenient ps)
  have hr := Phrase.rereadable_nodes (Phrase.againAll ps) 0
  obtain ⟨again, ha, hn, he⟩ := transpile_reproduces h hr
  rw [hs] at h
  exact ⟨_, again, h, hr, rfl, ha, hn, he⟩

end PhpTranspiler
