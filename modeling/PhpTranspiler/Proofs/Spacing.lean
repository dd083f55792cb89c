import PhpTranspiler.Proofs.Accounting
import PhpTranspiler.Proofs.Relexing

namespace PhpTranspiler

open Script

mutual

inductive Alike : Item → Item → Prop
  | assignment {p q : Excerpt} {name : String} {value : Scalar} :
      Alike (.assignment p name value) (.assignment q name value)
  | call {p q : Excerpt} {callee a b : String}
      (h : (Lexer.tokenize a).map Token.bare = (Lexer.tokenize b).map Token.bare) :
      Alike (.call p callee a) (.call q callee b)
  | function {p q : Excerpt} {name a b : String} {params : List String} {xs ys : List Item}
      (h : AlikeAll xs ys) : Alike (.function p name params a xs) (.function q name params b ys)
  | unrecognized {p q : Excerpt} : Alike (.fault (.unrecognized p)) (.fault (.unrecognized q))
  | unsupported {p q : Excerpt} {a b : String} :
      Alike (.fault (.unsupported a p)) (.fault (.unsupported b q))

inductive AlikeAll : List Item → List Item → Prop
  | nil : AlikeAll [] []
  | cons {x y : Item} {xs ys : List Item} (h : Alike x y) (hs : AlikeAll xs ys) :
      AlikeAll (x :: xs) (y :: ys)

end

namespace Nesting

theorem balanced_map {f : Token → Token} (hf : ∀ t, (f t).kind = t.kind) (b : Bracket) (ts : List Token) :
    Balanced b (ts.map f) ↔ Balanced b ts := by
  have hl (depth : Nat) : level? b depth (ts.map f) = level? b depth ts := by
    fun_induction level? b depth ts with
    | case1 => rfl
    | case2 depth t ts hk ih => simp [level?, hf, hk, ih]
    | case3 t ts hne hk => simp [level?, hf, hk]
    | case4 t ts hne hk depth ih => simp [level?, hf, hk, ih]
    | case5 depth t ts hne hk ih => simp [level?, hf, hne, hk, ih]
  rw [Balanced, Balanced, hl]

end Nesting

namespace Pattern

open Token Lexer Nesting

structure Readable (ts : List Token) : Prop where
  lexed : Lexed ts
  clean : ∀ t ∈ ts, t.Clean

theorem Readable.append {ts us : List Token} (h : Readable (ts ++ us)) : Readable ts ∧ Readable us :=
  ⟨⟨h.lexed.append.1, fun t ht => h.clean t (List.mem_append_left us ht)⟩,
    ⟨h.lexed.append.2, fun t ht => h.clean t (List.mem_append_right ts ht)⟩⟩

theorem Readable.drop {ts : List Token} (h : Readable ts) (n : Nat) : Readable (ts.drop n) := by
  rw [← List.take_append_drop n ts] at h
  exact h.append.2

theorem Readable.tail {t : Token} {ts : List Token} (h : Readable (t :: ts)) : Readable ts := h.drop 1

inductive Form.Alike : Form → Form → Prop
  | assignment {name : String} {a b : Token} (h : a.text = b.text) :
      Alike (.assignment name a) (.assignment name b)
  | call {callee a b : String} (h : (tokenize a).map bare = (tokenize b).map bare) :
      Alike (.call callee a) (.call callee b)
  | function {name a b : String} {params : List String} {ts us : List Token} (h : ts.map bare = us.map bare)
      (ht : Readable ts) (hu : Readable us) : Alike (.function name params ts a) (.function name params us b)

theorem isWord_of_bare {t u : Token} (h : t.bare = u.bare) (word : String) : t.isWord word = u.isWord word := by
  obtain ⟨hk, ht⟩ := bare_inj.1 h
  rw [isWord, isWord, hk, ht]

theorem bare_eq_cons {t : Token} {ts us : List Token} (h : (t :: ts).map bare = us.map bare) :
    ∃ u vs, us = u :: vs ∧ t.bare = u.bare ∧ ts.map bare = vs.map bare := by
  cases us with
  | nil => cases h
  | cons u vs =>
      obtain ⟨ht, hts⟩ := List.cons_eq_cons.1 h
      exact ⟨u, vs, rfl, ht, hts⟩

theorem bare_eq_append {ts vs us : List Token} (h : (ts ++ vs).map bare = us.map bare) :
    ∃ xs ys, us = xs ++ ys ∧ ts.map bare = xs.map bare ∧ vs.map bare = ys.map bare := by
  rw [List.map_append] at h
  obtain ⟨xs, ys, rfl, hx, hy⟩ := List.map_eq_append_iff.1 h.symm
  exact ⟨xs, ys, rfl, hx.symm, hy.symm⟩

theorem balanced_of_bare {b : Bracket} {ts us : List Token} (h : ts.map bare = us.map bare) (hb : Balanced b ts) :
    Balanced b us := by
  rw [← balanced_map kind_bare, ← h, balanced_map kind_bare]
  exact hb

theorem Spells.respaced {t u : Token} {ts us : List Token} {m : Match} (h : Spells t ts m)
    (hb : t.bare = u.bare) (hbs : ts.map bare = us.map bare) (hts : Readable ts) (hus : Readable us) :
    ∃ n, Spells u us n ∧ m.more = n.more ∧ m.form.Alike n.form := by
  have hkind {x y : Token} {kind : Kind} (he : x.bare = y.bare) (hk : x.kind = kind) : y.kind = kind :=
    (bare_inj.1 he).1 ▸ hk
  obtain ⟨hk, ht⟩ := bare_inj.1 hb
  cases h with
  | assignment hv he hl hs =>
      obtain ⟨equals, us, rfl, he', hbs⟩ := bare_eq_cons hbs
      obtain ⟨literal, us, rfl, hl', hbs⟩ := bare_eq_cons hbs
      obtain ⟨semi, us, rfl, hs', hbs⟩ := bare_eq_cons hbs
      refine ⟨_, .assignment (hk ▸ hv) (hkind he' he) (hkind hl' hl) (hkind hs' hs), rfl, ?_⟩
      rw [name, name, ht]
      exact .assignment (bare_inj.1 hl').2
  | writtenOut hv hn he hl hs =>
      obtain ⟨name, us, rfl, hn', hbs⟩ := bare_eq_cons hbs
      obtain ⟨equals, us, rfl, he', hbs⟩ := bare_eq_cons hbs
      obtain ⟨literal, us, rfl, hl', hbs⟩ := bare_eq_cons hbs
      obtain ⟨semi, us, rfl, hs', hbs⟩ := bare_eq_cons hbs
      rw [isWord_of_bare hb] at hv
      refine ⟨_, .writtenOut hv (hkind hn' hn) (hkind he' he) (hkind hl' hl) (hkind hs' hs), rfl, ?_⟩
      rw [(bare_inj.1 hn').2]
      exact .assignment (bare_inj.1 hl').2
  | call hw hkey hp hi hc hs =>
      obtain ⟨paren, us, rfl, hp', hbs⟩ := bare_eq_cons hbs
      obtain ⟨inside, us, rfl, hi', hbs⟩ := bare_eq_append hbs
      obtain ⟨close, us, rfl, hc', hbs⟩ := bare_eq_cons hbs
      obtain ⟨semi, us, rfl, hs', hbs⟩ := bare_eq_cons hbs
      rw [ht] at hkey
      refine ⟨_, .call (hk ▸ hw) hkey (hkind hp' hp) (balanced_of_bare hi' hi) (hkind hc' hc) (hkind hs' hs), ?_, ?_⟩
      · simpa using congrArg List.length hi'
      · rw [ht]
        apply Form.Alike.call
        rw [bare_tokenize_inner hts.tail.lexed hts.tail.append.1.clean,
          bare_tokenize_inner hus.tail.lexed hus.tail.append.1.clean, hi']
  | function hw hn hp hi hc hps hbrace hbody hl =>
      simp only [List.cons_append, List.append_assoc] at hbs hts
      obtain ⟨name, us, rfl, hn', hbs⟩ := bare_eq_cons hbs
      obtain ⟨paren, us, rfl, hp', hbs⟩ := bare_eq_cons hbs
      obtain ⟨inside, us, rfl, hi', hbs⟩ := bare_eq_append hbs
      obtain ⟨close, us, rfl, hc', hbs⟩ := bare_eq_cons hbs
      obtain ⟨brace, us, rfl, hb', hbs⟩ := bare_eq_cons hbs
      obtain ⟨body, us, rfl, hbody', hbs⟩ := bare_eq_append hbs
      obtain ⟨last, us, rfl, hl', hbs⟩ := bare_eq_cons hbs
      rw [isWord_of_bare hb] at hw
      rw [← parameters?_map kind_bare text_bare, hi', parameters?_map kind_bare text_bare] at hps
      have hs : Spells u (name :: paren :: inside ++ close :: brace :: body ++ last :: us) _ :=
        .function hw (hkind hn' hn) (hkind hp' hp) (balanced_of_bare hi' hi) (hkind hc' hc) hps (hkind hb' hbrace)
          (balanced_of_bare hbody' hbody) (hkind hl' hl)
      simp only [List.cons_append, List.append_assoc] at hs
      refine ⟨_, hs, ?_, ?_⟩
      · have h1 := congrArg List.length hi'
        have h2 := congrArg List.length hbody'
        simp only [List.length_map] at h1 h2
        simp [h1, h2]
      · rw [(bare_inj.1 hn').2]
        exact .function hbody' hts.tail.tail.append.2.tail.tail.append.1
          hus.tail.tail.append.2.tail.tail.append.1

theorem recognize?_respaced {t u : Token} {ts us : List Token} {m : Match} (hm : recognize? t ts = some m)
    (hb : t.bare = u.bare) (hbs : ts.map bare = us.map bare) (hts : Readable ts) (hus : Readable us) :
    ∃ n, recognize? u us = some n ∧ m.more = n.more ∧ m.form.Alike n.form := by
  obtain ⟨n, hn, hmore, hform⟩ := (recognize?_spells hm).respaced hb hbs hts hus
  exact ⟨n, hn.recognize?_eq, hmore, hform⟩

theorem recognize?_respaced_none {t u : Token} {ts us : List Token} (hm : recognize? t ts = none)
    (hb : t.bare = u.bare) (hbs : ts.map bare = us.map bare) (hts : Readable ts) (hus : Readable us) :
    recognize? u us = none := by
  cases hn : recognize? u us with
  | none => rfl
  | some n =>
      obtain ⟨m, hs, _⟩ := recognize?_respaced hn hb.symm hbs.symm hus hts
      cases hm.symm.trans hs

theorem chunk_respaced {t u : Token} {ts us : List Token} (hb : t.bare = u.bare)
    (hbs : ts.map bare = us.map bare) : chunk t ts = chunk u us := by
  rw [← chunk_map kind_bare text_bare, hb, hbs, chunk_map kind_bare text_bare]

theorem isTag_respaced {t u : Token} (hb : t.bare = u.bare) : t.isTag = u.isTag := by
  rw [isTag, isTag, (bare_inj.1 hb).1]

theorem bare_drop {ts us : List Token} (h : ts.map bare = us.map bare) (n : Nat) :
    (ts.drop n).map bare = (us.drop n).map bare := by
  rw [List.map_drop, List.map_drop, h]

theorem Readable.nil : Readable [] := ⟨⟨0, [], [], tokensFrom_of_gap rfl 0⟩, by simp⟩

theorem Form.Alike.body {m n : Match} (h : m.form.Alike n.form) :
    m.body.map bare = n.body.map bare ∧ Readable m.body ∧ Readable n.body := by
  obtain ⟨_, _⟩ := m
  obtain ⟨_, _⟩ := n
  cases h with
  | assignment _ | call _ => exact ⟨rfl, .nil, .nil⟩
  | function h ht hu => exact ⟨h, ht, hu⟩

theorem Form.Alike.item {m n : Match} (h : m.form.Alike n.form) {xs ys : List Item} (hs : AlikeAll xs ys)
    (t u : Token) (ts us : List Token) :
    (∃ x y, m.item t ts xs = .ok x ∧ n.item u us ys = .ok y ∧ PhpTranspiler.Alike x y) ∨
      ∃ f g, m.item t ts xs = .error f ∧ n.item u us ys = .error g ∧
        PhpTranspiler.Alike (.fault f) (.fault g) := by
  obtain ⟨_, _⟩ := m
  obtain ⟨_, _⟩ := n
  cases h with
  | @assignment name a b h =>
      simp only [Match.item, h]
      cases Quoted.decode? b.text with
      | some s => exact .inl ⟨_, _, rfl, rfl, .assignment⟩
      | none => exact .inr ⟨_, _, rfl, rfl, .unsupported⟩
  | call h => exact .inl ⟨_, _, rfl, rfl, .call h⟩
  | function _ _ _ => exact .inl ⟨_, _, rfl, rfl, .function hs⟩

/-- What is read does not depend on the spacing, but for the places and the texts that go with them. -/
theorem items_respaced {ts us : List Token} (h : ts.map bare = us.map bare) (hts : Readable ts)
    (hus : Readable us) : AlikeAll (items ts) (items us) := by
  fun_induction items ts generalizing us with
  | case1 =>
      obtain rfl : us = [] := by simpa using h.symm
      rw [items]
      exact .nil
  | case2 t ts htag ih =>
      obtain ⟨u, us, rfl, hb, hbs⟩ := bare_eq_cons h
      rw [items_of_tag (isTag_respaced hb ▸ htag)]
      exact ih hbs hts.tail hus.tail
  | case3 t ts htag hm ih =>
      obtain ⟨u, us, rfl, hb, hbs⟩ := bare_eq_cons h
      have htag' : u.isTag = false := by rw [← isTag_respaced hb]; simpa using htag
      have hn := recognize?_respaced_none hm hb hbs hts.tail hus.tail
      rw [items_of_none htag' hn, ← chunk_respaced hb hbs]
      exact .cons .unrecognized (ih (bare_drop hbs _) (hts.tail.drop _) (hus.tail.drop _))
  | case4 t ts htag m hm item hi ihb ih =>
      obtain ⟨u, us, rfl, hb, hbs⟩ := bare_eq_cons h
      have htag' : u.isTag = false := by rw [← isTag_respaced hb]; simpa using htag
      obtain ⟨n, hn, hmore, hf⟩ := recognize?_respaced hm hb hbs hts.tail hus.tail
      obtain ⟨hbody, hr, hr'⟩ := hf.body
      rcases hf.item (ihb hbody hr hr') t u ts us with ⟨x, y, hx, hy, ha⟩ | ⟨f, g, hx, _⟩
      · cases hi.symm.trans hx
        rw [items_of_ok htag' hn hy, ← hmore]
        exact .cons ha (ih (bare_drop hbs _) (hts.tail.drop _) (hus.tail.drop _))
      · cases hi.symm.trans hx
  | case5 t ts htag m hm fault hi ihb ih =>
      obtain ⟨u, us, rfl, hb, hbs⟩ := bare_eq_cons h
      have htag' : u.isTag = false := by rw [← isTag_respaced hb]; simpa using htag
      obtain ⟨n, hn, hmore, hf⟩ := recognize?_respaced hm hb hbs hts.tail hus.tail
      obtain ⟨hbody, hr, hr'⟩ := hf.body
      rcases hf.item (ihb hbody hr hr') t u ts us with ⟨x, y, hx, _⟩ | ⟨f, g, hx, hy, ha⟩
      · cases hi.symm.trans hx
      · cases hi.symm.trans hx
        rw [items_of_error htag' hn hy, ← chunk_respaced hb hbs]
        exact .cons ha (ih (bare_drop hbs _) (hts.tail.drop _) (hus.tail.drop _))

end Pattern

namespace Lexer

theorem ink_of_clean {start : Nat} {cs : List Char} {t : Token} (ht : t ∈ tokensFrom start cs) (hc : t.Clean) :
    ∃ c ∈ t.text.toList, Text.isBlank c = false := by
  by_cases hn : ∃ c ∈ t.text.toList, Text.isBlank c = false
  · exact hn
  have hb : ∀ c ∈ t.text.toList, Text.isBlank c := by
    intro c hm
    rw [← Bool.not_eq_false]
    exact fun hf => hn ⟨c, hm, hf⟩
  rcases hc with ⟨quote, closed, hk⟩ | hc
  · rcases kind_of_blank_text ht hb with hw | hw <;> cases hk.symm.trans hw
  obtain ⟨us, vs, he⟩ := List.append_of_mem ht
  obtain ⟨n, rest, _, hr⟩ := tokensFrom_drop he
  obtain ⟨gap, kind, text, more, rfl, hg, ⟨c, cs, rfl, _⟩, rfl, _⟩ := cuts_of_tokensFrom hr
  -- The first character would belong to the gap.
  have hm : c ∈ (String.ofList (c :: cs)).toList := by simp
  have hzero := gapLength_drop .blanks (gap ++ (c :: cs ++ more))
  rw [hg, List.drop_left, List.cons_append, gapLength_of_blank (hc c hm (hb c hm))] at hzero
  cases hzero

end Lexer

/-- Results that are the same, but for the text of an argument that is refused. -/
inductive Concur {α : Type} : Except Refusal α → Except Refusal α → Prop
  | same (r : Except Refusal α) : Concur r r
  | argument (a b : String) : Concur (.error (.argument a)) (.error (.argument b))

namespace Concur

variable {α β : Type} {r s : Except Refusal α}

theorem eq_ok {a : α} (h : Concur r (.ok a)) : r = .ok a := by
  cases h
  rfl

theorem bind (h : Concur r s) {f g : α → Except Refusal β} (hf : ∀ a, Concur (f a) (g a)) :
    Concur (r.bind f) (s.bind g) := by
  cases h with
  | same r =>
      cases r with
      | error e => exact .same _
      | ok a => exact hf a
  | argument a b => exact .argument a b

end Concur

namespace Script

open Token

theorem Argument.scalar?_of_bare {t u : Token} (h : t.bare = u.bare) : scalar? t = scalar? u := by
  simp only [scalar?, (bare_inj.1 h).1, (bare_inj.1 h).2, Pattern.isWord_of_bare h]

theorem Argument.ofTokens_respaced {ts us : List Token} (h : ts.map bare = us.map bare) :
    Concur (ofTokens ts) (ofTokens us) := by
  match ts, us with
  | [], [] => exact .argument _ _
  | [t], [u] =>
      have hb : t.bare = u.bare := by simpa using h
      simp only [ofTokens, (bare_inj.1 hb).1, name, (bare_inj.1 hb).2, scalar?_of_bare hb]
      split
      · exact .same _
      · split
        · exact .same _
        · exact .argument _ _
  | [minus, n], [minus', n'] =>
      have hb : minus.bare = minus'.bare ∧ n.bare = n'.bare := by simpa using h
      simp only [ofTokens, (bare_inj.1 hb.1).2, (bare_inj.1 hb.2).1, (bare_inj.1 hb.2).2]
      split
      · exact .same _
      · exact .argument _ _
  | t :: t' :: t'' :: ts, u :: u' :: u'' :: us => exact .argument _ _
  | [], _ :: _ | [_], [] | [_], _ :: _ :: _ | [_, _], [] | [_, _], [_] | [_, _], _ :: _ :: _ :: _ => simp at h
  | _ :: _ :: _ :: _, [] | _ :: _ :: _ :: _, [_] | _ :: _ :: _ :: _, [_, _] => simp at h

theorem mapM_ofTokens_respaced {xs ys : List (List Token)} (h : xs.map (List.map bare) = ys.map (List.map bare)) :
    Concur (xs.mapM Argument.ofTokens) (ys.mapM Argument.ofTokens) := by
  induction xs generalizing ys with
  | nil =>
      obtain rfl : ys = [] := by simpa using h.symm
      exact .same _
  | cons x xs ih =>
      cases ys with
      | nil => cases h
      | cons y ys =>
          obtain ⟨hx, hxs⟩ := List.cons_eq_cons.1 h
          rw [List.mapM_cons, List.mapM_cons]
          apply (Argument.ofTokens_respaced hx).bind
          intro arg
          apply (ih hxs).bind
          exact fun args => .same _

def argumentsOf (ts : List Token) : Except Refusal (List Argument) :=
  if ts.isEmpty then .ok [] else (Nesting.groups 0 ts).mapM Argument.ofTokens

theorem arguments_eq_argumentsOf (raw : String) : arguments raw = argumentsOf (Lexer.tokenize raw) := rfl

theorem argumentsOf_respaced {ts us : List Token} (h : ts.map bare = us.map bare) :
    Concur (argumentsOf ts) (argumentsOf us) := by
  have hg : (Nesting.groups 0 ts).map (List.map bare) = (Nesting.groups 0 us).map (List.map bare) := by
    rw [← Nesting.groups_map kind_bare, h, Nesting.groups_map kind_bare]
  have he : ts.isEmpty = us.isEmpty := by
    rw [← List.isEmpty_map (f := bare), h, List.isEmpty_map]
  simp only [argumentsOf, he]
  split
  · exact .same _
  · exact mapM_ofTokens_respaced hg

theorem arguments_respaced {a b : String} (h : (Lexer.tokenize a).map bare = (Lexer.tokenize b).map bare) :
    Concur (arguments a) (arguments b) := by
  rw [arguments_eq_argumentsOf, arguments_eq_argumentsOf]
  exact argumentsOf_respaced h

end Script

namespace Transpile

theorem invoke_respaced (callee : String) {a b : String}
    (h : (Lexer.tokenize a).map Token.bare = (Lexer.tokenize b).map Token.bare) :
    Concur (invoke callee a) (invoke callee b) := by
  apply ((arguments_respaced h).bind fun args => .same _).bind
  exact fun c => .same _

theorem settle_respaced {r s : Except Refusal Draft} (h : Concur r s) {p : Excerpt} {draft : Option Draft}
    {ds : List Diagnostic} (hs : settle p r = (draft, ds)) (q : Excerpt) :
    ∃ es, settle q s = (draft, es) ∧ ds.map Diagnostic.kind = es.map Diagnostic.kind := by
  cases h with
  | same r =>
      cases r with
      | ok d =>
          cases hs
          exact ⟨[], rfl, rfl⟩
      | error e =>
          cases hs
          exact ⟨[.ofRefusal q e], rfl, rfl⟩
  | argument a b =>
      cases hs
      exact ⟨[.ofRefusal q (.argument b)], rfl, rfl⟩

mutual

theorem lower_respaced {x y : Item} {draft : Option Draft} {ds : List Diagnostic} :
    Alike x y → lower .lenient x = .ok (draft, ds) →
      ∃ es, lower .lenient y = .ok (draft, es) ∧ ds.map Diagnostic.kind = es.map Diagnostic.kind
  | @Alike.assignment p q name value, h => by
      rw [lower, Except.ok.injEq] at h
      obtain ⟨es, he, hk⟩ := settle_respaced (.same _) h q
      exact ⟨es, by rw [lower, he], hk⟩
  | @Alike.call p q callee a b hb, h => by
      rw [lower, Except.ok.injEq] at h
      obtain ⟨es, he, hk⟩ := settle_respaced (invoke_respaced callee hb) h q
      exact ⟨es, by rw [lower, he], hk⟩
  | @Alike.function p q name a b params xs ys hs, h => by
      rw [lower] at h
      rw [lower]
      cases hc : checkNames (name :: params) with
      | error r =>
          simp only [hc, Except.ok.injEq, Prod.mk.injEq] at h
          obtain ⟨rfl, rfl⟩ := h
          exact ⟨_, rfl, rfl⟩
      | ok _ =>
          obtain ⟨drafts, inner, hx, _⟩ := lowerAll_lenient xs
          simp only [hc, hx, Except.map, Except.ok.injEq, Prod.mk.injEq] at h
          obtain ⟨rfl, rfl⟩ := h
          obtain ⟨es, hy, hk⟩ := lowerAll_respaced hs hx
          exact ⟨es, by simp [hy, Except.map], hk⟩
  | @Alike.unrecognized p q, h => by
      rw [lower] at h
      cases h
      rw [lower]
      exact ⟨[.ofFault (.unrecognized q)], rfl, rfl⟩
  | @Alike.unsupported p q a b, h => by
      rw [lower] at h
      cases h
      rw [lower]
      exact ⟨[.ofFault (.unsupported b q)], rfl, rfl⟩

theorem lowerAll_respaced {xs ys : List Item} {drafts : List Draft} {ds : List Diagnostic} :
    AlikeAll xs ys → lowerAll .lenient xs = .ok (drafts, ds) →
      ∃ es, lowerAll .lenient ys = .ok (drafts, es) ∧ ds.map Diagnostic.kind = es.map Diagnostic.kind
  | .nil, h => ⟨ds, h, rfl⟩
  | .cons hx hs, h => by
      obtain ⟨draft, inner, more, rest, hi, hr, rfl, rfl⟩ := lowerAll_cons h
      obtain ⟨es, hy, hk⟩ := lower_respaced hx hi
      obtain ⟨fs, hys, hks⟩ := lowerAll_respaced hs hr
      refine ⟨es ++ fs, ?_, by rw [List.map_append, List.map_append, hk, hks]⟩
      rw [lowerAll, hy, hys]
      rfl

end

end Transpile

theorem AlikeAll.length_eq {xs ys : List Item} (h : AlikeAll xs ys) : xs.length = ys.length := by
  induction xs generalizing ys with
  | nil =>
      cases h
      rfl
  | cons x xs ih =>
      cases h with
      | cons _ hs => rw [List.length_cons, List.length_cons, ih hs]

theorem Source.pulled_of_clean {source : String} (h : ∀ t ∈ Lexer.tokenize source, t.Clean) :
    (plain source).pulled = Pattern.scan source := by
  obtain ⟨rest, hr, hink⟩ := Run.pulled_append (Text.inkEnd source) 0 (Pattern.scan source)
  rcases hink with rfl | hink
  · rw [List.append_nil] at hr
    exact hr.symm
  obtain ⟨before, us, hts, rfl, hlate⟩ := Pattern.scan_suffix hr hink
  cases us with
  | nil =>
      rw [Pattern.items, List.append_nil] at hr
      exact hr.symm
  | cons u us =>
      have hm : u ∈ Lexer.tokenize source := by simp [hts]
      obtain ⟨c, hc, hn⟩ := Lexer.ink_of_clean hm (h u hm)
      have hb := ((Lexer.standIn_tokenize source).standsAt hm).isBlank_of_inkEnd_le (hlate u (.head _)) c hc
      simp [hn] at hb

/-- Blanks and comments between the tokens do not matter. Sources of the same tokens have the same result, and
what is reported about them is of the same kinds. -/
theorem transpile_respaced {a b : String}
    (h : (Lexer.tokenize a).map Token.bare = (Lexer.tokenize b).map Token.bare)
    (hc : ∀ t ∈ Lexer.tokenize a, t.Clean) :
    ∃ x y, transpile .lenient (.plain a) = .ok x ∧ transpile .lenient (.plain b) = .ok y ∧
      x.program = y.program ∧ x.text = y.text ∧ x.summary = y.summary ∧
      x.diagnostics.map Diagnostic.kind = y.diagnostics.map Diagnostic.kind := by
  have hc' : ∀ t ∈ Lexer.tokenize b, t.Clean := by
    intro t ht
    obtain ⟨u, hu, hk, he⟩ := Lexer.mem_of_bare h.symm ht
    have hclean := hc u hu
    rwa [Token.Clean, hk, he] at hclean
  have hs : AlikeAll (Source.plain a).pulled (Source.plain b).pulled := by
    rw [Source.pulled_of_clean hc, Source.pulled_of_clean hc']
    exact Pattern.items_respaced h ⟨Lexer.lexed_tokenize a, hc⟩ ⟨Lexer.lexed_tokenize b, hc'⟩
  obtain ⟨drafts, ds, ha, _⟩ := Transpile.lowerAll_lenient (Source.plain a).pulled
  obtain ⟨es, hb, hk⟩ := Transpile.lowerAll_respaced hs ha
  refine ⟨_, _, transpile_of_lowerAll ha, transpile_of_lowerAll hb, rfl, rfl, ?_, hk⟩
  rw [hs.length_eq]

theorem transpile_respaced_comment :
    ∃ x y,
      transpile .lenient (.plain "function f($v) \x7b echo( /* v */ $v ); \x7d if ($v) g(\"\u00a0\");") = .ok x ∧
      transpile .lenient (.plain "function f($v)\x7becho($v);\x7d\nif($v)g(\"\u00a0\"); # last") = .ok y ∧
      x.program = y.program ∧ x.text = y.text ∧ x.summary = y.summary ∧
      x.diagnostics.map Diagnostic.kind = y.diagnostics.map Diagnostic.kind := by
  apply transpile_respaced
  · decide +kernel
  · have hc : ∀ t ∈ Lexer.tokenize
        "function f($v) \x7b echo( /* v */ $v ); \x7d if ($v) g(\"\u00a0\");",
        t.kind = .quoted .double true ∨
          t.text.toList.all (fun c => Text.isBlank c → Text.isAsciiBlank c) := by decide +kernel
    intro t ht
    rcases hc t ht with hk | hb
    · exact .inl ⟨_, _, hk⟩
    · exact .inr fun c hc => of_decide_eq_true (List.all_eq_true.1 hb c hc)

end PhpTranspiler
