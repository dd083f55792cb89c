import PhpTranspiler.Proofs.ArgumentLists
import PhpTranspiler.Proofs.Escapes
import PhpTranspiler.Proofs.Lossless
import PhpTranspiler.Proofs.Names

namespace PhpTranspiler

open Script Token Lexer

/-- An item of a block, or of the body of a function in it at any depth. -/
inductive Item.Within : List Item → Item → Prop
  | here {items : List Item} {item : Item} (h : item ∈ items) : Within items item
  | inside {items body : List Item} {item : Item} {place : Excerpt} {name text : String} {params : List String}
      (h : .function place name params text body ∈ items) (hw : Within body item) : Within items item

namespace Transpile

theorem exists_lower_of_mem {mode : Mode} {items : List Item} {drafts : List Draft} {ds : List Diagnostic}
    (h : lowerAll mode items = .ok (drafts, ds)) {item : Item} (hm : item ∈ items) :
    ∃ draft inner, lower mode item = .ok (draft, inner) ∧ ∀ d ∈ inner, d ∈ ds := by
  induction items generalizing drafts ds with
  | nil => cases hm
  | cons first items ih =>
      obtain ⟨draft, inner, more, rest, hi, hs, rfl, rfl⟩ := lowerAll_cons h
      rcases List.mem_cons.1 hm with rfl | hm
      · exact ⟨draft, inner, hi, fun d hd => List.mem_append_left rest hd⟩
      · obtain ⟨draft', inner', hi', hin⟩ := ih hs hm
        exact ⟨draft', inner', hi', fun d hd => List.mem_append_right inner (hin d hd)⟩

/-- What is reported about an item at any depth is reported by the run, unless a function around it is refused. -/
theorem reported_of_within {mode : Mode} {items : List Item} {drafts : List Draft} {ds : List Diagnostic}
    (h : lowerAll mode items = .ok (drafts, ds)) {item : Item} (hw : Item.Within items item) :
    (∃ draft inner, lower mode item = .ok (draft, inner) ∧ ∀ d ∈ inner, d ∈ ds) ∨
      ∃ place name params text body r, Item.Within items (.function place name params text body) ∧
        Item.Within body item ∧ Diagnostic.ofRefusal place r ∈ ds := by
  induction hw generalizing drafts ds with
  | here hm => exact .inl (exists_lower_of_mem h hm)
  | @inside items body item place name text params hm hw ih =>
      obtain ⟨draft, inner, hi, hin⟩ := exists_lower_of_mem h hm
      rcases lower_function_eq_ok hi with ⟨r, _, rfl, rfl⟩ | ⟨more, _, hb, rfl⟩
      · exact .inr ⟨place, name, params, text, body, r, .here hm, hw, hin _ (.head _)⟩
      · rcases ih hb with ⟨draft, inner, hl, hd⟩ | ⟨place', name', params', text', body', r, hf, hb', hd⟩
        · exact .inl ⟨draft, inner, hl, fun d hm => hin d (hd d hm)⟩
        · exact .inr ⟨place', name', params', text', body', r, .inside hm hf, hb', hin _ hd⟩

end Transpile

theorem Text.StandsAt.exists_append {raw rest part : String} {start : Nat} {place : Span}
    (hr : StandsAt raw ⟨start, raw.utf8ByteSize⟩ rest) (hs : StandsAt raw place part) (hp : start = place.start) :
    ∃ back, rest.toList = part.toList ++ back := by
  obtain ⟨left, right, hraw, hspan⟩ := hr
  obtain ⟨front, back, hraw', rfl⟩ := hs
  obtain ⟨rfl, hstop⟩ := Span.mk.inj hspan
  have hright : right.toList = [] := by
    apply eq_nil_of_size_eq_zero
    have hsize := congrArg String.utf8ByteSize hraw
    simp only [String.utf8ByteSize_append] at hsize
    rw [size_toList]
    omega
  have he : left.toList ++ rest.toList = front.toList ++ (part.toList ++ back.toList) := by
    have he := congrArg String.toList (hraw.symm.trans hraw')
    simpa [hright] using he
  have hfront : size left.toList = size front.toList := by
    rw [size_toList, size_toList]
    exact hp
  obtain ⟨mid, hleft, hrest⟩ := append_split_of_size_le he (Nat.le_of_eq hfront.symm)
  have hmid : mid = [] := by
    apply eq_nil_of_size_eq_zero
    rw [hleft, size_append] at hfront
    omega
  rw [hmid, List.nil_append] at hrest
  exact ⟨back.toList, hrest.symm⟩

namespace Lexer

section

variable {raw text : String} {place : Span}

theorem string_of_mem {t : Token} (ht : t ∈ tokenize raw) (hs : Text.StandsAt raw place text)
    (hp : t.start = place.start) (hq : text.toList.head? = some '"') :
    ∃ closed, t.kind = .quoted .double closed ∧ t.text ≠ "-" ∧
      ∀ body, text.toList = '"' :: body ++ ['"'] → Enclosable '"' body → t.text = text ∧ closed = true := by
  obtain ⟨before, after, hsplit⟩ := List.append_of_mem ht
  obtain ⟨rest, _, hr, _, ⟨c, ds, hc, hl⟩, _⟩ := tokenize_split hsplit
  obtain ⟨back, hback⟩ := hr.exists_append hs hp
  obtain ⟨cs, hcs⟩ := List.head?_eq_some_iff.1 hq
  rw [String.toList_append, hc, hcs, List.cons_append, List.cons_append] at hback
  obtain ⟨rfl, htail⟩ := List.cons_eq_cons.1 hback
  obtain ⟨n, closed, hlen⟩ : ∃ n closed, quotedLength '"' (cs ++ back) = (n, closed) := ⟨_, _, rfl⟩
  have hlex : lexeme '"' (cs ++ back) = (.quoted .double closed, n) := by
    simp [lexeme, isWordStart, Quote.ofChar?, hlen]
  rw [htail, hlex] at hl
  obtain ⟨hkind, hn⟩ := Prod.mk.inj hl
  refine ⟨closed, hkind.symm, ?_, ?_⟩
  · intro hm
    rw [hm] at hc
    cases hc
  · intro body hb he
    obtain rfl : cs = body ++ ['"'] := (List.cons_eq_cons.1 (hcs.symm.trans hb)).2
    rw [List.append_assoc, List.singleton_append, he.quotedLength_eq (by decide)] at hlen
    obtain ⟨rfl, rfl⟩ := Prod.mk.inj hlen
    have hds : ds = body ++ ['"'] := (List.append_inj htail (by simpa using hn.symm)).1
    refine ⟨?_, rfl⟩
    apply String.toList_injective
    rw [hc, hcs, hds]

theorem exists_first (hs : Text.StandsAt raw place text) (hp : place.start = 0) (hq : text.toList.head? = some '"') :
    ∃ t ∈ tokenize raw, t.start = place.start := by
  obtain ⟨back, hback⟩ := (Text.standsAt_self raw).exists_append hs hp.symm
  obtain ⟨cs, hcs⟩ := List.head?_eq_some_iff.1 hq
  rw [hcs, List.cons_append] at hback
  have hd : raw.toList.drop (gapLength .blanks raw.toList) = '"' :: (cs ++ back) := by
    rw [hback]
    rfl
  rw [tokenize, tokensFrom_of_lexeme hd (show lexeme '"' (cs ++ back) = (_, _) from rfl)]
  refine ⟨_, .head _, ?_⟩
  rw [hp, hback]
  rfl

end

end Lexer

namespace Script

/-- Why a call of `callee` is refused if `group` is the group of its argument list with the string `t`. -/
inductive Objection (callee : String) (before : List (List Token)) (group : List Token) (after : List (List Token))
    (t : Token) : Prop
  | company (h : group ≠ [t])
  | unclosed (h : t.kind ≠ .quoted .double true)
  | escape (h : Quoted.decode? t.text = none)
  | other {g : List Token} (hg : g ∈ before ++ after) (h : ∀ arg, ¬Argument.SpelledBy g arg)
  | arity (hb : Builtin.ofName? callee = some .log) (h : before ++ after ≠ [])
  | callee (h : callee ∈ reservedWords)
  | name {u : Token} (hg : [u] ∈ before ++ after) (hk : u.kind = .variable) (hr : u.name ∈ reservedWords)

theorem Argument.SpelledBy.eq_of_quoted {group : List Token} {arg : Argument} {t : Token} {q : Quote} {closed : Bool}
    (h : SpelledBy group arg) (ht : t ∈ group) (hk : t.kind = .quoted q closed) (hm : t.text ≠ "-") :
    group = [t] ∧ closed = true ∧ ∃ s, Quoted.decode? t.text = some s ∧ arg = .literal ⟨.text s, quote s⟩ := by
  have hone {u : Token} (hu : t ∈ [u]) : u = t := (List.mem_singleton.1 hu).symm
  cases h with
  | string hq hs =>
      obtain rfl := hone ht
      cases hk.symm.trans hq
      exact ⟨rfl, rfl, _, hs, rfl⟩
  | «variable» hv =>
      rw [hone ht, hk] at hv
      cases hv
  | truth hw | falsehood hw | null hw =>
      have hword := kind_of_isWord hw
      rw [hone ht, hk] at hword
      cases hword
  | number hn _ _ =>
      cases hn with
      | plain hn =>
          rw [hone ht, hk] at hn
          cases hn
      | negative hminus hn =>
          rcases List.mem_cons.1 ht with rfl | hu
          · exact absurd hminus hm
          · rw [hone hu, hk] at hn
            cases hn

theorem exists_group {ts : List Token} {gs : List (List Token)} (h : Nesting.Divided ts gs) {t : Token} (ht : t ∈ ts)
    (hk : t.kind ≠ .comma) : ∃ g ∈ gs, t ∈ g := by
  induction h with
  | @last group _ => exact ⟨group, .head _, ht⟩
  | @more group ts gs comma _ _ hc _ ih =>
      rcases List.mem_append.1 ht with ht | ht
      · exact ⟨group, .head _, ht⟩
      rcases List.mem_cons.1 ht with rfl | ht
      · exact absurd hc hk
      · obtain ⟨g, hg, hm⟩ := ih ht
        exact ⟨g, List.mem_cons_of_mem group hg, hm⟩

theorem ne_nil_of_mem_group {ts : List Token} {gs : List (List Token)} (h : Nesting.Divided ts gs) {group : List Token}
    (hg : group ∈ gs) {t : Token} (ht : t ∈ group) : ts ≠ [] :=
  List.ne_nil_of_mem ((h.isInfix group hg).subset ht)

theorem arguments_eq_ok_iff {raw : String} {gs : List (List Token)} {args : List Argument} (hn : tokenize raw ≠ [])
    (hd : Nesting.Divided (tokenize raw) gs) :
    arguments raw = .ok args ↔ List.Forall₂ Argument.SpelledBy gs args := by
  rw [arguments_of_ne_nil hn, Nesting.divided_iff.1 hd, mapM_eq_ok_iff]
  simp only [Argument.ofTokens_eq_ok_iff]

theorem ofName?_of_reserved : ∀ name ∈ reservedWords, Builtin.ofName? name = none := by decide

theorem exists_ofSource {callee raw : String} {args : List Argument} (h : arguments raw = .ok args)
    (hl : Builtin.ofName? callee = some .log → args.length = 1) :
    ∃ target, Call.ofSource callee raw = .ok ⟨target, args⟩ ∧ ∀ name, target = .plain name → name = callee := by
  rw [Call.ofSource, h]
  cases hb : Builtin.ofName? callee with
  | none => exact ⟨.plain callee, rfl, fun name hn => (Callee.plain.inj hn).symm⟩
  | some b =>
      cases b with
      | log => exact ⟨Call.log, if_pos (hl hb), fun name hn => by cases hn⟩
      | math property => exact ⟨.member "Math" property, rfl, fun name hn => by cases hn⟩

theorem exists_invoke_iff {callee raw : String} {args : List Argument} :
    (∃ target, Transpile.invoke callee raw = .ok (.call ⟨target, args⟩)) ↔
      arguments raw = .ok args ∧ (Builtin.ofName? callee = some .log → args.length = 1) ∧ callee ∉ reservedWords ∧
        ∀ name, .variable name ∈ args → name ∉ reservedWords := by
  constructor
  · rintro ⟨target, h⟩
    obtain ⟨c, he, hc, hfree⟩ := Transpile.invoke_eq_ok h
    cases he
    obtain ⟨hargs, hcallee⟩ := Call.ofSource_eq_ok hc
    refine ⟨hargs, ?_, ?_, fun name hm => hfree name (mem_names_of_mem_args hm)⟩
    · intro hb
      rw [Call.ofSource, hargs, hb] at hc
      by_contra hl
      simp [Except.bind, hl] at hc
    · intro hr
      have hb := ofName?_of_reserved callee hr
      rw [Call.ofSource, hargs, hb] at hc
      cases hc
      exact hfree callee (.head _) hr
  · rintro ⟨hargs, hl, hcallee, hfree⟩
    obtain ⟨target, hc, hto⟩ := exists_ofSource hargs hl
    refine ⟨target, ?_⟩
    have hplain : ∀ name, target = .plain name → name ∉ reservedWords := by
      intro name hp
      rw [hto name hp]
      exact hcallee
    have hnames : ∀ name ∈ Call.names ⟨target, args⟩, name ∉ reservedWords := Call.names_free hplain hfree
    rw [Transpile.invoke, hc]
    simp only [Except.bind, Transpile.checkNames_of_free hnames, Except.map]

theorem exists_forall₂ {α β : Type} {R : α → β → Prop} {xs : List α} (h : ∀ x ∈ xs, ∃ y, R x y) :
    ∃ ys, List.Forall₂ R xs ys := by
  induction xs with
  | nil => exact ⟨[], .nil⟩
  | cons x xs ih =>
      obtain ⟨⟨y, hy⟩, hxs⟩ := List.forall_mem_cons.1 h
      obtain ⟨ys, hys⟩ := ih hxs
      exact ⟨y :: ys, .cons hy hys⟩

section

variable {callee raw : String} {before after : List (List Token)} {group : List Token} {t : Token} {closed : Bool}

theorem not_objection (hd : Nesting.Divided (tokenize raw) (before ++ group :: after)) (ht : t ∈ group)
    (hk : t.kind = .quoted .double closed) (hm : t.text ≠ "-") {d : Draft}
    (h : Transpile.invoke callee raw = .ok d) : ¬Objection callee before group after t := by
  obtain ⟨⟨target, args⟩, rfl, _⟩ := Transpile.invoke_eq_ok h
  obtain ⟨hargs, hlog, hcallee, hfree⟩ := exists_invoke_iff.1 ⟨target, h⟩
  have hall := (arguments_eq_ok_iff (ne_nil_of_mem_group hd (by simp) ht) hd).1 hargs
  obtain ⟨hgroups, _⟩ := exists_of_forall₂ hall
  obtain ⟨arg, _, hs⟩ := hgroups group (by simp)
  obtain ⟨hgroup, hclosed, s, hdec, _⟩ := hs.eq_of_quoted ht hk hm
  have hothers {g : List Token} (hg : g ∈ before ++ after) : g ∈ before ++ group :: after := by
    rcases List.mem_append.1 hg with hg | hg
    · exact List.mem_append_left _ hg
    · exact List.mem_append_right _ (List.mem_cons_of_mem group hg)
  intro ho
  cases ho with
  | company hc => exact hc hgroup
  | unclosed hc => exact hc (hclosed ▸ hk)
  | escape he => cases he.symm.trans hdec
  | other hg hc =>
      obtain ⟨arg, _, hs⟩ := hgroups _ (hothers hg)
      exact hc arg hs
  | arity hb hne =>
      have hl := hall.length_eq
      rw [hlog hb, List.length_append, List.length_cons] at hl
      apply hne
      apply List.eq_nil_of_length_eq_zero
      rw [List.length_append]
      omega
  | callee hr => exact hcallee hr
  | @name u hg hv hr =>
      obtain ⟨arg, ha, hs⟩ := hgroups _ (hothers hg)
      have he := hs.ofTokens_eq
      rw [Argument.ofTokens, if_pos hv] at he
      cases he
      exact hfree _ ha hr

theorem exists_literal_of_not_objection (hd : Nesting.Divided (tokenize raw) (before ++ group :: after))
    (ho : ¬Objection callee before group after t) :
    ∃ s target front back, Quoted.decode? t.text = some s ∧
      Transpile.invoke callee raw = .ok (.call ⟨target, front ++ .literal ⟨.text s, quote s⟩ :: back⟩) ∧
      List.Forall₂ Argument.SpelledBy before front ∧ List.Forall₂ Argument.SpelledBy after back := by
  have hgroup : group = [t] := by
    by_contra h
    exact ho (.company h)
  have hk : t.kind = .quoted .double true := by
    by_contra h
    exact ho (.unclosed h)
  obtain ⟨s, hs⟩ : ∃ s, Quoted.decode? t.text = some s := by
    rw [← Option.ne_none_iff_exists']
    exact fun h => ho (.escape h)
  have hspelled : ∀ g ∈ before ++ after, ∃ arg, Argument.SpelledBy g arg := by
    intro g hg
    by_contra h
    exact ho (.other hg (not_exists.1 h))
  obtain ⟨front, hfront⟩ := exists_forall₂ fun g hg => hspelled g (List.mem_append_left _ hg)
  obtain ⟨back, hback⟩ := exists_forall₂ fun g hg => hspelled g (List.mem_append_right _ hg)
  have hall : List.Forall₂ Argument.SpelledBy (before ++ group :: after)
      (front ++ .literal ⟨.text s, quote s⟩ :: back) := by
    subst hgroup
    exact List.rel_append hfront (.cons (.string hk hs) hback)
  have hn := ne_nil_of_mem_group hd (by simp) (show t ∈ group by rw [hgroup]; exact .head _)
  have hok : ∃ target, Transpile.invoke callee raw =
      .ok (.call ⟨target, front ++ .literal ⟨.text s, quote s⟩ :: back⟩) := by
    apply exists_invoke_iff.2
    refine ⟨(arguments_eq_ok_iff hn hd).2 hall, ?_, fun h => ho (.callee h), ?_⟩
    · intro hb
      have hnil : before ++ after = [] := by
        by_contra h
        exact ho (.arity hb h)
      obtain ⟨rfl, rfl⟩ := List.append_eq_nil_iff.1 hnil
      rw [← hall.length_eq]
      rfl
    · intro x hx hr
      obtain ⟨g, hg, hs⟩ := (exists_of_forall₂ hall).2 _ hx
      cases hs with
      | @«variable» u hv =>
          apply ho
          apply Objection.name _ hv hr
          rcases List.mem_append.1 hg with hg | hg
          · exact List.mem_append_left _ hg
          rcases List.mem_cons.1 hg with he | hg
          · rw [hgroup] at he
            cases he
            cases hv.symm.trans hk
          · exact List.mem_append_right _ hg
  obtain ⟨target, htarget⟩ := hok
  exact ⟨s, target, front, back, hs, htarget, hfront, hback⟩

theorem lower_string (hd : Nesting.Divided (tokenize raw) (before ++ group :: after)) (ht : t ∈ group)
    (hk : t.kind = .quoted .double closed) (hm : t.text ≠ "-") (place : Excerpt) (mode : Mode) :
    ((∃ d, Transpile.lower mode (.call place callee raw) = .ok (none, [d]) ∧ d.span = place.span) ↔
      Objection callee before group after t) ∧
    (¬Objection callee before group after t →
      ∃ s target front back, Quoted.decode? t.text = some s ∧
        Transpile.lower mode (.call place callee raw) =
          .ok (some (.call ⟨target, front ++ .literal ⟨.text s, quote s⟩ :: back⟩), []) ∧
        List.Forall₂ Argument.SpelledBy before front ∧ List.Forall₂ Argument.SpelledBy after back) := by
  have hliteral (ho : ¬Objection callee before group after t) := exists_literal_of_not_objection hd ho
  rw [Transpile.lower]
  refine ⟨⟨?_, ?_⟩, ?_⟩
  · rintro ⟨d, hl, _⟩
    by_contra ho
    obtain ⟨s, target, front, back, _, hinvoke, _⟩ := hliteral ho
    rw [hinvoke] at hl
    cases hl
  · intro ho
    cases hinvoke : Transpile.invoke callee raw with
    | ok d => exact absurd ho (not_objection hd ht hk hm hinvoke)
    | error refusal => exact ⟨.ofRefusal place refusal, rfl, rfl⟩
  · intro ho
    obtain ⟨s, target, front, back, hs, hinvoke, hfront, hback⟩ := hliteral ho
    exact ⟨s, target, front, back, hs, by rw [hinvoke]; rfl, hfront, hback⟩

end

end Script

namespace SyntaxTree

inductive Assigns (n r : Node) : Prop
  | intro {e left : Node} {rest : List Node} (hk : n.kind = "expression_statement") (he : n.namedChildren = e :: rest)
      (ha : e.kind = "assignment_expression") (hl : e.child? "left" = some left) (hv : left.kind = "variable_name")
      (hr : e.child? "right" = some r)

inductive Passes (source : String) (n : Node) : String → String → Prop
  | echo (hk : n.kind = "echo_statement") :
      Passes source n "echo" (Text.commaList ((n.namedChildren.filter (·.kind != "comment")).map (argumentText source)))
  | print {e a : Node} {rest more : List Node} (hk : n.kind = "expression_statement") (he : n.namedChildren = e :: rest)
      (hp : e.kind = "print_intrinsic") (ha : e.namedChildren = a :: more) :
      Passes source n "print" (argumentText source a)
  | call {e f args : Node} {rest : List Node} (hk : n.kind = "expression_statement") (he : n.namedChildren = e :: rest)
      (hc : e.kind = "function_call_expression") (hf : e.child? "function" = some f)
      (hn : ["name", "qualified_name"].contains f.kind) (ha : e.child? "arguments" = some args) :
      Passes source n (f.text source) (Text.stripPair '(' ')' (args.text source))

theorem item?_expressionStatement {n : Node} (source : String) (hk : n.kind = "expression_statement") :
    item? source n = some (Item.ofExcept (expressionStatement source n)) := by
  obtain ⟨kind, named, field, span, children⟩ := n
  cases hk
  rfl

theorem item?_echo {n : Node} (source : String) (hk : n.kind = "echo_statement") :
    item? source n = some (echo source n) := by
  obtain ⟨kind, named, field, span, children⟩ := n
  cases hk
  rfl

section

variable {source : String} {n r : Node}

theorem scalar_of_isInterpolated (hk : r.kind = "encapsed_string") (hi : isInterpolated r) :
    scalar source r = .error (unsupported source "interpolated string" r) := by
  simp [scalar, hk, hi]

theorem item?_of_assigns (h : Assigns n r) {f : Fault} (hs : scalar source r = .error f) :
    item? source n = some (.fault f) := by
  obtain @⟨e, left, rest, hk, he, ha, hl, hv, hr⟩ := h
  have hleft : (e.child? "left").filter (·.kind == "variable_name") = some left := by
    rw [hl, Option.filter_some, if_pos (beq_iff_eq.2 hv)]
  rw [item?_expressionStatement source hk, expressionStatement, he]
  simp [ha, assignment, hleft, hr, hs, Except.map, Item.ofExcept]

theorem item?_of_passes {callee raw : String} (h : Passes source n callee raw) :
    item? source n = some (.call (n.excerpt source) callee raw) := by
  cases h with
  | echo hn => rw [item?_echo source hn, echo]
  | print hn he hp ha =>
      rw [item?_expressionStatement source hn, expressionStatement, he]
      simp [hp, print, ha, Item.ofExcept]
  | @call e f args rest hn he hc hf hname ha =>
      have hcallee : (e.child? "function").filter (fun f => ["name", "qualified_name"].contains f.kind) = some f := by
        rw [hf, Option.filter_some, if_pos hname]
      rw [item?_expressionStatement source hn, expressionStatement, he]
      simp only [hc, call, hcallee, ha, Item.ofExcept]

end

inductive StatementOf (source : String) : List Node → Node → Prop
  | here {ns : List Node} {n : Node} (h : n ∈ ns) (hn : n.named) : StatementOf source ns n
  | body {ns : List Node} {f b n : Node} {place : Excerpt} {name text : String} {params : List String}
      {items : List Item} (h : f ∈ ns) (hn : f.named) (hk : f.kind = "function_definition")
      (hf : item? source f = some (.function place name params text items)) (hb : f.child? "body" = some b)
      (hs : StatementOf source b.children n) : StatementOf source ns n

section

variable {source : String}

theorem mem_items {ns : List Node} {n : Node} {item : Item} (h : n ∈ ns) (hn : n.named)
    (hi : item? source n = some item) : item ∈ items source ns := by
  induction ns with
  | nil => cases h
  | cons m ns ih =>
      rw [items]
      rcases List.mem_cons.1 h with rfl | h
      · apply List.mem_append_left
        rw [if_pos hn, hi]
        exact .head _
      · exact List.mem_append_right _ (ih h)

theorem bodyItems_of_find {ns : List Node} {b : Node} (h : ns.find? (fun c => c.field == some "body") = some b) :
    bodyItems source ns = items source b.children := by
  induction ns with
  | nil => cases h
  | cons m ns ih =>
      obtain ⟨kind, named, field, span, children⟩ := m
      rw [bodyItems]
      by_cases hf : field = some "body"
      · simp only [List.find?, Node.field, hf, beq_self_eq_true, Option.some.injEq] at h
        rw [if_pos hf, ← h]
        rfl
      · simp only [List.find?, Node.field, beq_eq_false_iff_ne.2 hf] at h
        rw [if_neg hf]
        exact ih h

theorem function_cases (n : Node) (body : List Item) :
    (∃ f, function source n body = .error f) ∨
      ∃ place name params text, function source n body = .ok (.function place name params text body) := by
  unfold function
  split
  · exact .inl ⟨_, rfl⟩
  · exact .inl ⟨_, rfl⟩
  · rename_i id block _ _
    cases n.child? "parameters" with
    | none => exact .inr ⟨_, _, _, _, rfl⟩
    | some list =>
        cases hp : parameters source list.namedChildren with
        | error f => exact .inl ⟨f, by simp [hp, Except.map]⟩
        | ok params =>
            refine .inr ⟨n.excerpt source, id.text source, params, Text.stripPair '{' '}' (block.text source), ?_⟩
            simp only [hp, Except.map]

theorem items_of_function {f b : Node} {place : Excerpt} {name text : String} {params : List String} {its : List Item}
    (hk : f.kind = "function_definition") (hf : item? source f = some (.function place name params text its))
    (hb : f.child? "body" = some b) : its = items source b.children := by
  rw [← bodyItems_of_find hb]
  obtain ⟨kind, named, field, span, children⟩ := f
  cases hk
  simp only [item?, Option.some.injEq] at hf
  rcases function_cases (.mk "function_definition" named field span children) (bodyItems source children) with
    ⟨fault, he⟩ | ⟨_, _, _, _, he⟩
  · rw [he] at hf
    cases hf
  · rw [he] at hf
    cases hf
    rfl

theorem within_of_statementOf {ns : List Node} {n : Node} {item : Item} (h : StatementOf source ns n)
    (hi : item? source n = some item) : Item.Within (items source ns) item := by
  induction h with
  | here hm hn => exact .here (mem_items hm hn hi)
  | body hm hn hk hf hb _ ih =>
      have hits := items_of_function hk hf hb
      subst hits
      exact .inside (mem_items hm hn hf) (ih hi)

end

/-- An interpolated string that is assigned is reported and has no literal. One that stands anywhere in an argument list
is reported if and only if there is an objection to the list, and else it is a literal. What is reported of a statement
at any depth is reported by the run, unless a function around it is refused. -/
theorem lower_interpolated {source : String} {n r : Node} (hk : r.kind = "encapsed_string")
    (hi : isInterpolated r) (mode : Mode) :
    (Assigns n r → ∃ item, item? source n = some item ∧ Transpile.lower mode item =
      .ok (none, [⟨.construct, r.span, "unsupported construct `interpolated string`: " ++ r.text source⟩])) ∧
    (∀ callee raw place, Passes source n callee raw → Text.StandsAt raw place (r.text source) →
      (r.text source).toList.head? = some '"' → (place.start = 0 ∨ ∃ t ∈ tokenize raw, t.start = place.start) →
      ∃ item t before group after, item? source n = some item ∧
        Nesting.Divided (tokenize raw) (before ++ group :: after) ∧ t ∈ group ∧ t.start = place.start ∧
        (∀ body, (r.text source).toList = '"' :: body ++ ['"'] → Enclosable '"' body →
          t.text = r.text source ∧ t.kind = .quoted .double true ∧ (raw = r.text source → tokenize raw = [t])) ∧
        ((∃ d, Transpile.lower mode item = .ok (none, [d]) ∧ d.span = n.span) ↔
          Objection callee before group after t) ∧
        (¬Objection callee before group after t →
          ∃ s target args more, Quoted.decode? t.text = some s ∧
            Transpile.lower mode item =
              .ok (some (.call ⟨target, args ++ .literal ⟨.text s, quote s⟩ :: more⟩), []) ∧
            List.Forall₂ Argument.SpelledBy before args ∧ List.Forall₂ Argument.SpelledBy after more)) ∧
    ∀ root out item, StatementOf source root.children n → item? source n = some item →
      (Source.parsed source root).pulled = scan source root → transpile mode (.parsed source root) = .ok out →
      (∃ draft ds, Transpile.lower mode item = .ok (draft, ds) ∧ ∀ d ∈ ds, d ∈ out.diagnostics) ∨
        ∃ place name params text body refusal, Item.Within (scan source root) (.function place name params text body) ∧
          Item.Within body item ∧ .ofRefusal place refusal ∈ out.diagnostics := by
  refine ⟨?_, ?_, ?_⟩
  · intro ha
    refine ⟨_, item?_of_assigns ha (scalar_of_isInterpolated hk hi), ?_⟩
    rw [Transpile.lower]
    cases mode <;> rfl
  · intro callee raw place hp hs hq hplace
    obtain ⟨t, hmem, hstart⟩ := hplace.elim (fun hzero => exists_first hs hzero hq) id
    obtain ⟨closed, hkind, hminus, hwhole⟩ := string_of_mem hmem hs hstart hq
    obtain ⟨group, hgroup, ht⟩ := exists_group (Nesting.divided_groups _) hmem (by simp [hkind])
    obtain ⟨before, after, hgroups⟩ := List.append_of_mem hgroup
    have hd := Nesting.divided_iff.2 hgroups
    refine ⟨_, t, before, group, after, item?_of_passes hp, hd, ht, hstart, ?_, ?_⟩
    · intro body hb he
      obtain ⟨htext, rfl⟩ := hwhole body hb he
      refine ⟨htext, hkind, fun hraw => ?_⟩
      have hone := Quoted.tokenize_enclose .double he
      rw [Quote.enclose, Quote.char, ← hb, String.ofList_toList, ← hraw] at hone
      rw [hone, List.mem_singleton] at hmem
      rw [hone, hmem]
    · exact lower_string hd ht hkind hminus (n.excerpt source) mode
  · intro root out item hs hitem hpulled hout
    cases hl : Transpile.lowerAll mode (Source.parsed source root).pulled with
    | error f =>
        rw [transpile_of_lowerAll_error hl] at hout
        cases hout
    | ok lowered =>
        cases (transpile_of_lowerAll hl).symm.trans hout
        rw [hpulled] at hl
        exact Transpile.reported_of_within hl (within_of_statementOf hs hitem)

def greeting (field : Option String) (start : Nat) : Node :=
  .mk "encapsed_string" true field ⟨start, start + 7⟩
    [.mk "string_content" true none ⟨start + 1, start + 4⟩ [], .mk "variable_name" true none ⟨start + 4, start + 6⟩ []]

def greetingAssignment : Node :=
  .mk "expression_statement" true none ⟨0, 13⟩
    [.mk "assignment_expression" true none ⟨0, 12⟩
      [.mk "variable_name" true (some "left") ⟨0, 2⟩ [], greeting (some "right") 5]]

def greetingCall : Node :=
  .mk "expression_statement" true none ⟨0, 15⟩
    [.mk "function_call_expression" true none ⟨0, 14⟩
      [.mk "name" true (some "function") ⟨0, 1⟩ [],
        .mk "arguments" true (some "arguments") ⟨1, 14⟩ [.mk "variable_name" true none ⟨2, 4⟩ [], greeting none 6]]]

theorem lower_interpolated_greeting :
    isInterpolated (greeting (some "right") 5) ∧ isInterpolated (greeting none 6) ∧
    Assigns greetingAssignment (greeting (some "right") 5) ∧
    Passes "f($y, \"hi $x\");" greetingCall "f" "$y, \"hi $x\"" ∧
    (∃ item, item? "$s = \"hi $x\";" greetingAssignment = some item ∧ Transpile.lower .lenient item =
      .ok (none, [⟨.construct, ⟨5, 12⟩, "unsupported construct `interpolated string`: \"hi $x\""⟩])) ∧
    ∃ item, item? "f($y, \"hi $x\");" greetingCall = some item ∧
      ∃ c, Transpile.lower .lenient item = .ok (some (.call c), []) ∧
        .literal ⟨.text "hi $x", quote "hi $x"⟩ ∈ c.args := by
  have ha : Assigns greetingAssignment (greeting (some "right") 5) := .intro rfl rfl rfl rfl rfl rfl
  have hassigned : ∃ item, item? "$s = \"hi $x\";" greetingAssignment = some item ∧ _ :=
    (lower_interpolated rfl rfl .lenient).1 ha
  have hp : Passes "f($y, \"hi $x\");" greetingCall "f" "$y, \"hi $x\"" := by
    have h : Passes "f($y, \"hi $x\");" greetingCall _ _ := .call rfl rfl rfl rfl rfl rfl
    have hf : Text.slice "f($y, \"hi $x\");" ⟨0, 1⟩ = "f" := by decide
    have hargs : Text.stripPair '(' ')' (Text.slice "f($y, \"hi $x\");" ⟨1, 14⟩) = "$y, \"hi $x\"" := by decide
    rw [← hf, ← hargs]
    exact h
  have htext : (greeting none 6).text "f($y, \"hi $x\");" = "\"hi $x\"" := by decide
  have hs : Text.StandsAt "$y, \"hi $x\"" ⟨4, 11⟩ ((greeting none 6).text "f($y, \"hi $x\");") := by
    rw [htext]
    exact ⟨"$y, ", "", rfl, rfl⟩
  have hq : ((greeting none 6).text "f($y, \"hi $x\");").toList.head? = some '"' := by
    rw [htext]
    rfl
  have htokens : tokenize "$y, \"hi $x\"" = [⟨"", 0, .variable, "$y"⟩, ⟨"", 2, .comma, ","⟩,
      ⟨" ", 4, .quoted .double true, "\"hi $x\""⟩] := by cbv
  obtain ⟨item, t, before, group, after, hitem, hd, ht, _, hwhole, _, hliteral⟩ :=
    (lower_interpolated rfl rfl .lenient).2.1 _ _ _ hp hs hq
      (.inr ⟨_, by rw [htokens]; exact .tail _ (.tail _ (.head _)), rfl⟩)
  obtain ⟨htext', hkind, _⟩ := hwhole "hi $x".toList (by rw [htext]; decide) (enclosable_escapes "hi $x".toList)
  have hinvoke : Transpile.invoke "f" "$y, \"hi $x\"" =
      .ok (.call ⟨.plain "f", [.variable "y", .literal ⟨.text "hi $x", quote "hi $x"⟩]⟩) := by cbv
  have ho := not_objection hd ht hkind (by rw [htext', htext]; decide) hinvoke
  obtain ⟨s, target, args, more, hdecode, hlower, _⟩ := hliteral ho
  have hvalue : Quoted.decode? "\"hi $x\"" = some "hi $x" := decode?_quote "hi $x"
  rw [htext', htext, hvalue] at hdecode
  cases hdecode
  exact ⟨rfl, rfl, ha, hp, hassigned, item, hitem, _, hlower, by simp⟩

def greetingEcho : Node := .mk "echo_statement" true none ⟨0, 13⟩ [greeting none 5]

theorem transpile_interpolated_echo :
    ∃ out, transpile .lenient (.parsed "echo \"hi $x\";" (.mk "program" true none ⟨0, 13⟩ [greetingEcho])) = .ok out ∧
      isInterpolated (greeting none 5) ∧ out.diagnostics = [] ∧ out.text = "console.log(\"hi $x\");\n" := by
  have h : transpile .lenient (.parsed "echo \"hi $x\";" (.mk "program" true none ⟨0, 13⟩ [greetingEcho])) = .ok
      { program := ⟨⟨0, 22⟩, [.expression ⟨0, 21⟩ (.call ⟨0, 20⟩
          (.member ⟨0, 11⟩ (.identifier ⟨⟨0, 7⟩, "console"⟩) ⟨⟨8, 11⟩, "log"⟩ false false)
          [.literal ⟨12, 19⟩ ⟨.text "hi $x", "\"hi $x\""⟩] false)]⟩
        text := "console.log(\"hi $x\");\n"
        diagnostics := []
        summary := ⟨0, 1, 0, 0⟩ } := by cbv
  exact ⟨_, h, rfl, rfl, rfl⟩

end SyntaxTree

end PhpTranspiler
