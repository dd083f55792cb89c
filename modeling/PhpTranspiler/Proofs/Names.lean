import PhpTranspiler.Proofs.Origin
import PhpTranspiler.Proofs.Strictness

namespace PhpTranspiler

open Script

namespace Script

inductive Expression.CalledBy (Q : String → Prop) : Expression → Prop
  | plain {id : Identifier} (h : Q id.name) : CalledBy Q (.identifier id)
  | log {span object property : Span} :
      CalledBy Q (.member span (.identifier ⟨object, "console"⟩) ⟨property, "log"⟩ false false)
  | math {span object property : Span} {entry name : String} (h : (entry, .math name) ∈ builtins) :
      CalledBy Q (.member span (.identifier ⟨object, "Math"⟩) ⟨property, name⟩ false false)

inductive Expression.PassedBy (P : String → Prop) : Expression → Prop
  | variable {id : Identifier} (h : P id.name) : PassedBy P (.identifier id)
  | literal {span : Span} {l : Literal} : PassedBy P (.literal span l)

/-- A statement whose plain callees have `Q`, and whose other names have `P`, at every depth. Only the names of built-in
functions need not. -/
inductive Statement.NamedBy (P Q : String → Prop) : Statement → Prop
  | declaration {span place init : Span} {id : Identifier} {l : Literal} (h : P id.name) :
      NamedBy P Q (.declaration span [⟨place, id, some (.literal init l)⟩])
  | call {span place : Span} {callee : Expression} {args : List Expression} (hc : callee.CalledBy Q)
      (ha : ∀ a ∈ args, a.PassedBy P) : NamedBy P Q (.expression span (.call place callee args false))
  | function {span block : Span} {id : Identifier} {flags : FunctionFlags} {params : List Identifier}
      {body : List Statement} (hn : P id.name) (hp : ∀ p ∈ params, P p.name) (hb : ∀ s ∈ body, NamedBy P Q s) :
      NamedBy P Q (.function span id flags params block body)

def Statement.body : Statement → List Statement
  | .function _ _ _ _ _ body => body
  | .declaration _ _ | .expression _ _ => []

end Script

namespace Item

def body : Item → List Item
  | .function _ _ _ _ items => items
  | .assignment _ _ _ | .call _ _ _ | .fault _ => []

inductive NamedBy (P Q : String → Prop) : Item → Prop
  | assignment {place : Excerpt} {name : String} {value : Scalar} (h : P name) :
      NamedBy P Q (.assignment place name value)
  | call {place : Excerpt} {callee args : String} (hc : Q callee)
      (ha : ∀ as, arguments args = .ok as → ∀ name, .variable name ∈ as → P name) :
      NamedBy P Q (.call place callee args)
  | function {place : Excerpt} {name text : String} {params : List String} {items : List Item} (hn : P name)
      (hp : ∀ p ∈ params, P p) (hs : ∀ item ∈ items, NamedBy P Q item) :
      NamedBy P Q (.function place name params text items)
  | fault (f : Fault) : NamedBy P Q (.fault f)

inductive Needs : Item → String → Prop
  | assignment {place : Excerpt} {name : String} {value : Scalar} : Needs (.assignment place name value) name
  | callee {place : Excerpt} {callee args : String} (h : Builtin.ofName? callee = none) :
      Needs (.call place callee args) callee
  | argument {place : Excerpt} {callee args name : String} {group : List Token}
      (hg : group ∈ Nesting.groups 0 (Lexer.tokenize args)) (h : Argument.ofTokens group = .ok (.variable name)) :
      Needs (.call place callee args) name
  | function {place : Excerpt} {name text : String} {params : List String} {items : List Item} :
      Needs (.function place name params text items) name
  | parameter {place : Excerpt} {name text p : String} {params : List String} {items : List Item} (h : p ∈ params) :
      Needs (.function place name params text items) p

/-- A call that is reported for its arguments, before its names are looked at. -/
inductive Misfit : Item → Diagnostic → Prop
  | call {place : Excerpt} {callee args : String} {r : Refusal} (h : Call.ofSource callee args = .error r) :
      Misfit (.call place callee args) (.ofRefusal place r)

end Item

/-- Each item has a node or a diagnostic, as in `Settled`. No name that an item with a node needs is reserved, and an
item that needs a reserved word is reported for it, unless its arguments are at fault. The same holds of the bodies of
functions that have a node. -/
inductive Vetted : List Item → List Statement → List Diagnostic → Prop
  | nil : Vetted [] [] []
  | emitted {item : Item} {items : List Item} {node : Statement} {nodes : List Statement}
      {inner ds : List Diagnostic} (he : Becomes item node inner) (hn : ∀ name, item.Needs name → name ∉ reservedWords)
      (hb : Vetted item.body node.body inner) (hs : Vetted items nodes ds) :
      Vetted (item :: items) (node :: nodes) (inner ++ ds)
  | reported {item : Item} {items : List Item} {nodes : List Statement} {d : Diagnostic} {ds : List Diagnostic}
      (hd : d.span = item.span)
      (hk : ∀ name, item.Needs name → name ∈ reservedWords → d.kind = .construct ∨ item.Misfit d)
      (hs : Vetted items nodes ds) : Vetted (item :: items) nodes (d :: ds)

namespace Script

theorem mem_of_mapM_ok {α β ε : Type} {f : α → Except ε β} {xs : List α} {ys : List β} (h : xs.mapM f = .ok ys)
    {x : α} (hx : x ∈ xs) {y : β} (hf : f x = .ok y) : y ∈ ys := by
  obtain ⟨w, hw, he⟩ := (exists_of_forall₂ (mapM_eq_ok_iff.1 h)).1 x hx
  cases he.symm.trans hf
  exact hw

theorem mem_of_arguments {raw : String} {args : List Argument} (h : arguments raw = .ok args) {group : List Token}
    (hg : group ∈ Nesting.groups 0 (Lexer.tokenize raw)) {a : Argument} (ha : Argument.ofTokens group = .ok a) :
    a ∈ args := by
  simp only [arguments] at h
  split at h
  · rename_i he
    rw [List.isEmpty_iff.1 he, Nesting.groups, List.mem_singleton] at hg
    rw [hg] at ha
    cases ha
  · exact mem_of_mapM_ok h hg ha

theorem mem_names_of_mem_args {c : Call} {name : String} (h : .variable name ∈ c.args) : name ∈ c.names :=
  List.mem_append_right _ (List.mem_filterMap.2 ⟨_, h, rfl⟩)

section

variable {P Q : String → Prop}

theorem calledBy_of_ofSource {name raw : String} {c : Call} (h : Call.ofSource name raw = .ok c)
    (hq : c.callee = .plain name → Q name) (start : Nat) : (Draft.callee start c.callee).CalledBy Q := by
  rcases (Call.ofSource_eq_ok h).2 with ⟨hc, _⟩ | ⟨entry, property, hm, hc⟩ | ⟨hc, _⟩
  · rw [hc]
    exact .log
  · rw [hc]
    exact .math hm
  · rw [hc]
    exact .plain (hq hc)

theorem passedBy_arguments {args : List Argument} (h : ∀ name, .variable name ∈ args → P name) (start : Nat) :
    ∀ e ∈ Draft.arguments start args, e.PassedBy P := by
  induction args generalizing start with
  | nil => simp [Draft.arguments]
  | cons a args ih =>
      rw [Draft.arguments]
      refine List.forall_mem_cons.2 ⟨?_, ih (fun name hm => h name (List.mem_cons_of_mem a hm)) _⟩
      cases a with
      | «variable» name => exact .variable (h name (.head _))
      | literal l => exact .literal

theorem namedBy_params {names : List String} (h : ∀ name ∈ names, P name) (start : Nat) :
    ∀ p ∈ Draft.params start names, P p.name := by
  intro p hp
  apply h
  rw [← Draft.params_name start names]
  exact List.mem_map_of_mem hp

theorem namedBy_nodes {ds : List Draft} (h : ∀ d ∈ ds, ∀ start, (d.node start).NamedBy P Q) (start : Nat) :
    ∀ s ∈ Draft.nodes start ds, s.NamedBy P Q := by
  induction ds generalizing start with
  | nil => simp [Draft.nodes]
  | cons d ds ih =>
      rw [Draft.nodes]
      exact List.forall_mem_cons.2 ⟨h d (.head _) start, ih (fun e he => h e (List.mem_cons_of_mem d he)) _⟩

end

end Script

namespace Item

variable {P Q : String → Prop}

mutual

theorem namedBy_of_forall (hp : ∀ name, P name) (hq : ∀ name, Q name) : (item : Item) → item.NamedBy P Q
  | .assignment _ name _ => .assignment (hp name)
  | .call _ callee _ => .call (hq callee) fun _ _ name _ => hp name
  | .function _ name _ _ items => .function (hp name) (fun p _ => hp p) (namedByAll_of_forall hp hq items)
  | .fault f => .fault f

theorem namedByAll_of_forall (hp : ∀ name, P name) (hq : ∀ name, Q name) :
    (items : List Item) → ∀ item ∈ items, item.NamedBy P Q
  | [] => by simp
  | item :: items => List.forall_mem_cons.2 ⟨namedBy_of_forall hp hq item, namedByAll_of_forall hp hq items⟩

end

end Item

namespace Transpile

section

variable {P Q : String → Prop}

theorem invoke_named {callee args : String} {d : Draft} (h : invoke callee args = .ok d) (hq : Q callee)
    (ha : ∀ as, arguments args = .ok as → ∀ name, .variable name ∈ as → P name) (start : Nat) :
    (d.node start).NamedBy (fun name => P name ∧ name ∉ reservedWords) fun name => Q name ∧ name ∉ reservedWords := by
  obtain ⟨c, rfl, hc, hfree⟩ := invoke_eq_ok h
  rw [Draft.node]
  refine .call (calledBy_of_ofSource hc ?_ start) (passedBy_arguments ?_ _)
  · intro he
    exact ⟨hq, hfree callee (by simp [Call.names, he])⟩
  · intro name hm
    exact ⟨ha c.args (Call.ofSource_eq_ok hc).1 name hm, hfree name (mem_names_of_mem_args hm)⟩

theorem lower_named {mode : Mode} {item : Item} (hi : item.NamedBy P Q) :
    ∀ {d ds}, lower mode item = .ok (some d, ds) → ∀ start, (d.node start).NamedBy
      (fun name => P name ∧ name ∉ reservedWords) fun name => Q name ∧ name ∉ reservedWords := by
  induction hi with
  | @assignment place name value hn =>
      intro d ds h start
      rw [lower, Except.ok.injEq] at h
      obtain ⟨l, rfl, _, hfree⟩ := declare_eq_ok (settle_eq_some h)
      rw [Draft.node]
      exact .declaration ⟨hn, hfree⟩
  | @call place callee args hc ha =>
      intro d ds h start
      rw [lower, Except.ok.injEq] at h
      exact invoke_named (settle_eq_some h) hc ha start
  | @function place name text params items hn hp _ ih =>
      intro d ds h start
      rcases lower_function_eq_ok h with ⟨_, _, hd, _⟩ | ⟨body, hc, hs, hd⟩
      · cases hd
      · cases hd
        have hfree := free_of_checkNames hc
        have hparams : ∀ p ∈ params, P p ∧ p ∉ reservedWords :=
          fun p hm => ⟨hp p hm, hfree p (List.mem_cons_of_mem name hm)⟩
        rw [Draft.node]
        refine .function ⟨hn, hfree name (.head _)⟩ (namedBy_params hparams _) (namedBy_nodes ?_ _)
        intro d hd start
        obtain ⟨item, hm, inner, hl⟩ := mem_of_lowerAll hs hd
        exact ih item hm hl start
  | fault f =>
      intro d ds h
      cases (lower_fault_eq_ok h).2

end

theorem checkNames_of_reserved {names : List String} {name : String} (hm : name ∈ names) (hr : name ∈ reservedWords) :
    ∃ word, checkNames names = .error (.reserved word) := by
  induction names with
  | nil => cases hm
  | cons first names ih =>
      rw [checkNames, checkName]
      by_cases hf : first ∈ reservedWords
      · exact ⟨first, by rw [if_pos hf]; rfl⟩
      · rw [if_neg hf]
        rcases List.mem_cons.1 hm with rfl | hm
        · exact absurd hr hf
        · exact ih hm

theorem invoke_of_reserved {callee args : String} {c : Call} (hc : Call.ofSource callee args = .ok c) {name : String}
    (hm : name ∈ c.names) (hr : name ∈ reservedWords) : ∃ word, invoke callee args = .error (.reserved word) := by
  obtain ⟨word, hw⟩ := checkNames_of_reserved hm hr
  refine ⟨word, ?_⟩
  rw [invoke, hc]
  simp only [Except.bind, hw, Except.map]

theorem mem_names_of_needs {place : Excerpt} {callee args name : String} {c : Call}
    (hc : Call.ofSource callee args = .ok c) (hn : (Item.call place callee args).Needs name) : name ∈ c.names := by
  cases hn with
  | callee hb =>
      rw [Call.ofSource, (Call.ofSource_eq_ok hc).1, hb] at hc
      have he : ⟨.plain callee, c.args⟩ = c := Except.ok.inj hc
      rw [← he]
      exact .head _
  | argument hg ha => exact mem_names_of_mem_args (mem_of_arguments (Call.ofSource_eq_ok hc).1 hg ha)

theorem lower_of_needs {item : Item} {name : String} (hn : item.Needs name) (hr : name ∈ reservedWords) (mode : Mode) :
    ∃ d, lower mode item = .ok (none, [d]) ∧ (d.kind = .construct ∨ item.Misfit d) := by
  cases item with
  | assignment place name value =>
      cases hn
      refine ⟨.ofRefusal place (.reserved name), ?_, .inl rfl⟩
      rw [lower, declare, checkName, if_pos hr]
      rfl
  | call place callee args =>
      rw [lower]
      cases hc : Call.ofSource callee args with
      | error r =>
          refine ⟨.ofRefusal place r, ?_, .inr (.call hc)⟩
          rw [invoke, hc]
          rfl
      | ok c =>
          obtain ⟨word, hw⟩ := invoke_of_reserved hc (mem_names_of_needs hc hn) hr
          exact ⟨.ofRefusal place (.reserved word), by rw [hw]; rfl, .inl rfl⟩
  | function place first params text items =>
      have hm : name ∈ first :: params := by
        cases hn with
        | function => exact .head _
        | parameter h => exact List.mem_cons_of_mem first h
      obtain ⟨word, hw⟩ := checkNames_of_reserved hm hr
      exact ⟨.ofRefusal place (.reserved word), by rw [lower, hw], .inl rfl⟩
  | fault f => cases hn

theorem lowerAll_lenient_of_ok {mode : Mode} {items : List Item} {drafts : List Draft} {ds : List Diagnostic}
    (h : lowerAll mode items = .ok (drafts, ds)) : lowerAll .lenient items = .ok (drafts, ds) := by
  cases mode with
  | lenient => exact h
  | strict =>
      obtain ⟨drafts', ds', hl, _⟩ := lowerAll_lenient items
      have hcut := lowerAll_cut items hl
      rw [h] at hcut
      cases hcut with
      | whole => exact hl

mutual

theorem lower_vetted : (item : Item) → ∀ {d ds}, lower .lenient item = .ok (some d, ds) →
    ∀ start, Vetted item.body (d.node start).body ds
  | .assignment place name value, d, ds, h, start => by
      rw [lower, Except.ok.injEq] at h
      have hd := settle_eq_some h
      rw [hd] at h
      cases h
      obtain ⟨l, rfl, _⟩ := declare_eq_ok hd
      rw [Draft.node]
      exact .nil
  | .call place callee args, d, ds, h, start => by
      rw [lower, Except.ok.injEq] at h
      have hd := settle_eq_some h
      rw [hd] at h
      cases h
      obtain ⟨c, rfl, _⟩ := invoke_eq_ok hd
      rw [Draft.node]
      exact .nil
  | .function place name params text items, d, ds, h, start => by
      rcases lower_function_eq_ok h with ⟨_, _, hd, _⟩ | ⟨body, hc, hs, hd⟩
      · cases hd
      · cases hd
        rw [Draft.node]
        exact lowerAll_vetted items hs _
  | .fault f, d, ds, h, start => by
      cases (lower_fault_eq_ok h).2

theorem lowerAll_vetted : (items : List Item) → ∀ {drafts ds}, lowerAll .lenient items = .ok (drafts, ds) →
    ∀ start, Vetted items (Draft.nodes start drafts) ds
  | [], drafts, ds, h, start => by
      cases h
      rw [Draft.nodes]
      exact .nil
  | item :: items, drafts, ds, h, start => by
      obtain ⟨draft, inner, more, rest, hi, hs, rfl, rfl⟩ := lowerAll_cons h
      rcases lower_lenient item with ⟨d, _, hl, he⟩ | ⟨d, hl, hd⟩
      · cases hl.symm.trans hi
        rw [Option.toList_some, List.singleton_append, Draft.nodes]
        refine .emitted (he start) ?_ (lower_vetted item hl start) (lowerAll_vetted items hs _)
        intro name hn hr
        obtain ⟨_, hnone, _⟩ := lower_of_needs hn hr .lenient
        cases hl.symm.trans hnone
      · cases hl.symm.trans hi
        refine .reported hd ?_ (lowerAll_vetted items hs start)
        intro name hn hr
        obtain ⟨_, hnone, hk⟩ := lower_of_needs hn hr .lenient
        cases hl.symm.trans hnone
        exact hk

end

end Transpile

/-- No name in the result is a reserved word but those of built-in functions. A statement that needs one, at any depth
that a run comes to, has no node and is reported for it at its own place, if its arguments are not at fault before. -/
theorem transpile_names_free {mode : Mode} {source : Source} {out : Transpiled} (h : transpile mode source = .ok out) :
    (∀ s ∈ out.program.body, s.NamedBy (· ∉ reservedWords) (· ∉ reservedWords)) ∧
      Vetted source.pulled out.program.body out.diagnostics := by
  cases hl : Transpile.lowerAll mode source.pulled with
  | error f =>
      rw [transpile_of_lowerAll_error hl] at h
      cases h
  | ok lowered =>
      obtain ⟨drafts, ds⟩ := lowered
      cases (transpile_of_lowerAll hl).symm.trans h
      refine ⟨?_, Transpile.lowerAll_vetted source.pulled (Transpile.lowerAll_lenient_of_ok hl) 0⟩
      apply namedBy_nodes
      intro d hd start
      obtain ⟨item, _, inner, hi⟩ := Transpile.mem_of_lowerAll hl hd
      have hall : item.NamedBy (fun _ => True) (fun _ => True) :=
        item.namedBy_of_forall (fun _ => trivial) fun _ => trivial
      simpa using Transpile.lower_named hall hi start

def revealer : Node :=
  .mk "function_definition" true none ⟨0, 28⟩
    [.mk "name" true (some "name") ⟨9, 10⟩ [],
      .mk "compound_statement" true (some "body") ⟨13, 28⟩
        [.mk "echo_statement" true none ⟨15, 26⟩ [.mk "variable_name" true none ⟨20, 25⟩ []]]]

def revealerTree : Node :=
  .mk "program" true none ⟨0, 41⟩
    [revealer, .mk "expression_statement" true none ⟨29, 41⟩
      [.mk "assignment_expression" true none ⟨29, 40⟩
        [.mk "variable_name" true (some "left") ⟨29, 33⟩ [], .mk "boolean" true (some "right") ⟨36, 40⟩ []]]]

def revealerSource : Source := .parsed "function f() \x7b echo $this; \x7d $let = true;" revealerTree

theorem transpile_names_free_revealer :
    ∃ out, transpile .lenient revealerSource = .ok out ∧
      (∀ s ∈ out.program.body, s.NamedBy (· ∉ reservedWords) (· ∉ reservedWords)) ∧
      Vetted revealerSource.pulled out.program.body out.diagnostics ∧
      out.program.body.map Statement.kind = ["FunctionDeclaration"] ∧
      out.diagnostics.map Diagnostic.kind = [.construct, .construct] ∧
      out.diagnostics.map Diagnostic.span = [⟨15, 26⟩, ⟨29, 41⟩] := by
  have hp : revealerSource.pulled = [.function ⟨⟨0, 28⟩, "function f() \x7b echo $this; \x7d"⟩ "f" [] "echo $this;"
      [.call ⟨⟨15, 26⟩, "echo $this;"⟩ "echo" "$this"],
      .assignment ⟨⟨29, 41⟩, "$let = true;"⟩ "let" (.bool true)] := rfl
  have ha : arguments "$this" = .ok [.variable "this"] := by cbv
  have hl : Transpile.lowerAll .lenient revealerSource.pulled = .ok ([.function "f" [] []],
      [.ofRefusal ⟨⟨15, 26⟩, "echo $this;"⟩ (.reserved "this"),
        .ofRefusal ⟨⟨29, 41⟩, "$let = true;"⟩ (.reserved "let")]) := by
    rw [hp]
    have hc : Transpile.invoke "echo" "$this" = .error (.reserved "this") := by
      rw [Transpile.invoke, Call.ofSource, ha]
      rfl
    simp only [Transpile.lowerAll, Transpile.lower, hc]
    rfl
  obtain ⟨hfree, hvetted⟩ := transpile_names_free (transpile_of_lowerAll hl)
  exact ⟨_, transpile_of_lowerAll hl, hfree, hvetted, by simp [Draft.nodes, Draft.node, Statement.kind], rfl, rfl⟩

end PhpTranspiler
