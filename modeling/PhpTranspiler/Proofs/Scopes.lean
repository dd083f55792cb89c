import PhpTranspiler.Proofs.Interpolation

namespace PhpTranspiler

open Script

namespace Script

def Builtin.member : Builtin → String × String
  | .log => ("console", "log")
  | .math property => ("Math", property)

def Expression.member? : Expression → Option (String × String)
  | .member _ (.identifier object) property false _ => some (object.name, property.name)
  | _ => none

namespace Statement

def bound : Statement → List String
  | .declaration _ declarators => declarators.map (·.id.name)
  | .expression _ _ => []
  | .function _ id _ _ _ _ => [id.name]

/-- The names that are bound by the statements of a block, wherever in the block they stand. -/
def scope (block : List Statement) : List String := block.flatMap bound

mutual

/-- The member that each call in a statement calls, and all the names that are in scope at the call. `outer` are the
names in scope at the statement. -/
def calls (outer : List String) : Statement → List (Option (String × String) × List String)
  | .expression _ (.call _ callee _ _) => [(callee.member?, outer)]
  | .function _ _ _ params _ body => callsAll (outer ++ params.map (·.name) ++ scope body) body
  | .declaration _ _ | .expression _ _ => []

def callsAll (outer : List String) : List Statement → List (Option (String × String) × List String)
  | [] => []
  | s :: ss => s.calls outer ++ callsAll outer ss

end

end Statement

end Script

namespace Item

/-- Whether an item has a form in the program. Of the names, it asks that they are not reserved, and nothing else. -/
def isKept : Item → Bool
  | .assignment _ name value => name ∉ reservedWords && (Literal.ofScalar value).isOk
  | .call _ callee args => (Transpile.invoke callee args).isOk
  | .function _ name params _ _ => (name :: params).all (· ∉ reservedWords)
  | .fault _ => false

def bound : Item → List String
  | .assignment _ name _ | .function _ name _ _ _ => [name]
  | .call _ _ _ | .fault _ => []

def params : Item → List String
  | .function _ _ params _ _ => params
  | .assignment _ _ _ | .call _ _ _ | .fault _ => []

def scope (items : List Item) : List String := (items.filter isKept).flatMap bound

mutual

def calls (outer : List String) : Item → List (Option (String × String) × List String)
  | .call place callee args =>
    if (Item.call place callee args).isKept then [((Builtin.ofName? callee).map Builtin.member, outer)] else []
  | .function place name params text items =>
    if (Item.function place name params text items).isKept then callsAll (outer ++ params ++ scope items) items else []
  | .assignment _ _ _ | .fault _ => []

def callsAll (outer : List String) : List Item → List (Option (String × String) × List String)
  | [] => []
  | item :: items => item.calls outer ++ callsAll outer items

end

end Item

namespace Script

theorem member?_callee {name raw : String} {c : Call} (h : Call.ofSource name raw = .ok c) (start : Nat) :
    (Draft.callee start c.callee).member? = (Builtin.ofName? name).map Builtin.member := by
  unfold Call.ofSource at h
  cases ha : arguments raw with
  | error r => simp [ha, Except.bind] at h
  | ok args =>
      simp only [ha, Except.bind] at h
      split at h
      · rename_i hb
        split at h
        · cases h
          rw [hb]
          rfl
        · cases h
      · rename_i hb
        cases h
        rw [hb]
        rfl
      · rename_i hb
        cases h
        rw [hb]
        rfl

end Script

namespace Transpile

theorem isSome_settle (place : Excerpt) (r : Except Refusal Draft) : (settle place r).1.isSome = r.isOk := by
  cases r <;> rfl

theorem isOk_declare (name : String) (value : Scalar) :
    (declare name value).isOk = (decide (name ∉ reservedWords) && (Literal.ofScalar value).isOk) := by
  rw [declare, checkName]
  by_cases hr : name ∈ reservedWords
  · simp [hr, Except.bind, Except.isOk, Except.toBool]
  · cases hl : Literal.ofScalar value <;> simp [hr, Except.bind, Except.map, Except.isOk, Except.toBool]

theorem lower_bound {mode : Mode} {item : Item} {draft : Option Draft} {ds : List Diagnostic}
    (h : lower mode item = .ok (draft, ds)) :
    draft.isSome = item.isKept ∧ ∀ d, draft = some d → ∀ start, (d.node start).bound = item.bound := by
  cases item with
  | assignment place name value =>
      rw [lower, Except.ok.injEq] at h
      have hs := isSome_settle place (declare name value)
      rw [h, isOk_declare] at hs
      refine ⟨hs, ?_⟩
      rintro d rfl start
      obtain ⟨l, rfl, _⟩ := declare_eq_ok (settle_eq_some h)
      rw [Draft.node]
      rfl
  | call place callee args =>
      rw [lower, Except.ok.injEq] at h
      have hs := isSome_settle place (invoke callee args)
      rw [h] at hs
      refine ⟨hs, ?_⟩
      rintro d rfl start
      obtain ⟨c, rfl, _⟩ := invoke_eq_ok (settle_eq_some h)
      rw [Draft.node]
      rfl
  | function place name params text items =>
      rcases lower_function_eq_ok h with ⟨r, hc, rfl, _⟩ | ⟨body, hc, _, rfl⟩
      · refine ⟨?_, by simp⟩
        by_contra hk
        rw [Option.isSome_none, eq_comm, Bool.not_eq_false, Item.isKept, List.all_eq_true] at hk
        cases hc.symm.trans (checkNames_of_free fun p hm => of_decide_eq_true (hk p hm))
      · refine ⟨?_, ?_⟩
        · symm
          rw [Option.isSome_some, Item.isKept, List.all_eq_true]
          exact fun p hm => decide_eq_true (free_of_checkNames hc p hm)
        · rintro d hd start
          cases hd
          rw [Draft.node]
          rfl
  | fault f =>
      obtain ⟨_, rfl⟩ := lower_fault_eq_ok h
      exact ⟨rfl, by simp⟩

theorem scope_nodes {mode : Mode} {items : List Item} {drafts : List Draft} {ds : List Diagnostic}
    (h : lowerAll mode items = .ok (drafts, ds)) (start : Nat) :
    Statement.scope (Draft.nodes start drafts) = Item.scope items := by
  induction items generalizing drafts ds start with
  | nil =>
      cases h
      rw [Draft.nodes]
      rfl
  | cons item items ih =>
      obtain ⟨draft, inner, more, rest, hi, hs, rfl, _⟩ := lowerAll_cons h
      obtain ⟨hk, hb⟩ := lower_bound hi
      rw [Item.scope]
      cases draft with
      | none =>
          rw [List.filter_cons_of_neg (by simp [← hk])]
          exact ih hs start
      | some d =>
          rw [List.filter_cons_of_pos hk.symm, List.flatMap_cons, ← hb d rfl start]
          rw [Option.toList_some, List.singleton_append, Draft.nodes, Statement.scope, List.flatMap_cons]
          exact congrArg _ (ih hs _)

theorem calls_of_none {mode : Mode} {item : Item} {ds : List Diagnostic} (h : lower mode item = .ok (none, ds))
    (outer : List String) : item.calls outer = [] := by
  have hk : item.isKept = false := (lower_bound h).1.symm
  cases item <;> simp [Item.calls, hk]

mutual

theorem calls_node {mode : Mode} : (item : Item) → ∀ {d ds}, lower mode item = .ok (some d, ds) →
    ∀ start outer, (d.node start).calls outer = item.calls outer
  | .assignment place name value, d, ds, h, start, outer => by
      rw [lower, Except.ok.injEq] at h
      obtain ⟨l, rfl, _⟩ := declare_eq_ok (settle_eq_some h)
      rw [Draft.node, Statement.calls, Item.calls]
  | .call place callee args, d, ds, h, start, outer => by
      have hk : (Item.call place callee args).isKept = true := (lower_bound h).1.symm
      rw [lower, Except.ok.injEq] at h
      obtain ⟨c, rfl, hc, _⟩ := invoke_eq_ok (settle_eq_some h)
      rw [Draft.node, Statement.calls, Item.calls, if_pos hk, member?_callee hc]
  | .function place name params text items, d, ds, h, start, outer => by
      have hk : (Item.function place name params text items).isKept = true := (lower_bound h).1.symm
      rcases lower_function_eq_ok h with ⟨_, _, hd, _⟩ | ⟨body, _, hs, hd⟩
      · cases hd
      · cases hd
        rw [Draft.node, Statement.calls, Item.calls, if_pos hk, Draft.params_name, scope_nodes hs]
        exact callsAll_nodes items hs _ _
  | .fault f, d, ds, h, start, outer => by
      cases (lower_fault_eq_ok h).2

theorem callsAll_nodes {mode : Mode} : (items : List Item) → ∀ {drafts ds}, lowerAll mode items = .ok (drafts, ds) →
    ∀ start outer, Statement.callsAll outer (Draft.nodes start drafts) = Item.callsAll outer items
  | [], drafts, ds, h, start, outer => by
      cases h
      rw [Draft.nodes, Statement.callsAll, Item.callsAll]
  | item :: items, drafts, ds, h, start, outer => by
      obtain ⟨draft, inner, more, rest, hi, hs, rfl, _⟩ := lowerAll_cons h
      rw [Item.callsAll]
      cases draft with
      | none =>
          rw [calls_of_none hi]
          exact callsAll_nodes items hs start outer
      | some d =>
          rw [Option.toList_some, List.singleton_append, Draft.nodes, Statement.callsAll, calls_node item hi]
          exact congrArg _ (callsAll_nodes items hs _ outer)

end

end Transpile

namespace Item

theorem mem_scope {items : List Item} {name : String} (h : name ∈ scope items) :
    ∃ item ∈ items, item.isKept ∧ name ∈ item.bound := by
  obtain ⟨item, hi, hn⟩ := List.mem_flatMap.1 h
  obtain ⟨hm, hk⟩ := List.mem_filter.1 hi
  exact ⟨item, hm, hk, hn⟩

theorem Within.cons {items : List Item} {other : Item} (h : Within items other) (item : Item) :
    Within (item :: items) other := by
  cases h with
  | here hm => exact .here (List.mem_cons_of_mem item hm)
  | inside hm hw => exact .inside (List.mem_cons_of_mem item hm) hw

mutual

theorem within_of_mem_calls {member : Option (String × String)} {names : List String} {name : String} :
    (item : Item) → ∀ {outer}, (member, names) ∈ item.calls outer → name ∈ names → ∀ {items}, item ∈ items →
      name ∈ outer ∨ ∃ other, Within items other ∧ other.isKept ∧ name ∈ other.bound ++ other.params
  | .assignment _ _ _, outer, h, _, _, _ | .fault _, outer, h, _, _, _ => by simp [calls] at h
  | .call _ _ _, outer, h, hn, items, _ => by
      rw [calls] at h
      split at h
      · cases List.mem_singleton.1 h
        exact .inl hn
      · cases h
  | .function place f params text body, outer, h, hn, items, hm => by
      rw [calls] at h
      split at h
      · rename_i hk
        rcases within_of_mem_callsAll body h hn with ho | ⟨other, hw, ho⟩
        · rcases List.mem_append.1 ho with ho | hs
          · rcases List.mem_append.1 ho with ho | hp
            · exact .inl ho
            · exact .inr ⟨_, .here hm, hk, List.mem_append_right _ hp⟩
          · obtain ⟨other, hi, hkept, hb⟩ := mem_scope hs
            exact .inr ⟨other, .inside hm (.here hi), hkept, List.mem_append_left _ hb⟩
        · exact .inr ⟨other, .inside hm hw, ho⟩
      · cases h

theorem within_of_mem_callsAll {member : Option (String × String)} {names : List String} {name : String} :
    (items : List Item) → ∀ {outer}, (member, names) ∈ callsAll outer items → name ∈ names →
      name ∈ outer ∨ ∃ other, Within items other ∧ other.isKept ∧ name ∈ other.bound ++ other.params
  | [], outer, h, _ => by simp [callsAll] at h
  | item :: items, outer, h, hn => by
      rw [callsAll] at h
      rcases List.mem_append.1 h with h | h
      · exact within_of_mem_calls item h hn (.head _)
      · rcases within_of_mem_callsAll items h hn with ho | ⟨other, hw, ho⟩
        · exact .inl ho
        · exact .inr ⟨other, hw.cons item, ho⟩

end

end Item

/-- At each call of the program the names in scope are those that the source binds around the call, and it is the member
of `console` or `Math` that is called which the source names by its builtin, if it names one. The names of these objects
are not reserved, so a statement that binds one of them is kept like any other, and hides it. Nothing but such a
statement does. -/
theorem transpile_scopes {mode : Mode} {source : Source} {out : Transpiled} (h : transpile mode source = .ok out) :
    Statement.callsAll (Statement.scope out.program.body) out.program.body =
        Item.callsAll (Item.scope source.pulled) source.pulled ∧
      (∀ b : Builtin, b.member.1 ∉ reservedWords) ∧
      ∀ member names, (member, names) ∈ Statement.callsAll (Statement.scope out.program.body) out.program.body →
        ∀ name ∈ names, ∃ item, Item.Within source.pulled item ∧ item.isKept ∧ name ∈ item.bound ++ item.params := by
  cases hl : Transpile.lowerAll mode source.pulled with
  | error f =>
      rw [transpile_of_lowerAll_error hl] at h
      cases h
  | ok lowered =>
      obtain ⟨drafts, ds⟩ := lowered
      cases (transpile_of_lowerAll hl).symm.trans h
      have he := Transpile.callsAll_nodes source.pulled hl 0 (Item.scope source.pulled)
      rw [Transpile.scope_nodes hl 0, he]
      refine ⟨rfl, ?_, ?_⟩
      · intro b
        cases b with
        | log => decide
        | math property => exact (by decide : "Math" ∉ reservedWords)
      · intro member names hm name hn
        rcases Item.within_of_mem_callsAll source.pulled hm hn with hs | hw
        · obtain ⟨item, hi, hk, hb⟩ := Item.mem_scope hs
          exact ⟨item, .here hi, hk, List.mem_append_left _ hb⟩
        · exact hw

def hidingTree : Node :=
  .mk "program" true none ⟨0, 42⟩
    [.mk "function_definition" true none ⟨0, 33⟩
      [.mk "name" true (some "name") ⟨9, 10⟩ [],
        .mk "formal_parameters" true (some "parameters") ⟨10, 17⟩
          [.mk "simple_parameter" true none ⟨11, 16⟩ [.mk "variable_name" true (some "name") ⟨11, 16⟩ []]],
        .mk "compound_statement" true (some "body") ⟨18, 33⟩
          [.mk "expression_statement" true none ⟨20, 31⟩
            [.mk "function_call_expression" true none ⟨20, 30⟩
              [.mk "name" true (some "function") ⟨20, 23⟩ [], .mk "arguments" true (some "arguments") ⟨23, 30⟩ []]]]],
      .mk "echo_statement" true none ⟨34, 42⟩ [.mk "variable_name" true none ⟨39, 41⟩ []]]

def hidingSource : Source := .parsed "function f($Math) { abs($Math); } echo $x;" hidingTree

def hidingDrafts : List Draft :=
  [.function "f" ["Math"] [.call ⟨.member "Math" "abs", [.variable "Math"]⟩], .call ⟨Call.log, [.variable "x"]⟩]

theorem transpile_scopes_parameter :
    ∃ out, transpile .strict hidingSource = .ok out ∧
      Statement.callsAll (Statement.scope out.program.body) out.program.body =
        [(some ("Math", "abs"), ["f", "Math"]), (some ("console", "log"), ["f"])] ∧
      ∃ item, Item.Within hidingSource.pulled item ∧ item.isKept ∧ "Math" ∈ item.bound ++ item.params := by
  have hp : hidingSource.pulled = [.function ⟨⟨0, 33⟩, "function f($Math) { abs($Math); }"⟩ "f" ["Math"]
      "abs($Math);" [.call ⟨⟨20, 31⟩, "abs($Math);"⟩ "abs" "$Math"],
      .call ⟨⟨34, 42⟩, "echo $x;"⟩ "echo" "$x"] := rfl
  have hl : Transpile.lowerAll .strict hidingSource.pulled = .ok (hidingDrafts, []) := by
    have hmath : arguments "$Math" = .ok [.variable "Math"] := by cbv
    have hx : arguments "$x" = .ok [.variable "x"] := by cbv
    have habs : Transpile.invoke "abs" "$Math" = .ok (.call ⟨.member "Math" "abs", [.variable "Math"]⟩) := by
      rw [Transpile.invoke, Call.ofSource, hmath]
      rfl
    have hecho : Transpile.invoke "echo" "$x" = .ok (.call ⟨Call.log, [.variable "x"]⟩) := by
      rw [Transpile.invoke, Call.ofSource, hx]
      rfl
    rw [hp]
    simp only [Transpile.lowerAll, Transpile.lower, habs, hecho]
    rfl
  have hout := transpile_of_lowerAll hl
  have hc : Statement.callsAll (Statement.scope (Draft.nodes 0 hidingDrafts)) (Draft.nodes 0 hidingDrafts) =
      [(some ("Math", "abs"), ["f", "Math"]), (some ("console", "log"), ["f"])] := rfl
  have hm : (some ("Math", "abs"), ["f", "Math"]) ∈
      Statement.callsAll (Statement.scope (Draft.nodes 0 hidingDrafts)) (Draft.nodes 0 hidingDrafts) := by
    rw [hc]
    exact .head _
  exact ⟨_, hout, hc, (transpile_scopes hout).2.2 _ _ hm "Math" (.tail _ (.head _))⟩

theorem transpile_hides :
    ∃ out, transpile .lenient (.plain "$console = \"x\";\necho(\"hi\");") = .ok out ∧
      out.text = "var console = \"x\";\nconsole.log(\"hi\");\n" ∧ out.diagnostics = [] ∧
      (some ("console", "log"), ["console"]) ∈ Statement.callsAll (Statement.scope out.program.body) out.program.body := by
  have ht : Lexer.tokenize "$console = \"x\";\necho(\"hi\");" =
      [⟨"", 0, .variable, "$console"⟩, ⟨" ", 9, .equals, "="⟩, ⟨" ", 11, .quoted .double true, "\"x\""⟩,
        ⟨"", 14, .semicolon, ";"⟩] ++ [⟨"\n", 16, .word, "echo"⟩, ⟨"", 20, .opening .round, "("⟩,
        ⟨"", 21, .quoted .double true, "\"hi\""⟩, ⟨"", 25, .closing .round, ")"⟩, ⟨"", 26, .semicolon, ";"⟩] := by
    cbv
  have ha (rest : List Token) : Pattern.items ([⟨"", 0, .variable, "$console"⟩, ⟨" ", 9, .equals, "="⟩,
      ⟨" ", 11, .quoted .double true, "\"x\""⟩, ⟨"", 14, .semicolon, ";"⟩] ++ rest) =
      .assignment ⟨⟨0, 15⟩, "$console = \"x\";"⟩ "console" (.text "x") :: Pattern.items rest :=
    Pattern.items_of_assignment (.assignment rfl rfl rfl rfl) (decode?_quote "x")
  have hc : Pattern.items [⟨"\n", 16, .word, "echo"⟩, ⟨"", 20, .opening .round, "("⟩,
      ⟨"", 21, .quoted .double true, "\"hi\""⟩, ⟨"", 25, .closing .round, ")"⟩, ⟨"", 26, .semicolon, ";"⟩] =
      .call ⟨⟨16, 27⟩, "echo(\"hi\");"⟩ "echo" "\"hi\"" :: Pattern.items [] := by
    have hspell : Pattern.Spells ⟨"\n", 16, .word, "echo"⟩ [⟨"", 20, .opening .round, "("⟩,
        ⟨"", 21, .quoted .double true, "\"hi\""⟩, ⟨"", 25, .closing .round, ")"⟩, ⟨"", 26, .semicolon, ";"⟩]
        ⟨.call "echo" "\"hi\"", 4⟩ :=
      @Pattern.Spells.call _ _ _ _ [_] [] rfl (by decide) rfl (by decide) rfl rfl
    exact Pattern.items_of_call hspell
  have hp : (Source.plain "$console = \"x\";\necho(\"hi\");").pulled =
      [.assignment ⟨⟨0, 15⟩, "$console = \"x\";"⟩ "console" (.text "x"),
        .call ⟨⟨16, 27⟩, "echo(\"hi\");"⟩ "echo" "\"hi\""] := by
    rw [Source.pulled, Source.items, Pattern.scan, ht, ha, hc, Pattern.items]
    rfl
  have hl : Transpile.lowerAll .lenient (Source.plain "$console = \"x\";\necho(\"hi\");").pulled =
      .ok ([.variable "console" ⟨.text "x", quote "x"⟩, .call ⟨Call.log, [.literal ⟨.text "hi", quote "hi"⟩]⟩], []) := by
    have hhi : arguments "\"hi\"" = .ok [.literal ⟨.text "hi", quote "hi"⟩] := by cbv
    have hecho : Transpile.invoke "echo" "\"hi\"" = .ok (.call ⟨Call.log, [.literal ⟨.text "hi", quote "hi"⟩]⟩) := by
      rw [Transpile.invoke, Call.ofSource, hhi]
      rfl
    rw [hp]
    simp only [Transpile.lowerAll, Transpile.lower, hecho]
    rfl
  exact ⟨_, transpile_of_lowerAll hl, by decide, rfl, .head _⟩

end PhpTranspiler
