import PhpTranspiler.Proofs.Layout
import PhpTranspiler.Proofs.Remainder
import PhpTranspiler.Transpile

namespace PhpTranspiler

open Script

mutual

/-- `node` is what an item becomes, of its kind and with its name, and `ds` is what is reported about the
items in its body. -/
inductive Becomes : Item → Statement → List Diagnostic → Prop
  | assignment {place : Excerpt} {name : String} {value : Scalar} {span : Span} {d : Declarator}
      (hn : d.id.name = name) : Becomes (.assignment place name value) (.declaration span [d]) []
  | call {place : Excerpt} {callee args : String} {span : Span} {e : Expression} :
      Becomes (.call place callee args) (.expression span e) []
  | function {place : Excerpt} {name text : String} {params : List String} {items : List Item}
      {span block : Span} {id : Identifier} {flags : FunctionFlags} {ps : List Identifier}
      {body : List Statement} {ds : List Diagnostic} (hn : id.name = name)
      (hp : ps.map Identifier.name = params) (hb : Settled items body ds) :
      Becomes (.function place name params text items) (.function span id flags ps block body) ds

/-- Each item of a block has either one node or one diagnostic with its span, and there are no others.
Nodes and diagnostics come in the order of the items. -/
inductive Settled : List Item → List Statement → List Diagnostic → Prop
  | nil : Settled [] [] []
  | emitted {item : Item} {items : List Item} {node : Statement} {nodes : List Statement}
      {inner ds : List Diagnostic} (he : Becomes item node inner) (hs : Settled items nodes ds) :
      Settled (item :: items) (node :: nodes) (inner ++ ds)
  | reported {item : Item} {items : List Item} {nodes : List Statement} {d : Diagnostic}
      {ds : List Diagnostic} (hd : d.span = item.span) (hs : Settled items nodes ds) :
      Settled (item :: items) nodes (d :: ds)

end

mutual

def Item.preorder : Item → List Item
  | .function place name params text items =>
    .function place name params text items :: Item.preorderAll items
  | .assignment place name value => [.assignment place name value]
  | .call place callee args => [.call place callee args]
  | .fault f => [.fault f]

def Item.preorderAll : List Item → List Item
  | [] => []
  | item :: items => item.preorder ++ Item.preorderAll items

end

theorem Item.head_preorder (item : Item) : ∃ rest, item.preorder = item :: rest := by
  cases item <;> exact ⟨_, rfl⟩

mutual

theorem Becomes.sublist {item : Item} {node : Statement} {ds : List Diagnostic} :
    Becomes item node ds → (ds.map Diagnostic.span).Sublist (item.preorder.map Item.span)
  | .assignment _ => by simp
  | .call => by simp
  | .function _ _ hb => by
      rw [Item.preorder, List.map_cons]
      exact hb.sublist.cons _

theorem Settled.sublist {items : List Item} {nodes : List Statement} {ds : List Diagnostic} :
    Settled items nodes ds → (ds.map Diagnostic.span).Sublist ((Item.preorderAll items).map Item.span)
  | .nil => by simp
  | .emitted he hs => by
      rw [Item.preorderAll, List.map_append, List.map_append]
      exact he.sublist.append hs.sublist
  | @Settled.reported item _ _ _ _ hd hs => by
      obtain ⟨rest, hr⟩ := item.head_preorder
      rw [Item.preorderAll, hr, List.map_cons, List.cons_append, List.map_cons, List.map_append, hd]
      exact (hs.sublist.trans (List.sublist_append_right _ _)).cons_cons _

end

namespace Transpile

theorem settle_declare (place : Excerpt) (name : String) (value : Scalar) :
    (∃ l, settle place (declare name value) = (some (.variable name l), [])) ∨
      ∃ d, settle place (declare name value) = (none, [d]) ∧ d.span = place.span := by
  unfold declare
  cases checkName name with
  | error r => exact .inr ⟨_, rfl, rfl⟩
  | ok _ =>
      cases Literal.ofScalar value with
      | error r => exact .inr ⟨.ofRefusal place r, by simp [Except.bind, Except.map, settle], rfl⟩
      | ok l => exact .inl ⟨l, by simp [Except.bind, Except.map, settle]⟩

theorem settle_invoke (place : Excerpt) (callee args : String) :
    (∃ c, settle place (invoke callee args) = (some (.call c), [])) ∨
      ∃ d, settle place (invoke callee args) = (none, [d]) ∧ d.span = place.span := by
  unfold invoke
  cases hc : Call.ofSource callee args with
  | error r => exact .inr ⟨_, rfl, rfl⟩
  | ok c =>
      cases hn : checkNames c.names with
      | error r => exact .inr ⟨.ofRefusal place r, by simp [Except.bind, Except.map, hn, settle], rfl⟩
      | ok _ => exact .inl ⟨c, by simp [Except.bind, Except.map, hn, settle]⟩

mutual

theorem lower_lenient : (item : Item) →
    (∃ d ds, lower .lenient item = .ok (some d, ds) ∧ ∀ start, Becomes item (d.node start) ds) ∨
      ∃ d, lower .lenient item = .ok (none, [d]) ∧ d.span = item.span
  | .assignment place name value => by
      rw [lower]
      rcases settle_declare place name value with ⟨l, h⟩ | ⟨d, h, hd⟩
      · exact .inl ⟨_, _, by rw [h], fun start => by rw [Draft.node]; exact .assignment rfl⟩
      · exact .inr ⟨d, by rw [h], hd⟩
  | .call place callee args => by
      rw [lower]
      rcases settle_invoke place callee args with ⟨c, h⟩ | ⟨d, h, hd⟩
      · exact .inl ⟨_, _, by rw [h], fun start => by rw [Draft.node]; exact .call⟩
      · exact .inr ⟨d, by rw [h], hd⟩
  | .function place name params text items => by
      rw [lower]
      cases checkNames (name :: params) with
      | error r => exact .inr ⟨_, rfl, rfl⟩
      | ok _ =>
          obtain ⟨drafts, ds, h, hs⟩ := lowerAll_lenient items
          refine .inl ⟨.function name params drafts, ds, ?_, ?_⟩
          · simp [h, Except.map]
          · intro start
            rw [Draft.node]
            exact .function rfl (Draft.params_name _ _) (hs _)
  | .fault f => by
      rw [lower]
      exact .inr ⟨.ofFault f, rfl, rfl⟩

theorem lowerAll_lenient : (items : List Item) →
    ∃ drafts ds, lowerAll .lenient items = .ok (drafts, ds) ∧
      ∀ start, Settled items (Draft.nodes start drafts) ds
  | [] => ⟨[], [], rfl, fun start => by rw [Draft.nodes]; exact .nil⟩
  | item :: items => by
      obtain ⟨drafts, ds, h, hs⟩ := lowerAll_lenient items
      rcases lower_lenient item with ⟨d, inner, hi, he⟩ | ⟨d, hi, hd⟩
      · refine ⟨d :: drafts, inner ++ ds, ?_, ?_⟩
        · simp [lowerAll, hi, h, Except.bind, Except.map]
        · intro start
          rw [Draft.nodes]
          exact .emitted (he start) (hs _)
      · refine ⟨drafts, d :: ds, ?_, ?_⟩
        · simp [lowerAll, hi, h, Except.bind, Except.map]
        · exact fun start => .reported hd (hs start)

end

theorem lowerAll_cons {mode : Mode} {item : Item} {items : List Item} {drafts : List Draft}
    {ds : List Diagnostic} (h : lowerAll mode (item :: items) = .ok (drafts, ds)) :
    ∃ draft inner more rest, lower mode item = .ok (draft, inner) ∧
      lowerAll mode items = .ok (more, rest) ∧ drafts = draft.toList ++ more ∧ ds = inner ++ rest := by
  rw [lowerAll] at h
  cases hi : lower mode item with
  | error f => simp [hi, Except.bind] at h
  | ok lowered =>
      cases hs : lowerAll mode items with
      | error f => simp [hi, hs, Except.bind, Except.map] at h
      | ok others =>
          simp only [hi, hs, Except.bind, Except.map, Except.ok.injEq, Prod.mk.injEq] at h
          exact ⟨_, _, _, _, rfl, rfl, h.1.symm, h.2.symm⟩

theorem lower_function_eq_ok {mode : Mode} {place : Excerpt} {name text : String} {params : List String}
    {items : List Item} {draft : Option Draft} {ds : List Diagnostic}
    (h : lower mode (.function place name params text items) = .ok (draft, ds)) :
    (∃ r, checkNames (name :: params) = .error r ∧ draft = none ∧ ds = [.ofRefusal place r]) ∨
      ∃ body, checkNames (name :: params) = .ok () ∧ lowerAll mode items = .ok (body, ds) ∧
        draft = some (.function name params body) := by
  rw [lower] at h
  cases hc : checkNames (name :: params) with
  | error r =>
      simp only [hc, Except.ok.injEq, Prod.mk.injEq] at h
      exact .inl ⟨r, rfl, h.1.symm, h.2.symm⟩
  | ok _ =>
      cases hs : lowerAll mode items with
      | error f => simp [hc, hs, Except.map] at h
      | ok lowered =>
          simp only [hc, hs, Except.map, Except.ok.injEq, Prod.mk.injEq] at h
          obtain ⟨rfl, rfl⟩ := h
          exact .inr ⟨lowered.1, rfl, rfl, rfl⟩

theorem lower_fault_eq_ok {mode : Mode} {f : Fault} {draft : Option Draft} {ds : List Diagnostic}
    (h : lower mode (.fault f) = .ok (draft, ds)) : report mode f = .ok ds ∧ draft = none := by
  rw [lower] at h
  cases hr : report mode f with
  | error fault => simp [hr, Except.map] at h
  | ok reported =>
      simp only [hr, Except.map, Except.ok.injEq, Prod.mk.injEq] at h
      exact ⟨congrArg Except.ok h.2, h.1.symm⟩

theorem lowerAll_of_lower {mode : Mode} {item : Item} {items : List Item} {draft : Option Draft}
    {drafts : List Draft} {inner ds : List Diagnostic} (hi : lower mode item = .ok (draft, inner))
    (hs : lowerAll mode items = .ok (drafts, ds)) :
    lowerAll mode (item :: items) = .ok (draft.toList ++ drafts, inner ++ ds) := by
  simp [lowerAll, hi, hs, Except.bind, Except.map]

theorem length_le_of_lowerAll {mode : Mode} {items : List Item} {drafts : List Draft}
    {ds : List Diagnostic} (h : lowerAll mode items = .ok (drafts, ds)) : drafts.length ≤ items.length := by
  induction items generalizing drafts ds with
  | nil =>
      cases h
      exact Nat.le_refl _
  | cons item items ih =>
      obtain ⟨draft, inner, more, rest, _, hs, rfl, _⟩ := lowerAll_cons h
      have hle := ih hs
      cases draft <;> simp <;> omega

end Transpile

namespace Summary

instance : Add Summary where
  add s t := ⟨s.assignments + t.assignments, s.calls + t.calls, s.functions + t.functions,
    s.skipped + t.skipped⟩

def ofBody (body : List Statement) (skipped : Nat) : Summary :=
  let kinds := body.map Statement.kind
  ⟨kinds.count "VariableDeclaration", kinds.count "ExpressionStatement",
    kinds.count "FunctionDeclaration", skipped⟩

theorem add_ofBody_nil (s : Summary) : s + ofBody [] 0 = s := rfl

theorem zero_add (s : Summary) : zero + s = s := by
  show Summary.mk _ _ _ _ = _
  simp [zero]

theorem count_none (s : Summary) (body : List Statement) (n : Nat) :
    s.count none + ofBody body n = s + ofBody body (n + 1) := by
  show Summary.mk _ _ _ _ = Summary.mk _ _ _ _
  simp [count, ofBody]
  omega

theorem count_some (s : Summary) (start : Nat) (d : Draft) (body : List Statement) (n : Nat) :
    s.count (some d) + ofBody body n = s + ofBody (d.node start :: body) n := by
  show Summary.mk _ _ _ _ = Summary.mk _ _ _ _
  cases d <;> simp [count, ofBody, Draft.node, Statement.kind] <;> omega

end Summary

namespace Run

def pulled (ink : Nat) : Nat → List Item → List Item
  | _, [] => []
  | consumed, item :: items =>
    if consumed < ink then item :: pulled ink (max item.span.stop consumed) items else []

theorem pulled_append (ink consumed : Nat) (items : List Item) :
    ∃ rest, items = pulled ink consumed items ++ rest ∧
      (rest = [] ∨ ink ≤ Item.reach consumed (pulled ink consumed items)) := by
  induction items generalizing consumed with
  | nil => exact ⟨[], rfl, .inl rfl⟩
  | cons item items ih =>
      by_cases hc : consumed < ink
      · obtain ⟨rest, hr, hink⟩ := ih (max item.span.stop consumed)
        rw [pulled, if_pos hc]
        exact ⟨rest, congrArg (item :: ·) hr, hink⟩
      · rw [pulled, if_neg hc]
        exact ⟨item :: items, rfl, .inr (Nat.le_of_not_lt hc)⟩

theorem take_of_lower {mode : Mode} {item : Item} {draft : Option Draft} {ds : List Diagnostic} (r : Run)
    (h : Transpile.lower mode item = .ok (draft, ds)) :
    r.take mode item = .ok
      { page := draft.elim r.page r.page.append
        diagnostics := r.diagnostics ++ ds
        summary := r.summary.count draft
        consumed := max item.span.stop r.consumed } := by
  simp [take, h, Except.map]

theorem through_eq_foldlM (mode : Mode) (ink : Nat) (r : Run) (items : List Item) :
    r.through mode ink items = (pulled ink r.consumed items).foldlM (take mode) r := by
  induction items generalizing r with
  | nil => rfl
  | cons item items ih =>
      by_cases hc : r.consumed < ink
      · rw [through, pulled, if_pos hc, if_pos hc, List.foldlM_cons]
        cases h : Transpile.lower mode item with
        | error f => simp [take, h, Except.map, Except.bind, bind]
        | ok lowered =>
            rw [take_of_lower r h]
            exact ih _
      · rw [through, pulled, if_neg hc, if_neg hc]
        rfl

theorem foldlM_take {mode : Mode} {items : List Item} {drafts : List Draft} {ds : List Diagnostic}
    (h : Transpile.lowerAll mode items = .ok (drafts, ds)) (r : Run) :
    items.foldlM (take mode) r = .ok
      { page := drafts.foldl Page.append r.page
        diagnostics := r.diagnostics ++ ds
        summary := r.summary +
          .ofBody (Draft.nodes r.page.cursor drafts) (items.length - drafts.length)
        consumed := Item.reach r.consumed items } := by
  induction items generalizing r drafts ds with
  | nil =>
      cases h
      simp [Draft.nodes, Summary.add_ofBody_nil, Item.reach, pure, Except.pure]
  | cons item items ih =>
      obtain ⟨draft, inner, more, rest, hi, hs, rfl, rfl⟩ := Transpile.lowerAll_cons h
      have hle := Transpile.length_le_of_lowerAll hs
      rw [List.foldlM_cons, take_of_lower r hi]
      refine (ih hs _).trans ?_
      cases draft with
      | none =>
          have hn : items.length + 1 - more.length = items.length - more.length + 1 := by omega
          simp [Item.reach, Summary.count_none, hn]
      | some d =>
          simp [Item.reach, Summary.count_some _ r.page.cursor, Draft.nodes, Page.cursor_append]

end Run

def Source.pulled (source : Source) : List Item :=
  Run.pulled (Text.inkEnd source.text) 0 source.items

theorem transpile_of_lowerAll {mode : Mode} {source : Source} {drafts : List Draft}
    {ds : List Diagnostic} (h : Transpile.lowerAll mode source.pulled = .ok (drafts, ds)) :
    transpile mode source = .ok
      { program := ⟨⟨0, (Draft.lines drafts).utf8ByteSize⟩, Draft.nodes 0 drafts⟩
        text := Draft.lines drafts
        diagnostics := ds
        summary := .ofBody (Draft.nodes 0 drafts) (source.pulled.length - drafts.length) } := by
  have hf : (Run.pulled (Text.inkEnd source.text) Run.start.consumed source.items).foldlM
      (Run.take mode) Run.start = _ := Run.foldlM_take h Run.start
  rw [transpile, Run.through_eq_foldlM, hf, Page.foldl_append]
  simp [Except.map, Run.start, Page.empty, Page.cursor, Page.program, Summary.zero_add]

/-- Nothing of a source is dropped in silence. In lenient mode a run succeeds, and each item that it takes
has a node or a diagnostic. A source that is read from its tokens is taken whole, but for a chunk of blanks
at its end. -/
theorem transpile_settles (source : Source) :
    ∃ out, transpile .lenient source = .ok out ∧
      Settled source.pulled out.program.body out.diagnostics ∧
      (out.diagnostics.map Diagnostic.span).Sublist
        ((Item.preorderAll source.pulled).map Item.span) ∧
      out.program.body.length ≤ source.pulled.length ∧
      out.summary = .ofBody out.program.body (source.pulled.length - out.program.body.length) ∧
      ∃ rest, source.items = source.pulled ++ rest ∧
        (rest = [] ∨ Text.inkEnd source.text ≤ Item.reach 0 source.pulled) ∧
        ∀ text, source = .plain text → rest = [] ∨ ∃ place, rest = [.fault (.unrecognized place)] ∧
          ∀ c ∈ place.text.toList, Text.isBlank c := by
  obtain ⟨drafts, ds, h, hs⟩ := Transpile.lowerAll_lenient source.pulled
  obtain ⟨rest, hr, hink⟩ := Run.pulled_append (Text.inkEnd source.text) 0 source.items
  have hlen : (Draft.nodes 0 drafts).length = drafts.length := by
    simpa using congrArg List.length (Draft.map_render_nodes 0 drafts)
  refine ⟨_, transpile_of_lowerAll h, hs 0, (hs 0).sublist, ?_, ?_, rest, hr, hink, ?_⟩
  · rw [hlen]
    exact Transpile.length_le_of_lowerAll h
  · rw [hlen]
  · rintro text rfl
    rcases hink with hn | hink
    · exact .inl hn
    · exact Pattern.scan_remainder hr hink

end PhpTranspiler
