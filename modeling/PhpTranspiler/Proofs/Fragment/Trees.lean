import PhpTranspiler.Proofs.Fragment.Syntax
import PhpTranspiler.Proofs.Placement

namespace PhpTranspiler

/-- A piece of a source with the nodes that stand in it. -/
inductive Sketch
  | text (s : String)
  | node (kind : String) (named : Bool) (field : Option String) (parts : List Sketch)

namespace Sketch

def rule (kind : String) (parts : List Sketch) : Sketch := .node kind true none parts

def leaf (kind s : String) : Sketch := rule kind [.text s]

def mark (s : String) : Sketch := .node s false none [.text s]

def listed : List Sketch → List Sketch
  | [] => []
  | [p] => [p]
  | p :: q :: ps => p :: mark "," :: .text " " :: listed (q :: ps)

mutual

def source : Sketch → String
  | .text s => s
  | .node _ _ _ parts => sources parts

def sources : List Sketch → String
  | [] => ""
  | p :: ps => p.source ++ sources ps

end

mutual

def nodes (start : Nat) : Sketch → List Node
  | .text _ => []
  | .node kind named field parts =>
    [.mk kind named field ⟨start, start + (sources parts).utf8ByteSize⟩ (nodesAll start parts)]

def nodesAll (start : Nat) : List Sketch → List Node
  | [] => []
  | p :: ps => p.nodes start ++ nodesAll (start + p.source.utf8ByteSize) ps

end

@[simp] theorem sources_nil : sources [] = "" := rfl

@[simp] theorem sources_cons (p : Sketch) (ps : List Sketch) : sources (p :: ps) = p.source ++ sources ps := rfl

@[simp] theorem source_text (s : String) : (text s).source = s := rfl

@[simp] theorem source_node (kind : String) (named : Bool) (field : Option String) (parts : List Sketch) :
    (node kind named field parts).source = sources parts := rfl

@[simp] theorem source_rule (kind : String) (parts : List Sketch) : (rule kind parts).source = sources parts := rfl

@[simp] theorem source_leaf (kind s : String) : (leaf kind s).source = s := by simp [leaf]

@[simp] theorem source_mark (s : String) : (mark s).source = s := by simp [mark]

@[simp] theorem sources_append (ps qs : List Sketch) : sources (ps ++ qs) = sources ps ++ sources qs := by
  induction ps with
  | nil => simp
  | cons p ps ih => simp [ih, String.append_assoc]

theorem sources_listed (ps : List Sketch) : sources (listed ps) = Text.commaList (ps.map source) := by
  fun_induction listed ps with
  | case1 => rfl
  | case2 p => simp [Text.commaList]
  | case3 p q ps ih =>
      rw [sources_cons, sources_cons, sources_cons, ih, ← String.toList_inj]
      simp [Text.commaList]

/-- The nodes that the pieces have in `source`, each where its text stands. -/
inductive Shown (source : String) : List Node → List Sketch → Prop
  | nil : Shown source [] []
  | text {s : String} {ns : List Node} {ps : List Sketch} (h : Shown source ns ps) :
      Shown source ns (.text s :: ps)
  | node {kind : String} {named : Bool} {field : Option String} {span : Span} {children ns : List Node}
      {parts ps : List Sketch} (ht : Text.StandsAt source span (sources parts))
      (hc : Shown source children parts) (hs : Shown source ns ps) :
      Shown source (.mk kind named field span children :: ns) (.node kind named field parts :: ps)

section

variable {page : String}

mutual

theorem shown_nodes {start : Nat} {ns : List Node} {ps : List Sketch} : (p : Sketch) →
    Text.StandsAt page ⟨start, start + p.source.utf8ByteSize⟩ p.source → Shown page ns ps →
      Shown page (p.nodes start ++ ns) (p :: ps)
  | .text _, _, hs => .text hs
  | .node _ _ _ parts, h, hs => .node h (shown_nodesAll parts h) hs

theorem shown_nodesAll {start : Nat} : (ps : List Sketch) →
    Text.StandsAt page ⟨start, start + (sources ps).utf8ByteSize⟩ (sources ps) → Shown page (nodesAll start ps) ps
  | [], _ => .nil
  | p :: ps, h => by
      rw [sources_cons] at h
      apply p.shown_nodes
      · exact h.within "" (sources ps) (by simp) (by simp)
      · exact shown_nodesAll ps (h.within p.source "" (by simp) rfl)

end

variable {ns : List Node} {ps : List Sketch}

theorem Shown.nil_eq (h : Shown page ns []) : ns = [] := by
  cases h
  rfl

theorem Shown.text_cons {s : String} (h : Shown page ns (.text s :: ps)) : Shown page ns ps := by
  cases h
  assumption

theorem Shown.node_cons {kind : String} {named : Bool} {field : Option String} {parts : List Sketch}
    (h : Shown page ns (.node kind named field parts :: ps)) :
    ∃ span children rest, ns = .mk kind named field span children :: rest ∧
      Text.StandsAt page span (sources parts) ∧ Shown page children parts ∧ Shown page rest ps := by
  cases h with
  | node ht hc hs => exact ⟨_, _, _, rfl, ht, hc, hs⟩

theorem Shown.node_singleton {n : Node} {kind : String} {named : Bool} {field : Option String} {parts : List Sketch}
    (h : Shown page [n] [.node kind named field parts]) :
    ∃ span children, n = .mk kind named field span children ∧ Text.StandsAt page span (sources parts) ∧
      Shown page children parts := by
  obtain ⟨span, children, _, he, ht, hc, _⟩ := h.node_cons
  cases he
  exact ⟨span, children, rfl, ht, hc⟩

theorem Shown.append {qs : List Sketch} (h : Shown page ns (ps ++ qs)) :
    ∃ ms os, ns = ms ++ os ∧ Shown page ms ps ∧ Shown page os qs := by
  induction ps generalizing ns with
  | nil => exact ⟨[], ns, rfl, .nil, h⟩
  | cons p ps ih =>
      rw [List.cons_append] at h
      cases p with
      | text _ =>
          obtain ⟨ms, os, rfl, hm, ho⟩ := ih h.text_cons
          exact ⟨ms, os, rfl, .text hm, ho⟩
      | node =>
          obtain ⟨span, children, rest, rfl, ht, hc, hs⟩ := h.node_cons
          obtain ⟨ms, os, rfl, hm, ho⟩ := ih hs
          exact ⟨_ :: ms, os, rfl, .node ht hc hm, ho⟩

end

end Sketch

def Node.Ascending : Nat → List Node → Prop
  | _, [] => True
  | start, n :: ns => start ≤ n.span.start ∧ n.span.start ≤ n.span.stop ∧ Ascending n.span.stop ns

theorem Node.Ascending.of_le {m n : Nat} {ns : List Node} (h : Ascending n ns) (hm : m ≤ n) : Ascending m ns := by
  cases ns with
  | nil => trivial
  | cons n ns => exact ⟨Nat.le_trans hm h.1, h.2⟩

theorem Sketch.ascending_nodesAll (start : Nat) (ps : List Sketch) : Node.Ascending start (nodesAll start ps) := by
  induction ps generalizing start with
  | nil => trivial
  | cons p ps ih =>
      cases p with
      | text _ => exact (ih _).of_le (Nat.le_add_right _ _)
      | node => exact ⟨Nat.le_refl _, Nat.le_add_right _ _, ih _⟩

namespace Fragment

open Sketch

def Name.sketch (field : Option String) (n : Name) : Sketch :=
  .node "variable_name" true field [mark "$", leaf "name" n.text]

def Plain.sketch (field : Option String) (s : Plain) : Sketch :=
  -- There is no node for the content of an empty string.
  .node "encapsed_string" true field
    (mark "\"" :: (if s.text = "" then [] else [leaf "string_content" s.text]) ++ [mark "\""])

def Argument.sketch : Argument → Sketch
  | .variable name => name.sketch none
  | .text value => value.sketch none
  | .integer ⟨.ofNat n, _⟩ => leaf "integer" n.repr
  | .integer ⟨.negSucc n, _⟩ => rule "unary_op_expression" [mark "-", leaf "integer" (n + 1).repr]
  | .bool true => leaf "boolean" "true"
  | .bool false => leaf "boolean" "false"
  | .null => leaf "null" "null"

def Argument.enclosed (arg : Argument) : Sketch := rule "parenthesized_expression" [mark "(", arg.sketch, mark ")"]

def argumentSketch (a : Argument) : Sketch := rule "argument" [a.sketch]

def parameterSketch (p : Name) : Sketch := rule "simple_parameter" [p.sketch (some "name")]

mutual

def Statement.sketch (gap : String) : Statement → Sketch
  | .assignment name value =>
    rule "expression_statement"
      [rule "assignment_expression"
        [name.sketch (some "left"), .text " ", mark "=", .text " ", value.sketch (some "right")],
        mark ";"]
  | .echo arg => rule "echo_statement" [mark "echo", arg.enclosed, mark ";"]
  | .print arg => rule "expression_statement" [rule "print_intrinsic" [mark "print", arg.enclosed], mark ";"]
  | .call c =>
    rule "expression_statement"
      [rule "function_call_expression"
        [.node "name" true (some "function") [.text c.callee.text],
          .node "arguments" true (some "arguments")
            (mark "(" :: listed (c.args.map argumentSketch) ++ [mark ")"])],
        mark ";"]
  | .function name params body =>
    rule "function_definition"
      [mark "function", .text " ", .node "name" true (some "name") [.text name.text],
        .node "formal_parameters" true (some "parameters")
          (mark "(" :: listed (params.map parameterSketch) ++ [mark ")"]),
        .text " ",
        .node "compound_statement" true (some "body")
          (mark "\x7b" :: .text gap :: Statement.sketches gap body ++ [mark "\x7d"])]

def Statement.sketches (gap : String) : List Statement → List Sketch
  | [] => []
  | s :: block => s.sketch gap :: .text gap :: Statement.sketches gap block

end

def Style.sketches (style : Style) (block : List Statement) : List Sketch :=
  (if style.tagged then [leaf "php_tag" "<?php", .text "\n"] else []) ++ Statement.sketches style.gap block

def Style.tree (style : Style) (block : List Statement) : Node :=
  .mk "program" true none ⟨0, (style.source block).utf8ByteSize⟩ (nodesAll 0 (style.sketches block))

example : Style.tree ⟨true, "\n", List.all_eq_true.1 rfl⟩ [.echo .null] =
    .mk "program" true none ⟨0, 18⟩
      [.mk "php_tag" true none ⟨0, 5⟩ [],
        .mk "echo_statement" true none ⟨6, 17⟩
          [.mk "echo" false none ⟨6, 10⟩ [],
            .mk "parenthesized_expression" true none ⟨10, 16⟩
              [.mk "(" false none ⟨10, 11⟩ [], .mk "null" true none ⟨11, 15⟩ [], .mk ")" false none ⟨15, 16⟩ []],
            .mk ";" false none ⟨16, 17⟩ []]] := by rfl

@[simp] theorem Name.source_sketch (field : Option String) (n : Name) : (n.sketch field).source = n.variable := by
  simp [Name.sketch, Name.variable]

@[simp] theorem Plain.source_sketch (field : Option String) (s : Plain) : (s.sketch field).source = s.quoted := by
  rw [Plain.sketch, source_node, Plain.quoted]
  split
  · rename_i h
    simp [h]
  · simp [String.append_assoc]

@[simp] theorem Argument.source_sketch (a : Argument) : a.sketch.source = a.source := by
  match a with
  | .variable name => exact name.source_sketch none
  | .text value => exact value.source_sketch none
  | .integer ⟨.ofNat n, _⟩ => simp [sketch, source, Int.repr]
  | .integer ⟨.negSucc n, _⟩ => simp [sketch, source, Int.repr]
  | .bool true | .bool false | .null => simp [sketch, source]

@[simp] theorem Argument.source_enclosed (a : Argument) : a.enclosed.source = "(" ++ a.source ++ ")" := by
  simp [Argument.enclosed, String.append_assoc]

theorem sources_arguments (args : List Argument) :
    sources (listed (args.map argumentSketch)) = Text.commaList (args.map Argument.source) := by
  rw [sources_listed, List.map_map]
  apply congrArg Text.commaList
  apply List.map_congr_left
  intro a _
  simp [argumentSketch]

theorem sources_parameters (params : List Name) :
    sources (listed (params.map parameterSketch)) = Text.commaList (params.map Name.variable) := by
  rw [sources_listed, List.map_map]
  apply congrArg Text.commaList
  apply List.map_congr_left
  intro p _
  simp [parameterSketch]

mutual

theorem Statement.source_sketch (gap : String) : (s : Statement) → (s.sketch gap).source = s.source gap
  | .assignment name value => by
      rw [← String.toList_inj]
      simp [sketch, source]
  | .echo arg => by
      rw [← String.toList_inj]
      simp [sketch, source]
  | .print arg => by
      rw [← String.toList_inj]
      simp [sketch, source]
  | .call c => by
      rw [← String.toList_inj]
      simp [sketch, source, sources_arguments]
  | .function name params body => by
      rw [← String.toList_inj]
      simp [sketch, source, sources_parameters, Statement.sources_sketches gap body]

theorem Statement.sources_sketches (gap : String) : (block : List Statement) →
    Sketch.sources (Statement.sketches gap block) = Statement.sources gap block
  | [] => rfl
  | s :: block => by
      simp [Statement.sketches, Statement.sources, s.source_sketch gap, Statement.sources_sketches gap block,
        String.append_assoc]

end

theorem Style.sources_sketches (style : Style) (block : List Statement) :
    Sketch.sources (style.sketches block) = style.source block := by
  rw [Style.sketches, Style.source, Style.tag, sources_append, Statement.sources_sketches]
  split
  · rw [← String.toList_inj]
    simp
  · simp

end Fragment

end PhpTranspiler
