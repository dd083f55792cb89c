import Mathlib.Algebra.Ring.Nat
import PhpTranspiler.Proofs.Rendering
import PhpTranspiler.Script.Draft

namespace PhpTranspiler.Script

namespace Draft

open Script.Part

theorem renderAll_arguments (start : Nat) (args : List Argument) :
    Expression.renderAll (arguments start args) = args.map Argument.text := by
  induction args generalizing start with
  | nil => rfl
  | cons arg args ih =>
      rw [arguments, Expression.renderAll, ih, List.map_cons]
      cases arg <;> rfl

theorem render_callee (start : Nat) (c : Callee) : (callee start c).render = c.text := by
  cases c <;> rfl

theorem params_name (start : Nat) (names : List String) :
    (params start names).map Identifier.name = names := by
  induction names generalizing start with
  | nil => rfl
  | cons name names ih => rw [params, List.map_cons, ih]; rfl

theorem isEmpty_nodes (start : Nat) (ds : List Draft) : (nodes start ds).isEmpty = ds.isEmpty := by
  cases ds <;> simp [nodes]

mutual

theorem render_node (start : Nat) : (d : Draft) → (d.node start).render = d.text
  | .variable name value => by
      simp [node, text, Statement.render, Declarator.render, Expression.render, Text.commaList,
        Identifier.at, String.append_assoc]
  | .call c => by
      have hs : (");" : String) = ")" ++ ";" := rfl
      simp [node, text, Statement.render, Expression.render, render_callee, renderAll_arguments, hs,
        String.append_assoc]
  | .function name ps body => by
      rw [node, text, Statement.render, params_name, Statement.renderBlock_eq, isEmpty_nodes,
        renderLines_nodes]
      rfl

theorem renderLines_nodes (start : Nat) : (ds : List Draft) →
    Statement.renderLines (nodes start ds) = lines ds
  | [] => by rw [nodes, lines, Statement.renderLines]
  | d :: ds => by rw [nodes, lines, Statement.renderLines, render_node, renderLines_nodes]

end

theorem utf8ByteSize_lines (ds : List Draft) :
    (lines ds).utf8ByteSize = (ds.map fun d => d.text.utf8ByteSize + 1).sum := by
  have hline : ("\n" : String).utf8ByteSize = 1 := rfl
  induction ds with
  | nil => rfl
  | cons d ds ih =>
      rw [lines, List.map_cons, List.sum_cons, ← ih]
      simp [hline]

theorem lines_eq_join (ds : List Draft) : lines ds = String.join (ds.map fun d => d.text ++ "\n") := by
  induction ds with
  | nil => rfl
  | cons d ds ih => rw [lines, ih, List.map_cons, String.join_cons]

theorem lines_append (ds es : List Draft) : lines (ds ++ es) = lines ds ++ lines es := by
  induction ds with
  | nil => simp [lines]
  | cons d ds ih =>
      rw [List.cons_append, lines, lines, ih]
      simp only [String.append_assoc]

theorem nodes_append (start : Nat) (ds es : List Draft) :
    nodes start (ds ++ es) = nodes start ds ++ nodes (start + (lines ds).utf8ByteSize) es := by
  induction ds generalizing start with
  | nil => simp [nodes, lines]
  | cons d ds ih =>
      have hn : ("\n" : String).utf8ByteSize = 1 := rfl
      rw [List.cons_append, nodes, nodes, ih, lines, List.cons_append]
      simp [hn, Nat.add_assoc]

theorem map_render_nodes (start : Nat) (ds : List Draft) :
    (nodes start ds).map Statement.render = ds.map Draft.text := by
  induction ds generalizing start with
  | nil => rfl
  | cons d ds ih => rw [nodes, List.map_cons, List.map_cons, render_node, ih]

section Places

variable {page : String} {start : Nat}

theorem identifier_sound {name : String}
    (h : Text.StandsAt page ⟨start, start + name.utf8ByteSize⟩ name) :
    Sound page (.identifier (.at start name)) :=
  .leaf h rfl rfl rfl trivial

theorem argument_sound {arg : Argument}
    (h : Text.StandsAt page ⟨start, start + arg.text.utf8ByteSize⟩ arg.text) :
    Sound page (.expression (argument start arg)) := by
  cases arg <;> exact .leaf h rfl rfl rfl trivial

theorem span_argument (start : Nat) (arg : Argument) :
    (argument start arg).span = ⟨start, start + arg.text.utf8ByteSize⟩ := by
  cases arg <;> rfl

theorem arguments_sound {args : List Argument}
    (h : Text.StandsAt page ⟨start, start + (Text.commaList (args.map Argument.text)).utf8ByteSize⟩
      (Text.commaList (args.map Argument.text))) :
    (∀ e ∈ arguments start args, Sound page (.expression e)) ∧
      InOrder start (start + (Text.commaList (args.map Argument.text)).utf8ByteSize)
        ((arguments start args).map .expression) := by
  induction args generalizing start with
  | nil => exact ⟨by simp [arguments], Nat.le_add_right _ _⟩
  | cons arg args ih =>
      cases args with
      | nil =>
          refine ⟨?_, ?_⟩
          · simpa [arguments] using argument_sound h
          · simp [arguments, InOrder, Part.span, span_argument, Text.commaList]
      | cons b bs =>
          have hcomma : (", " : String).utf8ByteSize = 2 := rfl
          simp only [List.map_cons, Text.commaList] at h ih ⊢
          have ha : Text.StandsAt page ⟨start, start + arg.text.utf8ByteSize⟩ arg.text :=
            h.within "" (", " ++ Text.commaList (b.text :: bs.map Argument.text))
              (by simp [String.append_assoc]) rfl
          have ht : start + arg.text.utf8ByteSize + 2 = start + (arg.text ++ ", ").utf8ByteSize := by
            simp [hcomma, Nat.add_assoc]
          obtain ⟨hall, hord⟩ := ih (h.within (arg.text ++ ", ") "" (by simp) ht)
          refine ⟨?_, ?_⟩
          · intro e he
            rcases List.mem_cons.1 he with rfl | he
            · exact argument_sound ha
            · exact hall e he
          · refine ⟨?_, ?_, ?_⟩
            · simp [Part.span, span_argument]
            · simp [Part.span, span_argument]
            · refine hord.mono ?_ ?_
              · simp [Part.span, span_argument]
              · simp only [String.utf8ByteSize_append, hcomma]
                omega

theorem span_callee (start : Nat) (c : Callee) :
    (callee start c).span = ⟨start, start + c.text.utf8ByteSize⟩ := by
  have hdot : ("." : String).utf8ByteSize = 1 := rfl
  cases c with
  | plain name => rfl
  | member object property =>
      simp [callee, Expression.span, Identifier.at, Callee.text, hdot, Nat.add_assoc]

theorem callee_sound {c : Callee} (h : Text.StandsAt page ⟨start, start + c.text.utf8ByteSize⟩ c.text) :
    Sound page (.expression (callee start c)) := by
  cases c with
  | plain name => exact .leaf h rfl rfl rfl trivial
  | member object property =>
      have hdot : ("." : String).utf8ByteSize = 1 := rfl
      have ho : Text.StandsAt page ⟨start, start + object.utf8ByteSize⟩ object :=
        h.within "" ("." ++ property) (by simp [Callee.text, String.append_assoc]) rfl
      have hp : Text.StandsAt page ⟨start + object.utf8ByteSize + 1,
          start + object.utf8ByteSize + 1 + property.utf8ByteSize⟩ property :=
        h.within (object ++ ".") "" (by simp [Callee.text]) (by simp [hdot, Nat.add_assoc])
      refine Sound.of_place h (span_callee start (.member object property))
        (render_callee start (.member object property)) ?_ ?_ ?_
      · simp [Part.span, callee, children, InOrder, Expression.span, Identifier.at, Callee.text, hdot,
          Nat.add_assoc]
      · trivial
      · intro q hq
        simp only [children, callee, List.mem_cons, List.not_mem_nil, or_false] at hq
        rcases hq with rfl | rfl
        · exact .leaf ho rfl rfl rfl trivial
        · exact .leaf hp rfl rfl rfl trivial

theorem span_node (start : Nat) (d : Draft) : (d.node start).span = ⟨start, start + d.text.utf8ByteSize⟩ := by
  have hvar : ("var " : String).utf8ByteSize = 4 := rfl
  have heq : (" = " : String).utf8ByteSize = 3 := rfl
  have hsemi : (";" : String).utf8ByteSize = 1 := rfl
  have hopen : ("(" : String).utf8ByteSize = 1 := rfl
  have hclose : (");" : String).utf8ByteSize = 2 := rfl
  cases d with
  | «variable» name value =>
      simp only [node, Statement.span, Identifier.at, text, String.utf8ByteSize_append, hvar, heq, hsemi,
        Span.mk.injEq, true_and]
      omega
  | call c =>
      simp only [node, Statement.span, text, String.utf8ByteSize_append, hopen, hclose, Span.mk.injEq,
        true_and]
      omega
  | function name ps body => rw [node, Statement.span]

theorem variable_sound {name : String} {value : Literal}
    (h : Text.StandsAt page ⟨start, start + (text (.variable name value)).utf8ByteSize⟩
      (text (.variable name value))) : Sound page (.statement (node start (.variable name value))) := by
  have hvar : ("var " : String).utf8ByteSize = 4 := rfl
  have heq : (" = " : String).utf8ByteSize = 3 := rfl
  have hsemi : (";" : String).utf8ByteSize = 1 := rfl
  have hi : Text.StandsAt page ⟨start + 4, start + 4 + name.utf8ByteSize⟩ name :=
    h.within "var " (" = " ++ value.raw ++ ";") (by simp [text, String.append_assoc]) (by simp [hvar])
  have hl : Text.StandsAt page ⟨start + 4 + name.utf8ByteSize + 3,
      start + 4 + name.utf8ByteSize + 3 + value.raw.utf8ByteSize⟩ value.raw :=
    h.within ("var " ++ name ++ " = ") ";" (by simp [text, String.append_assoc])
      (by simp [hvar, heq, Nat.add_assoc])
  have hd : Text.StandsAt page ⟨start + 4, start + 4 + (name ++ " = " ++ value.raw).utf8ByteSize⟩
      (name ++ " = " ++ value.raw) :=
    h.within "var " ";" (by simp [text, String.append_assoc]) (by simp [hvar])
  refine Sound.of_place h (span_node start (.variable name value))
    (render_node start (.variable name value)) ?_ ?_ ?_
  · simp only [node, children, List.map_cons, List.map_nil, InOrder, Part.span, Identifier.at, text,
      String.utf8ByteSize_append, hvar, heq, hsemi]
    omega
  · trivial
  · intro q hq
    simp only [children, node, List.map_cons, List.map_nil, List.mem_cons, List.not_mem_nil, or_false] at hq
    subst hq
    apply Sound.of_place hd
    · simp [Part.span, Identifier.at, heq, Nat.add_assoc]
    · rfl
    · simp [children, InOrder, Part.span, Identifier.at, Expression.span, heq, Nat.add_assoc]
    · trivial
    · intro q hq
      simp only [children, Option.toList_some, List.map_cons, List.map_nil, List.mem_cons,
        List.not_mem_nil, or_false] at hq
      rcases hq with rfl | rfl
      · exact identifier_sound hi
      · exact .leaf hl rfl rfl rfl trivial

theorem call_sound {c : Call}
    (h : Text.StandsAt page ⟨start, start + (text (.call c)).utf8ByteSize⟩ (text (.call c))) :
    Sound page (.statement (node start (.call c))) := by
  have hopen : ("(" : String).utf8ByteSize = 1 := rfl
  have hclose : (")" : String).utf8ByteSize = 1 := rfl
  have hsemi : (");" : String).utf8ByteSize = 2 := rfl
  have he : (");" : String) = ")" ++ ";" := rfl
  let args := Text.commaList (c.args.map Argument.text)
  have hf : Text.StandsAt page ⟨start, start + c.callee.text.utf8ByteSize⟩ c.callee.text :=
    h.within "" ("(" ++ args ++ ");") (by simp [text, args, String.append_assoc]) rfl
  have ha : Text.StandsAt page ⟨start + c.callee.text.utf8ByteSize + 1,
      start + c.callee.text.utf8ByteSize + 1 + args.utf8ByteSize⟩ args :=
    h.within (c.callee.text ++ "(") ");" (by simp [text, args, String.append_assoc])
      (by simp [hopen, Nat.add_assoc])
  have hc : Text.StandsAt page ⟨start, start + (c.callee.text ++ "(" ++ args ++ ")").utf8ByteSize⟩
      (c.callee.text ++ "(" ++ args ++ ")") :=
    h.within "" ";" (by simp [text, args, he, String.append_assoc]) rfl
  obtain ⟨hall, hord⟩ := arguments_sound ha
  refine Sound.of_place h (span_node start (.call c)) (render_node start (.call c)) ?_ ?_ ?_
  · simp only [node, children, InOrder, Part.span, Expression.span, text, String.utf8ByteSize_append,
      hopen, hsemi]
    omega
  · trivial
  · intro q hq
    simp only [children, node, List.mem_cons, List.not_mem_nil, or_false] at hq
    subst hq
    apply Sound.of_place hc
    · simp only [Part.span, Expression.span, String.utf8ByteSize_append, hopen, hclose, args,
        Span.mk.injEq, true_and]
      omega
    · simp [Part.render, Expression.render, render_callee, renderAll_arguments, args]
    · refine ⟨?_, ?_, ?_⟩
      · simp [Part.span, span_callee]
      · simp [Part.span, span_callee]
      · refine hord.mono ?_ ?_
        · simp [Part.span, span_callee]
        · simp only [String.utf8ByteSize_append, hopen, hclose, args]
          omega
    · trivial
    · intro q hq
      simp only [children, List.map_cons, List.mem_cons, List.mem_map] at hq
      rcases hq with rfl | ⟨e, hm, rfl⟩
      · exact callee_sound hf
      · exact hall e hm

theorem params_get (start i : Nat) (names : List String) :
    (params start names)[i]? = names[i]?.map (Identifier.at (start + i)) := by
  induction names generalizing start i with
  | nil => rfl
  | cons name names ih =>
      cases i with
      | zero => rfl
      | succ i => simp [params, ih, Nat.add_assoc, Nat.add_comm 1 i]

/-- A parameter that is placed one byte behind each of those before it does not leave the list. -/
theorem param_le (names : List String) {i : Nat} {name : String} (h : names[i]? = some name) :
    i + name.utf8ByteSize ≤ (Text.commaList names).utf8ByteSize := by
  have hcomma : (", " : String).utf8ByteSize = 2 := rfl
  induction names generalizing i with
  | nil => simp at h
  | cons s names ih =>
      cases names with
      | nil =>
          cases i with
          | zero => simp_all [Text.commaList]
          | succ i => simp at h
      | cons t rest =>
          simp only [Text.commaList, String.utf8ByteSize_append, hcomma]
          cases i with
          | zero =>
              have hs : s = name := by simpa using h
              subst hs
              omega
          | succ i =>
              have hi := ih (by simpa using h)
              omega

def LinesSound (page : String) (ds : List Draft) : Prop :=
  ∀ start, Text.StandsAt page ⟨start, start + (lines ds).utf8ByteSize⟩ (lines ds) →
    (∀ s ∈ nodes start ds, Sound page (.statement s)) ∧
      InOrder start (start + (lines ds).utf8ByteSize) ((nodes start ds).map .statement)

theorem block_sound {body : List Draft} (hb : LinesSound page body)
    (h : Text.StandsAt page
      ⟨start, start + (Statement.renderBlock (nodes (start + 2) body)).utf8ByteSize⟩
      (Statement.renderBlock (nodes (start + 2) body))) :
    Sound page (.block ⟨start, start + (Statement.renderBlock (nodes (start + 2) body)).utf8ByteSize⟩
      (nodes (start + 2) body)) := by
  have hopen : ("\x7b\n" : String).utf8ByteSize = 2 := rfl
  have hclose : ("\x7d" : String).utf8ByteSize = 1 := rfl
  cases body with
  | nil => exact .leaf h rfl rfl (by simp [children, nodes]) trivial
  | cons d ds =>
      have hr : Statement.renderBlock (nodes (start + 2) (d :: ds)) =
          "\x7b\n" ++ lines (d :: ds) ++ "\x7d" := by
        rw [Statement.renderBlock_eq, renderLines_nodes, isEmpty_nodes]
        rfl
      obtain ⟨hall, hord⟩ := hb (start + 2) (h.within "\x7b\n" "\x7d" hr (by simp [hopen]))
      refine Sound.of_place h rfl rfl ?_ trivial ?_
      · refine hord.mono (Nat.le_add_right _ _) ?_
        simp only [hr, String.utf8ByteSize_append, hopen, hclose]
        omega
      · intro q hq
        obtain ⟨s, hs, rfl⟩ := List.mem_map.1 hq
        exact hall s hs

theorem function_sound {name : String} {ps : List String} {body : List Draft} (hb : LinesSound page body)
    (h : Text.StandsAt page ⟨start, start + (text (.function name ps body)).utf8ByteSize⟩
      (text (.function name ps body))) :
    Sound page (.statement (node start (.function name ps body))) := by
  have hword : ("function " : String).utf8ByteSize = 9 := rfl
  have hopen : ("(" : String).utf8ByteSize = 1 := rfl
  have hclose : (") " : String).utf8ByteSize = 2 := rfl
  let block := start + 9 + name.utf8ByteSize + 1 + (Text.commaList ps).utf8ByteSize + 2
  let rendered := Statement.renderBlock (nodes (block + 2) body)
  have ht : text (.function name ps body) =
      "function " ++ name ++ "(" ++ Text.commaList ps ++ ") " ++ rendered := by
    rw [← render_node start, node, Statement.render, params_name]
    rfl
  have hstop : start + (text (.function name ps body)).utf8ByteSize = block + rendered.utf8ByteSize := by
    simp only [ht, String.utf8ByteSize_append, hword, hopen, hclose, block]
    omega
  have hi : Text.StandsAt page ⟨start + 9, start + 9 + name.utf8ByteSize⟩ name :=
    h.within "function " ("(" ++ Text.commaList ps ++ ") " ++ rendered)
      (by rw [ht]; simp [String.append_assoc]) (by simp [hword])
  have hp : Text.StandsAt page ⟨start + 9 + name.utf8ByteSize, start + 9 + name.utf8ByteSize + 1⟩ "(" :=
    h.within ("function " ++ name) (Text.commaList ps ++ ") " ++ rendered)
      (by rw [ht]; simp [String.append_assoc]) (by simp [hword, Nat.add_assoc])
  have hblock : Text.StandsAt page ⟨block, block + rendered.utf8ByteSize⟩ rendered := by
    apply h.within ("function " ++ name ++ "(" ++ Text.commaList ps ++ ") ") ""
    · rw [ht, String.append_empty]
    · simp only [String.utf8ByteSize_append, hword, hopen, hclose, block]
      omega
  have hn : node start (.function name ps body) = .function ⟨start, block + rendered.utf8ByteSize⟩
      (.at (start + 9) name) ⟨false, false, false⟩ (params (start + 9 + name.utf8ByteSize + 1) ps)
      ⟨block, block + rendered.utf8ByteSize⟩ (nodes (block + 2) body) := by
    rw [node, ← hstop]
    rfl
  refine Sound.of_place h (span_node start (.function name ps body))
    (render_node start (.function name ps body)) ?_ ?_ ?_
  · simp only [hn, children, InOrder, Part.span, Identifier.at, hstop, block]
    omega
  · rw [hn]
    refine ⟨hp, ?_⟩
    intro i p hget
    rw [params_get] at hget
    obtain ⟨q, hq, rfl⟩ := Option.map_eq_some_iff.1 hget
    have hle := param_le ps hq
    refine ⟨rfl, ?_, ?_⟩
    · simp only [Identifier.at]
      omega
    · simp only [Identifier.at, block]
      omega
  · intro q hq
    simp only [hn, children, List.mem_cons, List.not_mem_nil, or_false] at hq
    rcases hq with rfl | rfl
    · exact identifier_sound hi
    · exact block_sound hb hblock

mutual

theorem node_sound (start : Nat) : (d : Draft) →
    Text.StandsAt page ⟨start, start + d.text.utf8ByteSize⟩ d.text → Sound page (.statement (d.node start))
  | .variable _ _, h => variable_sound h
  | .call _, h => call_sound h
  | .function _ _ body, h => function_sound (nodes_sound body) h

theorem nodes_sound : (ds : List Draft) → LinesSound page ds
  | [] => fun start _ => ⟨by simp [nodes], by simp [nodes, lines, InOrder]⟩
  | d :: ds => by
      intro start h
      have hline : ("\n" : String).utf8ByteSize = 1 := rfl
      rw [lines] at h
      have hd := node_sound start d (h.within "" ("\n" ++ lines ds) (by simp [String.append_assoc]) rfl)
      obtain ⟨hall, hord⟩ := nodes_sound ds (start + d.text.utf8ByteSize + 1)
        (h.within (d.text ++ "\n") "" (by simp) (by simp [hline, Nat.add_assoc]))
      refine ⟨?_, ?_⟩
      · intro s hs
        rw [nodes, List.mem_cons] at hs
        rcases hs with rfl | hs
        · exact hd
        · exact hall s hs
      · rw [nodes, lines]
        refine ⟨?_, ?_, ?_⟩
        · simp [Part.span, span_node]
        · simp [Part.span, span_node]
        · refine hord.mono ?_ ?_
          · simp [Part.span, span_node]
          · simp only [String.utf8ByteSize_append, hline]
            omega

end

end Places

end Draft

namespace Page

open Draft

theorem foldl_append (p : Page) (ds : List Draft) :
    ds.foldl append p = ⟨p.body ++ nodes p.cursor ds, p.text ++ lines ds⟩ := by
  induction ds generalizing p with
  | nil => simp [nodes, lines]
  | cons d ds ih =>
      rw [List.foldl_cons, ih, cursor_append, nodes, lines]
      simp [append, String.append_assoc]

theorem program_sound (ds : List Draft) :
    Part.Sound (ds.foldl append empty).text (.program (ds.foldl append empty).program) := by
  have hp : ds.foldl append empty = ⟨nodes 0 ds, lines ds⟩ := by
    rw [foldl_append]
    simp [empty, cursor]
  have hl := Text.standsAt_self (lines ds)
  obtain ⟨hall, hord⟩ := nodes_sound ds 0 (by simpa using hl)
  rw [hp]
  refine Part.Sound.of_place hl rfl (renderLines_nodes 0 ds) ?_ trivial ?_
  · simpa [Part.children, program] using hord
  · intro q hq
    obtain ⟨s, hs, rfl⟩ := List.mem_map.1 hq
    exact hall s hs

/-- The places of a page follow its text, whatever statements are laid out on it. The cursor counts the
statements so far with their line ends, and every node at any depth stands where its span says. -/
theorem layout_fits (ds : List Draft) :
    let page := ds.foldl append empty
    (∀ n, ((ds.take n).foldl append empty).cursor =
      ((ds.take n).map fun d => d.text.utf8ByteSize + 1).sum) ∧
    page.program.span = ⟨0, page.text.utf8ByteSize⟩ ∧
    page.text = String.join (ds.map fun d => d.text ++ "\n") ∧
    page.program.body.map Statement.render = ds.map Draft.text ∧
    ∀ part, (Part.program page.program).Holds part → part.Fits page.text := by
  intro page
  refine ⟨?_, rfl, ?_, ?_, ?_⟩
  · intro n
    rw [foldl_append, ← utf8ByteSize_lines]
    simp [empty, cursor]
  · rw [← lines_eq_join]
    simp [page, foldl_append, empty]
  · simp [page, foldl_append, program, empty, map_render_nodes]
  · intro part hp
    exact (program_sound ds).fits hp

end Page

end PhpTranspiler.Script
