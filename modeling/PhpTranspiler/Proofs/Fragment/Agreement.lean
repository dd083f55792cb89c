import PhpTranspiler.Proofs.Fragment.Reading
import PhpTranspiler.Proofs.Fragment.Trees

namespace PhpTranspiler

theorem Text.stripPair_enclosed {opening closing : Char} (ho : isBlank opening = false)
    (hc : isBlank closing = false) {text s : String} (h : text.toList = opening :: (s.toList ++ [closing])) :
    stripPair opening closing text = trim s := by
  have hs : trimStart (opening :: (s.toList ++ [closing])) = opening :: (s.toList ++ [closing]) := by
    rw [trimStart, List.dropWhile_cons_of_neg (by simp [ho])]
  have he : trimEnd (opening :: (s.toList ++ [closing])) = opening :: (s.toList ++ [closing]) := by
    simp [trimEnd, hc]
  simp [stripPair, trim, h, hs, he]

theorem SyntaxTree.items_append (source : String) (ms ns : List Node) :
    items source (ms ++ ns) = items source ms ++ items source ns := by
  induction ms with
  | nil => rfl
  | cons m ms ih => rw [List.cons_append, items, items, ih, List.append_assoc]

theorem SyntaxTree.expressionStatement_of_assignment {source : String} {n e left right : Node} {others : List Node}
    {value : Scalar} (hn : n.namedChildren = e :: others) (he : e.kind = "assignment_expression")
    (hl : e.child? "left" = some left) (hk : left.kind = "variable_name") (hr : e.child? "right" = some right)
    (hv : scalar source right = .ok value) :
    expressionStatement source n = .ok (.assignment (n.excerpt source) (variableName source left) value) := by
  have hf : (some left).filter (·.kind == "variable_name") = some left := by simp [hk]
  simp only [expressionStatement, hn, he]
  rw [assignment, hl, hr, hf]
  simp [hv, Except.map]

theorem SyntaxTree.function_eq {source : String} {n name list body : Node} {names : List String}
    (hn : n.child? "name" = some name) (hb : n.child? "body" = some body) (hl : n.child? "parameters" = some list)
    (hp : parameters source list.namedChildren = .ok names) (items : List Item) :
    function source n items = .ok (.function (n.excerpt source) (name.text source) names
      (Text.stripPair '\x7b' '\x7d' (body.text source)) items) := by
  simp [function, hn, hb, hl, hp, Except.map]

namespace Fragment

open Token Lexer Nesting Sketch

theorem lists_trim (args : List Argument) :
    Lists (Text.trim (Text.commaList (args.map Argument.source))) args := by
  have hb : (tokenize (Text.commaList (args.map Argument.source))).map bare =
      separated (args.map Argument.tokens) := by
    have hends : EndsArgument [] := by
      intro c hc
      cases hc
    have h := bareTokens_arguments args hends
    rwa [List.append_nil, bareTokens_nil, List.append_nil] at h
  rw [Lists, bare_tokenize_trim, hb]
  -- A token could only lose blanks at its own ends, and it has none there.
  intro t ht
  have hm : t.bare ∈ separated (args.map Argument.tokens) := hb ▸ List.mem_map_of_mem ht
  rcases mem_separated hm with he | ⟨group, hg, hm⟩
  · rw [(Pattern.bare_eq_ofText he).2]
    exact ⟨',', ',', by decide⟩
  · obtain ⟨a, _, rfl⟩ := List.mem_map.1 hg
    rcases a.ink _ hm with ⟨value, he⟩ | ⟨hn, hi⟩
    · rw [(Pattern.bare_eq_ofText he).2]
      have hq : value.quoted.toList = ['"'] ++ value.text.toList ++ ['"'] := by simp [Plain.quoted]
      rw [hq]
      exact ⟨'"', '"', by simp, by decide, List.getLast?_concat, by decide⟩
    · exact Text.inked_of_forall hn hi

theorem lists_enclosed {text : String} (args : List Argument)
    (h : text.toList = '(' :: ((Text.commaList (args.map Argument.source)).toList ++ [')'])) :
    Lists (Text.stripPair '(' ')' text) args := by
  rw [Text.stripPair_enclosed (by decide) (by decide) h]
  exact lists_trim args

theorem Argument.lists_argumentText (arg : Argument) {source : String} {n : Node}
    (hk : n.kind = "parenthesized_expression") (h : Text.StandsAt source n.span arg.enclosed.source) :
    Lists (SyntaxTree.argumentText source n) [arg] := by
  rw [SyntaxTree.argumentText, if_pos hk, Node.text, h.slice_eq]
  exact lists_enclosed [arg] (by simp [Text.commaList])

section

variable {source : String} {ns : List Node} {ps : List Sketch}

theorem Name.variableName_shown (p : Name) {field : Option String} (h : Shown source ns (p.sketch field :: ps)) :
    ∃ span children rest, ns = .mk "variable_name" true field span children :: rest ∧
      SyntaxTree.variableName source (.mk "variable_name" true field span children) = p.text ∧
      Shown source rest ps := by
  have hv := p.source_sketch field
  obtain ⟨span, children, rest, rfl, ht, _, hs⟩ := h.node_cons
  rw [Name.sketch, source_node] at hv
  rw [hv] at ht
  have hd : p.text.toList.dropWhile (· == '$') = p.text.toList := by
    have hw := p.isWord
    generalize p.text.toList = cs at hw
    cases hw with
    | intro hc _ =>
        rw [List.dropWhile_cons_of_neg]
        rw [beq_iff_eq]
        rintro rfl
        revert hc
        decide
  refine ⟨span, children, rest, rfl, ?_, hs⟩
  rw [SyntaxTree.variableName, Node.text, Node.span, ht.slice_eq]
  simp [Name.variable, hd]

theorem Plain.scalar_shown (s : Plain) {field : Option String} (h : Shown source ns (s.sketch field :: ps)) :
    ∃ span children rest, ns = .mk "encapsed_string" true field span children :: rest ∧
      SyntaxTree.scalar source (.mk "encapsed_string" true field span children) = .ok (.text s.text) := by
  have hq := s.source_sketch field
  obtain ⟨span, children, rest, rfl, ht, hc, _⟩ := h.node_cons
  rw [Plain.sketch, source_node] at hq
  rw [hq] at ht
  -- The only named node in the quotes is that of the content.
  have hi : SyntaxTree.isInterpolated (.mk "encapsed_string" true field span children) = false := by
    split at hc
    · obtain ⟨_, _, _, rfl, _, _, hc⟩ := hc.node_cons
      obtain ⟨_, _, _, rfl, _, _, hc⟩ := hc.node_cons
      cases hc.nil_eq
      rfl
    · obtain ⟨_, _, _, rfl, _, _, hc⟩ := hc.node_cons
      obtain ⟨_, _, _, rfl, _, _, hc⟩ := hc.node_cons
      obtain ⟨_, _, _, rfl, _, _, hc⟩ := hc.node_cons
      cases hc.nil_eq
      rfl
  refine ⟨span, children, rest, rfl, ?_⟩
  simp [SyntaxTree.scalar, SyntaxTree.string, Node.kind, Node.text, Node.span, hi, ht.slice_eq, s.decode?_quoted]

theorem parameters_cons {p : Name} (h : Shown source ns (parameterSketch p :: ps)) :
    ∃ n rest, ns = n :: rest ∧ n.named = true ∧ Shown source rest ps ∧
      ∀ {others : List Node} {names : List String}, SyntaxTree.parameters source others = .ok names →
        SyntaxTree.parameters source (n :: others) = .ok (p.text :: names) := by
  obtain ⟨span, children, rest, rfl, _, hc, hs⟩ := h.node_cons
  obtain ⟨nspan, nchildren, _, rfl, hname, hc⟩ := p.variableName_shown hc
  cases hc.nil_eq
  refine ⟨_, rest, rfl, rfl, hs, ?_⟩
  intro others names ho
  simp [SyntaxTree.parameters, Node.kind, Node.child?, Node.children, Node.field, ho, hname, Except.map]

theorem parameters_shown : (params : List Name) → {ns : List Node} →
    Shown source ns (listed (params.map parameterSketch) ++ [mark ")"]) →
      SyntaxTree.parameters source (ns.filter Node.named) = .ok (params.map Name.text)
  | [], ns, h => by
      obtain ⟨_, _, _, rfl, _, _, hs⟩ := h.node_cons
      cases hs.nil_eq
      rfl
  | [p], ns, h => by
      obtain ⟨n, _, rfl, hn, hs, hp⟩ := parameters_cons h
      obtain ⟨_, _, _, rfl, _, _, hs⟩ := hs.node_cons
      cases hs.nil_eq
      rw [List.filter_cons_of_pos hn]
      exact hp rfl
  | p :: q :: params, ns, h => by
      obtain ⟨n, _, rfl, hn, hs, hp⟩ := parameters_cons h
      obtain ⟨_, _, rest, rfl, _, _, hs⟩ := hs.node_cons
      have ih := parameters_shown (q :: params) hs.text_cons
      rw [List.filter_cons_of_pos hn, List.filter_cons_of_neg (by simp [Node.named])]
      exact hp ih

theorem Statement.shown_cons {gap : String} {s : Statement} (h : Shown source ns (s.sketch gap :: ps)) :
    ∃ n rest, ns = n :: rest ∧ n.named = true ∧ Text.StandsAt source n.span (s.source gap) ∧
      Shown source [n] [s.sketch gap] ∧ Shown source rest ps := by
  obtain ⟨kind, parts, he⟩ : ∃ kind parts, s.sketch gap = rule kind parts := by cases s <;> exact ⟨_, _, rfl⟩
  have hs := s.source_sketch gap
  rw [he, source_rule] at hs
  rw [he] at h ⊢
  obtain ⟨span, children, rest, rfl, ht, hc, hr⟩ := h.node_cons
  refine ⟨_, rest, rfl, rfl, ?_, .node ht hc .nil, hr⟩
  rwa [← hs]

theorem expression_shown {n : Node} {kind : String}
    (h : Shown source [n] [rule "expression_statement" [rule kind ps, mark ";"]]) :
    ∃ span espan children sspan marks, n = .mk "expression_statement" true none span
      [.mk kind true none espan children, .mk ";" false none sspan marks] ∧ Shown source children ps := by
  obtain ⟨span, children, rfl, _, hc⟩ := h.node_singleton
  obtain ⟨espan, children, _, rfl, _, he, hc⟩ := hc.node_cons
  obtain ⟨sspan, marks, _, rfl, _, _, hc⟩ := hc.node_cons
  cases hc.nil_eq
  exact ⟨span, espan, children, sspan, marks, rfl, he⟩

mutual

theorem Statement.item?_shown (gap : String) : (s : Statement) → {n : Node} → Shown source [n] [s.sketch gap] →
    ∃ item, SyntaxTree.item? source n = some item ∧ Denotes item s ∧ item.span = n.span
  | .assignment name value, n, h => by
      obtain ⟨span, espan, children, sspan, marks, rfl, he⟩ := expression_shown h
      obtain ⟨lspan, lchildren, _, rfl, hname, he⟩ := name.variableName_shown he
      obtain ⟨_, _, _, rfl, _, _, he⟩ := he.text_cons.node_cons
      obtain ⟨rspan, rchildren, _, rfl, hvalue⟩ := value.scalar_shown he.text_cons
      refine ⟨_, congrArg (fun r => some (SyntaxTree.Item.ofExcept r))
        (SyntaxTree.expressionStatement_of_assignment rfl rfl rfl rfl rfl hvalue), ?_, rfl⟩
      rw [hname]
      exact .assignment
  | .echo arg, n, h => by
      obtain ⟨span, children, rfl, _, hc⟩ := h.node_singleton
      obtain ⟨_, _, _, rfl, _, _, hc⟩ := hc.node_cons
      obtain ⟨aspan, achildren, _, rfl, ha, _, hc⟩ := hc.node_cons
      obtain ⟨_, _, _, rfl, _, _, hc⟩ := hc.node_cons
      cases hc.nil_eq
      exact ⟨_, rfl, .echo (arg.lists_argumentText rfl ha), rfl⟩
  | .print arg, n, h => by
      obtain ⟨span, espan, children, sspan, marks, rfl, he⟩ := expression_shown h
      obtain ⟨_, _, _, rfl, _, _, he⟩ := he.node_cons
      obtain ⟨aspan, achildren, _, rfl, ha, _, _⟩ := he.node_cons
      exact ⟨_, rfl, .print (arg.lists_argumentText rfl ha), rfl⟩
  | .call c, n, h => by
      obtain ⟨span, espan, children, sspan, marks, rfl, he⟩ := expression_shown h
      obtain ⟨fspan, _, _, rfl, hf, _, he⟩ := he.node_cons
      obtain ⟨aspan, _, _, rfl, ha, _, _⟩ := he.node_cons
      have hcallee : Text.slice source fspan = c.callee.text := by
        rw [hf.slice_eq]
        simp
      have hargs : Lists (Text.stripPair '(' ')' (Text.slice source aspan)) c.args := by
        rw [ha.slice_eq]
        exact lists_enclosed c.args (by simp [sources_arguments])
      refine ⟨_, rfl, ?_, rfl⟩
      show Denotes (.call _ (Text.slice source fspan) _) _
      rw [hcallee]
      exact .call hargs
  | .function name params body, n, h => by
      obtain ⟨span, children, rfl, _, hc⟩ := h.node_singleton
      obtain ⟨_, _, _, rfl, _, _, hc⟩ := hc.node_cons
      obtain ⟨nspan, _, _, rfl, hn, _, hc⟩ := hc.text_cons.node_cons
      obtain ⟨pspan, pchildren, _, rfl, _, hp, hc⟩ := hc.node_cons
      obtain ⟨bspan, bchildren, _, rfl, _, hb, hc⟩ := hc.text_cons.node_cons
      cases hc.nil_eq
      obtain ⟨_, _, prest, rfl, _, _, hp⟩ := hp.node_cons
      obtain ⟨_, _, brest, rfl, _, _, hb⟩ := hb.node_cons
      obtain ⟨ms, os, rfl, hbody, hclose⟩ := hb.text_cons.append
      obtain ⟨_, _, _, rfl, _, _, hclose⟩ := hclose.node_cons
      cases hclose.nil_eq
      have hname : Text.slice source nspan = name.text := by
        rw [hn.slice_eq]
        simp
      have hparams := parameters_shown params hp
      have hd := Statement.items_shown gap body hbody
      refine ⟨_, congrArg (fun r => some (SyntaxTree.Item.ofExcept r))
        (SyntaxTree.function_eq rfl rfl rfl hparams _), ?_, rfl⟩
      rw [Node.text, Node.span, hname]
      apply Denotes.function
      simpa [SyntaxTree.bodyItems, SyntaxTree.items, SyntaxTree.items_append, Node.named] using hd

theorem Statement.items_shown (gap : String) : (block : List Statement) → {ns : List Node} →
    Shown source ns (Statement.sketches gap block) → DenotesAll (SyntaxTree.items source ns) block
  | [], ns, h => by
      cases h.nil_eq
      exact .nil
  | s :: block, ns, h => by
      obtain ⟨n, rest, rfl, hn, _, h1, hs⟩ := Statement.shown_cons h
      obtain ⟨item, hi, hd, _⟩ := s.item?_shown gap h1
      rw [SyntaxTree.items, if_pos hn, hi]
      exact .cons hd (Statement.items_shown gap block hs.text_cons)

end

theorem Statement.ink_source (gap : String) (s : Statement) :
    ∃ c ∈ (s.source gap).toList, Text.isBlank c = false := by
  cases s with
  | assignment | echo | print | call => exact ⟨';', by simp [source], by decide⟩
  | function => exact ⟨'\x7d', by simp [source], by decide⟩

/-- A run takes all statements of a block, as each of them has some ink. -/
theorem Statement.pulled_shown {gap : String} {block : List Statement} {consumed : Nat}
    (h : Shown source ns (Statement.sketches gap block)) (ha : Node.Ascending consumed ns) :
    Run.pulled (Text.inkEnd source) consumed (SyntaxTree.items source ns) = SyntaxTree.items source ns := by
  induction block generalizing ns consumed with
  | nil =>
      cases h.nil_eq
      rfl
  | cons s block ih =>
      obtain ⟨n, rest, rfl, hn, ht, h1, hs⟩ := Statement.shown_cons h
      obtain ⟨item, hi, _, hspan⟩ := s.item?_shown gap h1
      obtain ⟨hstart, hstop, hrest⟩ := ha
      have hlt : consumed < Text.inkEnd source := by
        apply Nat.lt_of_not_le
        intro hle
        obtain ⟨c, hc, hink⟩ := s.ink_source gap
        have hblank := ht.isBlank_of_inkEnd_le (Nat.le_trans hle hstart) c hc
        simp [hink] at hblank
      have hmax : max item.span.stop consumed = n.span.stop := by
        rw [hspan]
        omega
      rw [SyntaxTree.items, if_pos hn, hi, Option.toList_some, List.singleton_append, Run.pulled, if_pos hlt, hmax,
        ih hs.text_cons hrest]

end

theorem Style.denotes_tree (style : Style) (block : List Statement) :
    DenotesAll (Source.parsed (style.source block) (style.tree block)).pulled block := by
  have ht : Text.StandsAt (style.source block) ⟨0, 0 + (Sketch.sources (style.sketches block)).utf8ByteSize⟩
      (Sketch.sources (style.sketches block)) := by
    rw [style.sources_sketches, Nat.zero_add]
    exact Text.standsAt_self _
  have hs := shown_nodesAll (style.sketches block) ht
  have ha := ascending_nodesAll 0 (style.sketches block)
  show DenotesAll (Run.pulled (Text.inkEnd (style.source block)) 0
    (SyntaxTree.items (style.source block) (nodesAll 0 (style.sketches block)))) block
  generalize nodesAll 0 (style.sketches block) = ns at hs ha
  rw [Style.sketches] at hs
  split at hs
  · obtain ⟨span, children, rest, rfl, _, _, hs⟩ := hs.node_cons
    have htag : SyntaxTree.items (style.source block) (.mk "php_tag" true none span children :: rest) =
        SyntaxTree.items (style.source block) rest := rfl
    rw [htag, Statement.pulled_shown hs.text_cons (ha.2.2.of_le (Nat.zero_le _))]
    exact Statement.items_shown style.gap block hs.text_cons
  · rw [Statement.pulled_shown hs ha]
    exact Statement.items_shown style.gap block hs

/-- On the programs that mean the same to both, a source that is read from its tokens and one that is read from
its tree have the same result, the translation of the program. -/
theorem transpile_eq_result (mode : Mode) (style : Style) (block : List Statement) :
    transpile mode (.plain (style.source block)) = .ok (result block) ∧
      transpile mode (.parsed (style.source block) (style.tree block)) = .ok (result block) :=
  ⟨(style.denotes_scan block).transpile_eq mode, (style.denotes_tree block).transpile_eq mode⟩

end Fragment

end PhpTranspiler
