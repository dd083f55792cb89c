import PhpTranspiler.Proofs.Interpolation
import PhpTranspiler.Proofs.Names

namespace PhpTranspiler

open Script Token Lexer

namespace Text

def IsAscii (s : String) : Prop := ∀ c ∈ s.toList, c.toNat < 128

variable {s t : String}

theorem IsAscii.of_subset (h : IsAscii s) (hs : t.toList ⊆ s.toList) : IsAscii t := fun c hc => h c (hs hc)

theorem IsAscii.append (hs : IsAscii s) (ht : IsAscii t) : IsAscii (s ++ t) := by
  intro c hc
  rw [String.toList_append, List.mem_append] at hc
  exact hc.elim (hs c) (ht c)

theorem dropBytes_subset (n : Nat) (cs : List Char) : dropBytes n cs ⊆ cs := by
  fun_induction dropBytes n cs with
  | case1 | case2 => exact List.Subset.refl _
  | case3 n c cs ih => exact List.subset_cons_of_subset c ih

theorem takeBytes_subset (n : Nat) (cs : List Char) : takeBytes n cs ⊆ cs := by
  fun_induction takeBytes n cs with
  | case1 | case2 => simp
  | case3 n c cs ih => exact List.cons_subset_cons c ih

theorem IsAscii.slice (h : IsAscii s) (span : Span) : IsAscii (slice s span) := by
  apply h.of_subset
  rw [Text.slice, String.toList_ofList]
  exact List.Subset.trans (takeBytes_subset _ _) (dropBytes_subset _ _)

theorem trim_subset (cs : List Char) : trimEnd (trimStart cs) ⊆ cs := by
  intro c hc
  rw [trimEnd, List.mem_reverse] at hc
  exact (List.dropWhile_suffix _).subset (List.mem_reverse.1 ((List.dropWhile_suffix _).subset hc))

theorem IsAscii.trim (h : IsAscii s) : IsAscii (trim s) := by
  apply h.of_subset
  rw [Text.trim, String.toList_ofList]
  exact trim_subset _

theorem IsAscii.stripPair (h : IsAscii s) (opening closing : Char) : IsAscii (stripPair opening closing s) := by
  apply h.of_subset
  rw [Text.stripPair, String.toList_ofList]
  refine List.Subset.trans (trim_subset _) (List.Subset.trans ?_ (trim_subset s.toList))
  split
  · rename_i c rest hc
    split
    · rename_i d body hd
      split
      · intro x hx
        have hr : x ∈ rest := by
          rw [← List.mem_reverse, hd]
          exact List.mem_cons_of_mem d (List.mem_reverse.1 hx)
        rw [hc]
        exact List.mem_cons_of_mem c hr
      · exact List.Subset.refl _
    · exact List.Subset.refl _
  · exact List.Subset.refl _

theorem IsAscii.commaList {parts : List String} (h : ∀ part ∈ parts, IsAscii part) : IsAscii (commaList parts) := by
  fun_induction Text.commaList parts with
  | case1 =>
      intro c hc
      cases hc
  | case2 s => exact h s (.head _)
  | case3 s t rest ih =>
      have hcomma : IsAscii ", " := by simp [IsAscii]
      exact ((h s (.head _)).append hcomma).append (ih fun part hp => h part (List.mem_cons_of_mem s hp))

end Text

open Text (IsAscii)

namespace Script

def isIdentifierStart (c : Char) : Bool := c.isAlpha || c == '_' || c == '$'

def isIdentifier (name : String) : Bool :=
  match name.toList with
  | [] => false
  | c :: cs => isIdentifierStart c && cs.all fun c => isIdentifierStart c || c.isDigit

theorem isIdentifierStart_of_isWordStart {c : Char} (h : isWordStart c) (ha : c.toNat < 128) : isIdentifierStart c := by
  have hlow : ¬0x80 ≤ c.toNat := Nat.not_le.2 ha
  simpa [isWordStart, isIdentifierStart, hlow, or_assoc] using Or.inl h

theorem isIdentifier_of_isWord {name : String} (h : IsWord name.toList) (ha : IsAscii name) : isIdentifier name := by
  rw [isIdentifier]
  rw [IsAscii] at ha
  generalize name.toList = cs at h ha
  cases h with
  | @intro c cs hc hcs =>
      obtain ⟨hac, hacs⟩ := List.forall_mem_cons.1 ha
      refine Bool.and_eq_true_iff.2 ⟨isIdentifierStart_of_isWordStart hc hac, List.all_eq_true.2 ?_⟩
      intro d hd
      rcases Bool.or_eq_true_iff.1 (hcs d hd) with hs | hdigit
      · exact Bool.or_eq_true_iff.2 (.inl (isIdentifierStart_of_isWordStart hs (hacs d hd)))
      · exact Bool.or_eq_true_iff.2 (.inr hdigit)

end Script

namespace Token

structure Lexical (t : Token) : Prop where
  gap : IsAscii t.gap
  text : IsAscii t.text
  worded : t.Worded

theorem Lexical.word {t : Token} (h : t.Lexical) (hk : t.kind = .word) : isIdentifier t.text :=
  isIdentifier_of_isWord (h.worded.1 hk) h.text

theorem Lexical.name {t : Token} (h : t.Lexical) (hk : t.kind = .variable) : isIdentifier t.name := by
  apply isIdentifier_of_isWord (h.worded.2 hk)
  apply h.text.of_subset
  rw [Token.name, String.toList_ofList]
  exact List.tail_subset _

theorem subset_written {t : Token} {ts : List Token} (h : t ∈ ts) :
    t.gap.toList ⊆ (written ts).toList ∧ t.text.toList ⊆ (written ts).toList := by
  induction ts with
  | nil => cases h
  | cons u ts ih =>
      simp only [written, String.toList_append]
      rcases List.mem_cons.1 h with rfl | h
      · exact ⟨fun c hc => by simp [hc], fun c hc => by simp [hc]⟩
      · obtain ⟨hg, ht⟩ := ih h
        exact ⟨fun c hc => List.mem_append_right _ (hg hc), fun c hc => List.mem_append_right _ (ht hc)⟩

theorem isAscii_written {ts : List Token} (h : ∀ t ∈ ts, t.Lexical) : IsAscii (written ts) := by
  induction ts with
  | nil =>
      intro c hc
      cases hc
  | cons t ts ih =>
      have ht := h t (.head _)
      exact (ht.gap.append ht.text).append (ih fun u hu => h u (List.mem_cons_of_mem t hu))

theorem lexical_of_mem {source : String} (h : IsAscii source) {t : Token} (ht : t ∈ tokenize source) : t.Lexical := by
  obtain ⟨rest, hr⟩ := written_tokensFrom 0 source.toList
  obtain ⟨hgap, htext⟩ := subset_written ht
  have hs : (written (tokenize source)).toList ⊆ source.toList := by
    intro c hc
    rw [hr]
    exact List.mem_append_left rest hc
  exact ⟨h.of_subset (List.Subset.trans hgap hs), h.of_subset (List.Subset.trans htext hs), worded_of_mem ht⟩

end Token

theorem Script.isIdentifier_arguments {raw : String} (h : IsAscii raw) :
    ∀ as, arguments raw = .ok as → ∀ name, .variable name ∈ as → isIdentifier name := by
  intro as has name hm
  rcases arguments_eq_ok has _ hm with ⟨t, ht, hk, he⟩ | ⟨s, l, he, _⟩
  · cases he
    exact (lexical_of_mem h ht).name hk
  · cases he

abbrev Item.Lexical (Q : String → Prop) : Item → Prop :=
  Item.NamedBy (fun name => isIdentifier name) fun name => isIdentifier name ∨ Q name

variable {Q : String → Prop}

namespace Pattern

theorem isAscii_inner {inside : List Token} {close : Token} (h : ∀ t ∈ inside, t.Lexical) (hc : close.Lexical) :
    IsAscii (inner inside close) :=
  ((isAscii_written h).append hc.gap).trim

theorem items_lexical {ts : List Token} (h : ∀ t ∈ ts, t.Lexical) : ∀ item ∈ items ts, item.Lexical Q := by
  have hdrop {t : Token} {ts : List Token} (h : ∀ u ∈ t :: ts, u.Lexical) (n : Nat) : ∀ u ∈ ts.drop n, u.Lexical :=
    fun u hu => h u (List.mem_cons_of_mem t (List.mem_of_mem_drop hu))
  fun_induction items ts with
  | case1 => simp
  | case2 t ts _ ih => exact ih fun u hu => h u (List.mem_cons_of_mem t hu)
  | case3 t ts _ _ ih => exact List.forall_mem_cons.2 ⟨.fault _, ih (hdrop h _)⟩
  | case5 t ts _ m hm fault hi _ ih => exact List.forall_mem_cons.2 ⟨.fault _, ih (hdrop h _)⟩
  | case4 t ts _ m hm item hi ihb ih =>
      refine List.forall_mem_cons.2 ⟨?_, ih (hdrop h _)⟩
      cases recognize?_spells hm with
      | @assignment equals literal semi rest hk =>
          simp only [Match.item] at hi
          split at hi
          · cases hi
            exact .assignment ((h t (.head _)).name hk)
          · cases hi
      | @writtenOut n equals literal semi rest _ hk =>
          simp only [Match.item] at hi
          split at hi
          · cases hi
            exact .assignment ((h n (.tail _ (.head _))).word hk)
          · cases hi
      | call ht hk =>
          cases hi
          refine .call (.inl ((h t (.head _)).word ht)) (isIdentifier_arguments (isAscii_inner ?_ ?_))
          · exact fun u hu => h u (by simp [hu])
          · exact h _ (by simp)
      | @function n paren close brace last inside body rest params _ hn _ _ _ hps =>
          cases hi
          refine .function ((h n (.tail _ (.head _))).word hn) ?_ (ihb ?_)
          · intro p hp
            obtain ⟨u, hu, hk, rfl⟩ := mem_of_parameters? hps p hp
            exact (h u (by simp [hu])).name hk
          · exact fun u hu => h u (by simp [Match.body] at hu; simp [hu])

end Pattern

namespace Node

inductive Everywhere (p : Node → Prop) : Node → Prop
  | mk {kind : String} {named : Bool} {field : Option String} {span : Span} {children : List Node}
      (h : p (.mk kind named field span children)) (hc : ∀ c ∈ children, Everywhere p c) :
      Everywhere p (.mk kind named field span children)

variable {p : Node → Prop} {n c : Node}

theorem Everywhere.here (h : n.Everywhere p) : p n := by
  cases h with
  | mk h hc => exact h

theorem Everywhere.child (h : n.Everywhere p) (hc : c ∈ n.children) : c.Everywhere p := by
  cases h with
  | mk _ hall => exact hall c hc

theorem Everywhere.field (h : n.Everywhere p) {field : String} (hc : n.child? field = some c) : c.Everywhere p :=
  h.child (List.mem_of_find?_eq_some hc)

/-- What the grammar asks of names: names are words, variables are words behind a sigil, and functions and parameters
are named by the one and the other. Qualified names have `Q`. -/
def Spelled (source : String) (Q : String → Prop) (n : Node) : Prop :=
  match n.kind with
  | "name" => IsWord (n.text source).toList
  | "variable_name" => ∃ word, (n.text source).toList = '$' :: word ∧ IsWord word
  | "qualified_name" => Q (n.text source)
  | "function_definition" => ∀ c, n.child? "name" = some c → c.kind = "name"
  | "simple_parameter" => ∀ c, n.child? "name" = some c → c.kind = "variable_name"
  | _ => True

end Node

namespace SyntaxTree

section

variable {source : String} {n e : Node}

theorem isAscii_text (ha : IsAscii source) (n : Node) : IsAscii (n.text source) := ha.slice n.span

theorem isIdentifier_name (ha : IsAscii source) (h : n.Spelled source Q) (hk : n.kind = "name") :
    isIdentifier (n.text source) := by
  rw [Node.Spelled, hk] at h
  exact isIdentifier_of_isWord h (isAscii_text ha n)

theorem isIdentifier_variableName (ha : IsAscii source) (h : n.Spelled source Q) (hk : n.kind = "variable_name") :
    isIdentifier (variableName source n) := by
  rw [Node.Spelled, hk] at h
  obtain ⟨word, ht, hw⟩ := h
  have hv : (variableName source n).toList = word := by
    rw [variableName, String.toList_ofList, ht, List.dropWhile_cons_of_pos (by simp)]
    cases hw with
    | @intro c cs hc _ =>
        have hne : c ≠ '$' := by
          rintro rfl
          simp [isWordStart] at hc
        rw [List.dropWhile_cons_of_neg (by simpa using hne)]
  apply isIdentifier_of_isWord (by rwa [hv])
  apply (isAscii_text ha n).of_subset
  rw [hv, ht]
  exact List.subset_cons_self _ _

theorem isAscii_argumentText (ha : IsAscii source) (n : Node) : IsAscii (argumentText source n) := by
  unfold argumentText
  split
  · exact (isAscii_text ha n).stripPair _ _
  · exact isAscii_text ha n

theorem assignment_lexical (ha : IsAscii source) (he : e.Everywhere (Node.Spelled source Q)) :
    (Item.ofExcept (assignment source n e)).Lexical Q := by
  unfold assignment
  split
  · exact .fault _
  · exact .fault _
  · rename_i left right hl _
    obtain ⟨hleft, hk⟩ := Option.filter_eq_some_iff.1 hl
    cases scalar source right with
    | error f => exact .fault f
    | ok value => exact .assignment (isIdentifier_variableName ha (he.field hleft).here (beq_iff_eq.1 hk))

theorem call_lexical (ha : IsAscii source) (he : e.Everywhere (Node.Spelled source Q)) :
    (Item.ofExcept (call source n e)).Lexical Q := by
  unfold call
  split
  · exact .fault _
  · rename_i f hf
    obtain ⟨hfun, hk⟩ := Option.filter_eq_some_iff.1 hf
    have hs := (he.field hfun).here
    refine .call ?_ (isIdentifier_arguments ?_)
    · have hkind : f.kind = "name" ∨ f.kind = "qualified_name" := by simpa using hk
      rcases hkind with hname | hqualified
      · exact .inl (isIdentifier_name ha hs hname)
      · rw [Node.Spelled, hqualified] at hs
        exact .inr hs
    · split
      · exact (isAscii_text ha _).stripPair _ _
      · intro c hc
        cases hc

theorem print_lexical (ha : IsAscii source) : (print source n e).Lexical Q := by
  unfold print
  refine .call (.inl (by decide)) (isIdentifier_arguments ?_)
  split
  · exact isAscii_argumentText ha _
  · intro c hc
    cases hc

theorem echo_lexical (ha : IsAscii source) : (echo source n).Lexical Q := by
  unfold echo
  refine .call (.inl (by decide)) (isIdentifier_arguments (Text.IsAscii.commaList ?_))
  intro part hp
  obtain ⟨arg, _, rfl⟩ := List.mem_map.1 hp
  exact isAscii_argumentText ha arg

theorem expressionStatement_lexical (ha : IsAscii source) (hn : n.Everywhere (Node.Spelled source Q)) :
    (Item.ofExcept (expressionStatement source n)).Lexical Q := by
  unfold expressionStatement
  split
  · exact .fault _
  · rename_i e rest he
    have hs : e.Everywhere (Node.Spelled source Q) :=
      hn.child (List.mem_of_mem_filter (p := Node.named) (by rw [← Node.namedChildren, he]; exact .head _))
    split
    · exact assignment_lexical ha hs
    · exact call_lexical ha hs
    · exact print_lexical ha
    · exact .fault _

theorem parameters_lexical (ha : IsAscii source) {ps : List Node} {params : List String}
    (hs : ∀ p ∈ ps, p.Everywhere (Node.Spelled source Q)) (h : parameters source ps = .ok params) :
    ∀ p ∈ params, isIdentifier p := by
  induction ps generalizing params with
  | nil =>
      cases h
      simp
  | cons p ps ih =>
      have hrest : ∀ q ∈ ps, q.Everywhere (Node.Spelled source Q) := fun q hq => hs q (List.mem_cons_of_mem p hq)
      have hp := hs p (.head _)
      rw [parameters] at h
      split at h
      · exact ih hrest h
      · split at h
        · rename_i id hk hid
          cases hr : parameters source ps with
          | error f =>
              rw [hr] at h
              cases h
          | ok more =>
              rw [hr] at h
              cases h
              have hvar := hp.here
              rw [Node.Spelled, beq_iff_eq.1 hk] at hvar
              have hid' := isIdentifier_variableName ha (hp.field hid).here (hvar id hid)
              exact List.forall_mem_cons.2 ⟨hid', ih hrest hr⟩
        · cases h

theorem function_lexical (ha : IsAscii source) (hn : n.Everywhere (Node.Spelled source Q))
    (hk : n.kind = "function_definition") {items : List Item}
    (hb : ∀ b, n.child? "body" = some b → ∀ item ∈ items, item.Lexical Q) :
    (Item.ofExcept (function source n items)).Lexical Q := by
  unfold function
  split
  · exact .fault _
  · exact .fault _
  · rename_i id body hid hbody
    have hs := hn.here
    rw [Node.Spelled, hk] at hs
    have hname := isIdentifier_name ha (hn.field hid).here (hs id hid)
    cases hl : n.child? "parameters" with
    | none => exact .function hname (by simp) (hb body hbody)
    | some list =>
        cases hp : parameters source list.namedChildren with
        | error f =>
            simp only [hp]
            exact .fault f
        | ok params =>
            have hps : ∀ p ∈ list.namedChildren, p.Everywhere (Node.Spelled source Q) :=
              fun p hm => (hn.field hl).child (List.mem_of_mem_filter hm)
            simp only [hp]
            exact .function hname (parameters_lexical ha hps hp) (hb body hbody)

theorem item?_lexical (ha : IsAscii source) (hn : n.Everywhere (Node.Spelled source Q))
    (hb : ∀ b ∈ n.children, ∀ item ∈ items source b.children, item.Lexical Q) {item : Item}
    (h : item? source n = some item) : item.Lexical Q := by
  obtain ⟨kind, named, field, span, children⟩ := n
  unfold item? at h
  split at h
  case h_1 | h_2 | h_3 | h_4 => cases h
  · cases h
    exact expressionStatement_lexical ha hn
  · cases h
    exact echo_lexical ha
  · cases h
    refine function_lexical ha hn rfl ?_
    intro b hc
    have hitems : bodyItems source children = items source b.children := bodyItems_of_find hc
    rw [hitems]
    exact hb b (List.mem_of_find?_eq_some hc)
  · cases h
    exact .fault _
  · cases h
    exact .fault _

theorem exists_item?_of_mem {ns : List Node} {item : Item} (h : item ∈ items source ns) :
    ∃ n ∈ ns, item? source n = some item := by
  induction ns with
  | nil => cases h
  | cons n ns ih =>
      rw [items, List.mem_append] at h
      rcases h with h | h
      · split at h
        · exact ⟨n, .head _, Option.mem_toList.1 h⟩
        · cases h
      · obtain ⟨m, hm, hi⟩ := ih h
        exact ⟨m, List.mem_cons_of_mem n hm, hi⟩

/-- By induction on the tree, with the item of the node itself carried along for the body of a function. -/
theorem items_lexical (ha : IsAscii source) (h : n.Everywhere (Node.Spelled source Q)) :
    (∀ item, item? source n = some item → item.Lexical Q) ∧ ∀ item ∈ items source n.children, item.Lexical Q := by
  induction h with
  | mk h hc ih =>
      refine ⟨fun item hi => item?_lexical ha (.mk h hc) (fun b hb => (ih b hb).2) hi, ?_⟩
      intro item hm
      obtain ⟨c, hcm, hi⟩ := exists_item?_of_mem hm
      exact (ih c hcm).1 item hi

end

end SyntaxTree

def Source.Spelled (Q : String → Prop) : Source → Prop
  | .plain text => IsAscii text
  | .parsed text root => IsAscii text ∧ root.Everywhere (Node.Spelled text Q)

theorem Source.items_lexical {source : Source} (h : source.Spelled Q) : ∀ item ∈ source.items, item.Lexical Q := by
  cases source with
  | plain text => exact Pattern.items_lexical fun t ht => lexical_of_mem h ht
  | parsed text root => exact (SyntaxTree.items_lexical h.1 h.2).2

theorem Script.isIdentifier_builtin {entry property : String} (h : (entry, .math property) ∈ builtins) :
    isIdentifier property := by
  simp only [builtins, List.mem_cons, Prod.mk.injEq, Builtin.math.injEq, reduceCtorEq, and_false, false_or,
    List.not_mem_nil, or_false] at h
  rcases h with ⟨_, rfl⟩ | ⟨_, rfl⟩ | ⟨_, rfl⟩ | ⟨_, rfl⟩ | ⟨_, rfl⟩ | ⟨_, rfl⟩ | ⟨_, rfl⟩ | ⟨_, rfl⟩ <;> decide

/-- In the result of an ASCII source all names have the form of names in JavaScript, and none of them is reserved. In
place of a callee there may be a qualified name of the tree, which is not looked at. The text is the statements with
these names, each on lines of its own. -/
theorem transpile_names_lexical {mode : Mode} {source : Source} (hs : source.Spelled Q) {out : Transpiled}
    (h : transpile mode source = .ok out) :
    (∀ s ∈ out.program.body, s.NamedBy (fun name => isIdentifier name ∧ name ∉ reservedWords)
      fun name => (isIdentifier name ∨ Q name) ∧ name ∉ reservedWords) ∧
    out.text = Statement.renderLines out.program.body ∧
    (∀ word ∈ ["console", "log", "Math"], isIdentifier word) ∧
    ∀ entry property, (entry, .math property) ∈ builtins → isIdentifier property := by
  cases hl : Transpile.lowerAll mode source.pulled with
  | error f =>
      rw [transpile_of_lowerAll_error hl] at h
      cases h
  | ok lowered =>
      obtain ⟨drafts, ds⟩ := lowered
      cases (transpile_of_lowerAll hl).symm.trans h
      refine ⟨?_, (Draft.renderLines_nodes 0 drafts).symm, by decide, fun _ _ => isIdentifier_builtin⟩
      apply namedBy_nodes
      intro d hd start
      obtain ⟨item, hi, inner, hlower⟩ := Transpile.mem_of_lowerAll hl hd
      exact Transpile.lower_named (Source.items_lexical hs item (mem_of_mem_pulled hi)) hlower start

def forwarderTree : Node :=
  .mk "program" true none ⟨0, 25⟩
    [.mk "function_definition" true none ⟨0, 25⟩
      [.mk "name" true (some "name") ⟨9, 10⟩ [],
        .mk "formal_parameters" true (some "parameters") ⟨10, 14⟩
          [.mk "simple_parameter" true none ⟨11, 13⟩ [.mk "variable_name" true (some "name") ⟨11, 13⟩ []]],
        .mk "compound_statement" true (some "body") ⟨15, 25⟩
          [.mk "expression_statement" true none ⟨17, 23⟩
            [.mk "function_call_expression" true none ⟨17, 22⟩
              [.mk "name" true (some "function") ⟨17, 18⟩ [], .mk "arguments" true (some "arguments") ⟨18, 22⟩ []]]]]]

def forwarder : Source := .parsed "function f($a) \x7b g($a); \x7d" forwarderTree

theorem forwarder_spelled : forwarder.Spelled fun _ => False := by
  have hf : IsWord "f".toList := isWord_of_all (by decide)
  have hg : IsWord "g".toList := isWord_of_all (by decide)
  have ha : IsWord "a".toList := isWord_of_all (by decide)
  refine ⟨by simp [IsAscii], .mk trivial (List.forall_mem_singleton.2 (.mk ?_ ?_))⟩
  · intro c hc
    cases hc
    rfl
  · refine List.forall_mem_cons.2 ⟨.mk hf (by simp), List.forall_mem_cons.2 ⟨.mk trivial ?_, ?_⟩⟩
    · refine List.forall_mem_singleton.2 (.mk ?_ (List.forall_mem_singleton.2 (.mk ⟨_, rfl, ha⟩ (by simp))))
      intro c hc
      cases hc
      rfl
    · refine List.forall_mem_singleton.2 (.mk trivial (List.forall_mem_singleton.2 (.mk trivial ?_)))
      refine List.forall_mem_singleton.2 (.mk trivial (List.forall_mem_cons.2 ⟨.mk hg (by simp), ?_⟩))
      exact List.forall_mem_singleton.2 (.mk trivial (by simp))

theorem transpile_names_lexical_forwarder :
    ∃ out, forwarder.Spelled (fun _ => False) ∧ transpile .lenient forwarder = .ok out ∧
      out.text = "function f(a) \x7b\ng(a);\n\x7d\n" ∧ out.text = Statement.renderLines out.program.body ∧
      ∀ s ∈ out.program.body, s.NamedBy (fun name => isIdentifier name ∧ name ∉ reservedWords)
        fun name => (isIdentifier name ∨ False) ∧ name ∉ reservedWords := by
  have hp : forwarder.pulled = [.function ⟨⟨0, 25⟩, "function f($a) \x7b g($a); \x7d"⟩ "f" ["a"] "g($a);"
      [.call ⟨⟨17, 23⟩, "g($a);"⟩ "g" "$a"]] := rfl
  have ha : arguments "$a" = .ok [.variable "a"] := by cbv
  have hl : Transpile.lowerAll .lenient forwarder.pulled =
      .ok ([.function "f" ["a"] [.call ⟨.plain "g", [.variable "a"]⟩]], []) := by
    rw [hp]
    have hc : Transpile.invoke "g" "$a" = .ok (.call ⟨.plain "g", [.variable "a"]⟩) := by
      rw [Transpile.invoke, Call.ofSource, ha]
      rfl
    simp only [Transpile.lowerAll, Transpile.lower, hc]
    rfl
  have hout := transpile_of_lowerAll hl
  obtain ⟨hnames, htext, _⟩ := transpile_names_lexical forwarder_spelled hout
  exact ⟨_, forwarder_spelled, hout, rfl, htext, hnames⟩

/-- Words joined by backslashes, with or without one in front of the first. -/
def IsQualified (name : String) : Prop :=
  ∃ words : List String, (∀ word ∈ words, IsWord word.toList) ∧
    (name = "\\".intercalate words ∨ name = "\\" ++ "\\".intercalate words)

def qualifiedTree : Node :=
  .mk "program" true none ⟨0, 13⟩
    [.mk "php_tag" true none ⟨0, 5⟩ [],
      .mk "expression_statement" true none ⟨6, 13⟩
        [.mk "function_call_expression" true none ⟨6, 12⟩
          [.mk "qualified_name" true (some "function") ⟨6, 10⟩
            [.mk "\\" false none ⟨6, 7⟩ [], .mk "name" true none ⟨7, 10⟩ []],
          .mk "arguments" true (some "arguments") ⟨10, 12⟩
            [.mk "(" false none ⟨10, 11⟩ [], .mk ")" false none ⟨11, 12⟩ []]],
        .mk ";" false none ⟨12, 13⟩ []]]

def qualifiedCall : Source := .parsed "<?php \\foo();" qualifiedTree

theorem qualifiedCall_spelled : qualifiedCall.Spelled IsQualified := by
  have hfoo : IsWord "foo".toList := isWord_of_all (by decide)
  refine ⟨by simp [IsAscii], .mk trivial (List.forall_mem_cons.2 ⟨.mk trivial (by simp), ?_⟩)⟩
  refine List.forall_mem_singleton.2 (.mk trivial (List.forall_mem_cons.2 ⟨.mk trivial ?_, ?_⟩))
  · refine List.forall_mem_cons.2 ⟨.mk ⟨["foo"], by simpa using hfoo, .inr (by decide)⟩ ?_, ?_⟩
    · refine List.forall_mem_cons.2 ⟨.mk trivial (by simp), List.forall_mem_singleton.2 (.mk hfoo (by simp))⟩
    · refine List.forall_mem_singleton.2 (.mk trivial (List.forall_mem_cons.2 ⟨.mk trivial (by simp), ?_⟩))
      exact List.forall_mem_singleton.2 (.mk trivial (by simp))
  · exact List.forall_mem_singleton.2 (.mk trivial (by simp))

theorem transpile_names_qualified :
    qualifiedCall.Spelled IsQualified ∧ ∃ out, transpile .lenient qualifiedCall = .ok out ∧
      out.text = "\\foo();\n" ∧ out.diagnostics = [] ∧
      ¬∀ s ∈ out.program.body, s.NamedBy (fun name => isIdentifier name) fun name => isIdentifier name := by
  have hp : qualifiedCall.pulled = [.call ⟨⟨6, 13⟩, "\\foo();"⟩ "\\foo" ""] := rfl
  have ha : arguments "" = .ok [] := by cbv
  have hl : Transpile.lowerAll .lenient qualifiedCall.pulled = .ok ([.call ⟨.plain "\\foo", []⟩], []) := by
    rw [hp]
    have hc : Transpile.invoke "\\foo" "" = .ok (.call ⟨.plain "\\foo", []⟩) := by
      rw [Transpile.invoke, Call.ofSource, ha]
      rfl
    simp only [Transpile.lowerAll, Transpile.lower, hc]
    rfl
  refine ⟨qualifiedCall_spelled, _, transpile_of_lowerAll hl, rfl, rfl, ?_⟩
  intro h
  have hs := h ((Draft.call ⟨.plain "\\foo", []⟩).node 0) (.head _)
  rw [Draft.node] at hs
  cases hs with
  | call hc _ =>
      cases hc with
      | plain hname => exact absurd hname (by decide)

end PhpTranspiler
