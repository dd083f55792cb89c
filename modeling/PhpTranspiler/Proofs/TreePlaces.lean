import PhpTranspiler.Proofs.Indexed.Run
import PhpTranspiler.Proofs.Interpolation

namespace PhpTranspiler

def Span.Inside (inner outer : Span) : Prop := outer.start ≤ inner.start ∧ inner.stop ≤ outer.stop

instance (inner outer : Span) : Decidable (inner.Inside outer) := inferInstanceAs (Decidable (_ ∧ _))

theorem Span.Inside.refl (span : Span) : span.Inside span := ⟨Nat.le_refl _, Nat.le_refl _⟩

theorem Span.Inside.trans {a b c : Span} (hab : a.Inside b) (hbc : b.Inside c) : a.Inside c :=
  ⟨Nat.le_trans hbc.1 hab.1, Nat.le_trans hab.2 hbc.2⟩

theorem Text.StandsAt.start_le_stop {text part : String} {span : Span} (h : StandsAt text span part) :
    span.start ≤ span.stop := by
  rw [h.span_eq]
  exact Nat.le_add_right _ _

namespace Node

def asides : List String := ["comment", "php_tag", "text_interpolation", "empty_statement"]

def isStatement (n : Node) : Bool := n.named && !asides.contains n.kind

def statements (n : Node) : List Node := n.children.filter isStatement

/-- The nodes of a tree lie between characters of the source, each inside its parent and behind its elder siblings. -/
inductive WellPlaced (source : String) : Node → Prop
  | mk {kind : String} {named : Bool} {field : Option String} {span : Span} {children : List Node}
      (ht : ∃ part, Text.StandsAt source span part) (hin : ∀ c ∈ children, c.span.Inside span)
      (ho : children.Pairwise fun a b => a.span.stop ≤ b.span.start) (hc : ∀ c ∈ children, WellPlaced source c) :
      WellPlaced source (.mk kind named field span children)

variable {source : String} {n m c : Node}

theorem WellPlaced.standsAt (h : n.WellPlaced source) : Text.StandsAt source n.span (n.text source) := by
  cases h with
  | mk ht hin ho hc =>
      obtain ⟨part, ht⟩ := ht
      rw [Node.text, Node.span, ht.slice_eq]
      exact ht

structure Under (source : String) (n m : Node) : Prop where
  wellPlaced : m.WellPlaced source
  inside : m.span.Inside n.span

theorem WellPlaced.self (h : n.WellPlaced source) : Under source n n := ⟨h, .refl _⟩

theorem Under.child (h : Under source n m) (hc : c ∈ m.children) : Under source n c := by
  obtain ⟨hm, hin⟩ := h
  cases hm with
  | mk _ hi _ hw => exact ⟨hw c hc, (hi c hc).trans hin⟩

theorem Under.namedChild (h : Under source n m) (hc : c ∈ m.namedChildren) : Under source n c :=
  h.child (List.mem_of_mem_filter hc)

theorem Under.field (h : Under source n m) {field : String} (hc : m.child? field = some c) : Under source n c :=
  h.child (List.mem_of_find?_eq_some hc)

end Node

namespace SyntaxTree

mutual

/-- What a statement is read into: a record with the place of the statement and the text that stands there, or a
fault that lies inside it. The items of a function are read from the statements of its body. -/
inductive ReadOf (source : String) : Node → Item → Prop
  | assignment {n : Node} {place : Excerpt} {name : String} {value : Scalar} (hp : place.span = n.span)
      (ht : Text.StandsAt source place.span place.text) : ReadOf source n (.assignment place name value)
  | call {n : Node} {place : Excerpt} {callee args : String} (hp : place.span = n.span)
      (ht : Text.StandsAt source place.span place.text) : ReadOf source n (.call place callee args)
  | function {n b : Node} {place : Excerpt} {name text : String} {params : List String} {items : List Item}
      (hp : place.span = n.span) (ht : Text.StandsAt source place.span place.text) (hb : n.child? "body" = some b)
      (hs : AllReadOf source b.statements items) : ReadOf source n (.function place name params text items)
  | fault {n : Node} {f : Fault} (hin : f.span.Inside n.span) (ht : Text.StandsAt source f.span f.place.text) :
      ReadOf source n (.fault f)

inductive AllReadOf (source : String) : List Node → List Item → Prop
  | nil : AllReadOf source [] []
  | cons {n : Node} {ns : List Node} {item : Item} {items : List Item} (h : ReadOf source n item)
      (hl : ∀ later ∈ items, item.span.stop ≤ later.span.start) (hs : AllReadOf source ns items) :
      AllReadOf source (n :: ns) (item :: items)

end

section

variable {source : String} {n m e : Node}

theorem ReadOf.inside {item : Item} (h : ReadOf source n item) : item.span.Inside n.span := by
  cases h with
  | assignment hp _ => exact hp ▸ .refl _
  | call hp _ => exact hp ▸ .refl _
  | function hp _ _ _ => exact hp ▸ .refl _
  | fault hin _ => exact hin

theorem ReadOf.standsAt {item : Item} (h : ReadOf source n item) : ∃ part, Text.StandsAt source item.span part := by
  cases h with
  | assignment _ ht => exact ⟨_, ht⟩
  | call _ ht => exact ⟨_, ht⟩
  | function _ ht _ _ => exact ⟨_, ht⟩
  | fault _ ht => exact ⟨_, ht⟩

theorem readOf_excerpt (h : n.Under source m) : ReadOf source n (.fault (.unrecognized (m.excerpt source))) :=
  .fault h.inside h.wellPlaced.standsAt

theorem readOf_unsupported (h : n.Under source m) (construct : String) :
    ReadOf source n (.fault (unsupported source construct m)) :=
  .fault h.inside h.wellPlaced.standsAt

theorem string_error {f : Fault} (h : string source m = .error f) :
    ∃ construct, f = unsupported source construct m := by
  unfold string at h
  split at h
  · cases h
  · cases h
    exact ⟨_, rfl⟩

theorem scalar_error {f : Fault} (h : scalar source m = .error f) :
    ∃ construct, f = unsupported source construct m := by
  unfold scalar at h
  split at h
  · split at h
    · cases h
      exact ⟨_, rfl⟩
    · exact string_error h
  · exact string_error h
  · cases h
  · cases h
  · cases h
  · cases h
  · dsimp only at h
    split at h
    · cases h
    · cases h
      exact ⟨_, rfl⟩
  · cases h
    exact ⟨_, rfl⟩

theorem readOf_assignment (hn : n.WellPlaced source) (he : n.Under source e) :
    ReadOf source n (Item.ofExcept (assignment source n e)) := by
  unfold assignment
  split
  · exact readOf_unsupported hn.self _
  · exact readOf_unsupported hn.self _
  · rename_i left right _ hr
    cases hs : scalar source right with
    | error f =>
        obtain ⟨construct, rfl⟩ := scalar_error hs
        exact readOf_unsupported (he.field hr) construct
    | ok value => exact .assignment rfl hn.standsAt

theorem readOf_call (hn : n.WellPlaced source) : ReadOf source n (Item.ofExcept (call source n e)) := by
  unfold call
  split
  · exact readOf_unsupported hn.self _
  · exact .call rfl hn.standsAt

theorem readOf_expressionStatement (hn : n.WellPlaced source) :
    ReadOf source n (Item.ofExcept (expressionStatement source n)) := by
  unfold expressionStatement
  split
  · exact readOf_unsupported hn.self _
  · rename_i e rest he
    have hu : n.Under source e := hn.self.namedChild (he ▸ .head _)
    split
    · exact readOf_assignment hn hu
    · exact readOf_call hn
    · exact .call rfl hn.standsAt
    · exact readOf_unsupported hn.self _

theorem parameters_error {ps : List Node} {f : Fault} (h : parameters source ps = .error f) :
    ∃ p ∈ ps, ∃ construct, f = unsupported source construct p := by
  induction ps with
  | nil => cases h
  | cons p ps ih =>
      have hrest (h : parameters source ps = .error f) :
          ∃ q ∈ p :: ps, ∃ construct, f = unsupported source construct q := by
        obtain ⟨q, hq, hf⟩ := ih h
        exact ⟨q, List.mem_cons_of_mem p hq, hf⟩
      rw [parameters] at h
      split at h
      · exact hrest h
      · split at h
        · cases hr : parameters source ps with
          | error g =>
              rw [hr] at h
              cases h
              exact hrest hr
          | ok params =>
              rw [hr] at h
              cases h
        · cases h
          exact ⟨p, .head _, _, rfl⟩

theorem readOf_function {items : List Item} (hn : n.WellPlaced source)
    (hb : ∀ b, n.child? "body" = some b → AllReadOf source b.statements items) :
    ReadOf source n (Item.ofExcept (function source n items)) := by
  unfold function
  split
  · exact readOf_unsupported hn.self _
  · exact readOf_unsupported hn.self _
  · rename_i id body _ hbody
    cases hl : n.child? "parameters" with
    | none => exact .function rfl hn.standsAt hbody (hb body hbody)
    | some list =>
        cases hp : parameters source list.namedChildren with
        | error f =>
            obtain ⟨p, hmem, construct, rfl⟩ := parameters_error hp
            simp only [hp]
            exact readOf_unsupported ((hn.self.field hl).namedChild hmem) construct
        | ok params =>
            simp only [hp]
            exact .function rfl hn.standsAt hbody (hb body hbody)

theorem item?_aside (ha : n.kind ∈ Node.asides) : item? source n = none := by
  obtain ⟨kind, named, field, span, children⟩ := n
  simp only [Node.asides, List.mem_cons, List.not_mem_nil, or_false] at ha
  rcases ha with rfl | rfl | rfl | rfl <;> rfl

theorem item?_statement (hn : n.WellPlaced source) (hs : n.isStatement)
    (hb : ∀ b ∈ n.children, AllReadOf source b.statements (items source b.children)) :
    ∃ item, item? source n = some item ∧ ReadOf source n item := by
  have hk : n.kind ∉ Node.asides := by simpa using (Bool.and_eq_true_iff.1 hs).2
  obtain ⟨kind, named, field, span, children⟩ := n
  unfold item?
  split
  case h_1 | h_2 | h_3 | h_4 => simp [Node.kind, Node.asides] at hk
  · exact ⟨_, rfl, readOf_expressionStatement hn⟩
  · exact ⟨_, rfl, .call rfl hn.standsAt⟩
  · refine ⟨_, rfl, readOf_function hn ?_⟩
    intro b hc
    have hitems : bodyItems source children = items source b.children := bodyItems_of_find hc
    rw [hitems]
    exact hb b (List.mem_of_find?_eq_some hc)
  · exact ⟨_, rfl, readOf_excerpt hn.self⟩
  · exact ⟨_, rfl, readOf_unsupported hn.self _⟩

theorem allReadOf_items {ns : List Node} (ho : ns.Pairwise fun a b => a.span.stop ≤ b.span.start)
    (h : ∀ n ∈ ns, n.isStatement → ∃ item, item? source n = some item ∧ ReadOf source n item) :
    AllReadOf source (ns.filter Node.isStatement) (items source ns) ∧
      ∀ item ∈ items source ns, ∃ n ∈ ns, item.span.Inside n.span := by
  induction ns with
  | nil => exact ⟨.nil, by simp [items]⟩
  | cons n ns ih =>
      obtain ⟨hlater, ho⟩ := List.pairwise_cons.1 ho
      obtain ⟨hs, hin⟩ := ih ho fun m hm => h m (List.mem_cons_of_mem n hm)
      have hrest : ∀ item ∈ items source ns, ∃ m ∈ n :: ns, item.span.Inside m.span := by
        intro item hi
        obtain ⟨m, hm, hi⟩ := hin item hi
        exact ⟨m, List.mem_cons_of_mem n hm, hi⟩
      by_cases hn : n.isStatement
      · obtain ⟨item, hi, hr⟩ := h n (.head _) hn
        have he : items source (n :: ns) = item :: items source ns := by
          rw [items, if_pos (Bool.and_eq_true_iff.1 hn).1, hi]
          rfl
        rw [he, List.filter_cons_of_pos hn]
        refine ⟨.cons hr ?_ hs, List.forall_mem_cons.2 ⟨⟨n, .head _, hr.inside⟩, hrest⟩⟩
        intro later hm
        obtain ⟨m, hm, hl⟩ := hin later hm
        exact Nat.le_trans hr.inside.2 (Nat.le_trans (hlater m hm) hl.1)
      · have he : items source (n :: ns) = items source ns := by
          rw [items]
          split
          · rename_i hnamed
            have ha : n.kind ∈ Node.asides := by simpa [Node.isStatement, hnamed] using hn
            rw [item?_aside ha]
            rfl
          · rfl
        rw [he, List.filter_cons_of_neg hn]
        exact ⟨hs, hrest⟩

/-- By induction on the tree. The statement itself is carried along, since the body of a function lies one level below
the children that the induction gives. -/
theorem readOf_of_wellPlaced (h : n.WellPlaced source) :
    (n.isStatement → ∃ item, item? source n = some item ∧ ReadOf source n item) ∧
      AllReadOf source n.statements (items source n.children) := by
  induction h with
  | mk ht hin ho hc ih =>
      refine ⟨fun hs => item?_statement (.mk ht hin ho hc) hs fun b hb => (ih b hb).2, ?_⟩
      exact (allReadOf_items ho fun c hm => (ih c hm).1).1

theorem AllReadOf.pairwise {ns : List Node} {items : List Item} (h : AllReadOf source ns items) :
    items.Pairwise fun a b => a.span.stop ≤ b.span.start := by
  induction items generalizing ns with
  | nil => exact .nil
  | cons item items ih =>
      cases h with
      | cons _ hl hs => exact .cons hl (ih hs)

theorem AllReadOf.standsAt {ns : List Node} {items : List Item} (h : AllReadOf source ns items) :
    ∀ item ∈ items, ∃ part, Text.StandsAt source item.span part := by
  induction items generalizing ns with
  | nil => simp
  | cons item items ih =>
      cases h with
      | cons hr _ hs => exact List.forall_mem_cons.2 ⟨hr.standsAt, ih hs⟩

end

end SyntaxTree

theorem Item.reach_of_pairwise {source : String} {before after : List Item} {item : Item}
    (ho : (before ++ item :: after).Pairwise fun a b => a.span.stop ≤ b.span.start)
    (ht : ∃ part, Text.StandsAt source item.span part) :
    reach 0 before ≤ item.span.start ∧ reach 0 (before ++ [item]) = item.span.stop := by
  have hle : reach 0 before ≤ item.span.start :=
    reach_le (Nat.zero_le _) fun earlier he => (List.pairwise_append.1 ho).2.2 earlier he item (.head _)
  obtain ⟨part, ht⟩ := ht
  refine ⟨hle, ?_⟩
  have hstop : reach 0 (before ++ [item]) = max item.span.stop (reach 0 before) := by
    rw [reach, List.foldl_append]
    rfl
  rw [hstop]
  exact Nat.max_eq_left (Nat.le_trans hle ht.start_le_stop)

theorem Indexed.inTurn_of_pairwise {source : String} {consumed : Nat} {items : List Item} (hc : IsCut source consumed)
    (hle : ∀ item ∈ items, consumed ≤ item.span.start)
    (ho : items.Pairwise fun a b => a.span.stop ≤ b.span.start)
    (ht : ∀ item ∈ items, ∃ part, Text.StandsAt source item.span part) : InTurn source consumed items := by
  induction items generalizing consumed with
  | nil => exact .nil hc
  | cons item items ih =>
      obtain ⟨part, hp⟩ := ht item (.head _)
      obtain ⟨hlater, ho⟩ := List.pairwise_cons.1 ho
      have hmax : max item.span.stop consumed = item.span.stop :=
        Nat.max_eq_left (Nat.le_trans (hle item (.head _)) hp.start_le_stop)
      refine .cons hc (hle item (.head _)) ?_
      rw [hmax]
      exact ih (isCut_stop hp) hlater ho fun later hm => ht later (List.mem_cons_of_mem item hm)

namespace SyntaxTree

/-- Each statement of a well placed tree is read into one item, in order and at its own place, and so are those of the
bodies of functions. So no item starts before what is dealt with, which then ends where the item does, and a run that
checks this and cuts the source there goes through. -/
theorem scan_in_order {source : String} {root : Node} (h : root.WellPlaced source) :
    AllReadOf source root.statements (scan source root) ∧
      (∀ before item after, scan source root = before ++ item :: after →
        Item.reach 0 before ≤ item.span.start ∧ Item.reach 0 (before ++ [item]) = item.span.stop) ∧
      ∀ mode, Indexed.through mode source .start (scan source root) =
        .ok (Run.start.through mode (Text.inkEnd source) (scan source root)) := by
  have hread : AllReadOf source root.statements (scan source root) := (readOf_of_wellPlaced h).2
  have hcut : Indexed.IsCut source 0 := ⟨source, Text.standsAt_self source⟩
  refine ⟨hread, ?_, ?_⟩
  · intro before item after he
    have ho := hread.pairwise
    have ht := hread.standsAt
    rw [he] at ho ht
    exact Item.reach_of_pairwise ho (ht item (by simp))
  · intro mode
    exact Indexed.through_eq
      (Indexed.inTurn_of_pairwise hcut (fun _ _ => Nat.zero_le _) hread.pairwise hread.standsAt)

def copyNode : Node :=
  .mk "expression_statement" true none ⟨15, 23⟩
    [.mk "assignment_expression" true none ⟨15, 22⟩
      [.mk "variable_name" true (some "left") ⟨15, 17⟩ [], .mk "variable_name" true (some "right") ⟨20, 22⟩ []]]

def copierNode : Node :=
  .mk "function_definition" true none ⟨0, 25⟩
    [.mk "name" true (some "name") ⟨9, 10⟩ [], .mk "formal_parameters" true (some "parameters") ⟨10, 12⟩ [],
      .mk "compound_statement" true (some "body") ⟨13, 25⟩ [copyNode]]

def copierTree : Node := .mk "program" true none ⟨0, 31⟩ [copierNode, .mk "comment" true none ⟨26, 31⟩ []]

def copier : String := "function f() \x7b $a = $b; \x7d # end"

theorem copyNode_wellPlaced : copyNode.WellPlaced copier := by
  refine .mk ⟨"$a = $b;", "function f() \x7b ", " \x7d # end", by decide, by decide⟩ (by decide) (by decide) ?_
  refine List.forall_mem_singleton.2 ?_
  refine .mk ⟨"$a = $b", "function f() \x7b ", "; \x7d # end", by decide, by decide⟩ (by decide) (by decide) ?_
  refine List.forall_mem_cons.2 ⟨?_, List.forall_mem_singleton.2 ?_⟩
  · exact .mk ⟨"$a", "function f() \x7b ", " = $b; \x7d # end", by decide, by decide⟩ (by simp) .nil (by simp)
  · exact .mk ⟨"$b", "function f() \x7b $a = ", "; \x7d # end", by decide, by decide⟩ (by simp) .nil (by simp)

theorem copierTree_wellPlaced : copierTree.WellPlaced copier := by
  refine .mk ⟨copier, "", "", by decide, by decide⟩ (by decide) (by decide) ?_
  refine List.forall_mem_cons.2 ⟨?_, List.forall_mem_singleton.2 ?_⟩
  · refine .mk ⟨"function f() \x7b $a = $b; \x7d", "", " # end", by decide, by decide⟩ (by decide) (by decide) ?_
    refine List.forall_mem_cons.2 ⟨?_, List.forall_mem_cons.2 ⟨?_, List.forall_mem_singleton.2 ?_⟩⟩
    · exact .mk ⟨"f", "function ", "() \x7b $a = $b; \x7d # end", by decide, by decide⟩ (by simp) .nil (by simp)
    · exact .mk ⟨"()", "function f", " \x7b $a = $b; \x7d # end", by decide, by decide⟩ (by simp) .nil (by simp)
    · exact .mk ⟨"\x7b $a = $b; \x7d", "function f() ", " # end", by decide, by decide⟩ (by decide) (by decide)
        (List.forall_mem_singleton.2 copyNode_wellPlaced)
  · exact .mk ⟨"# end", "function f() \x7b $a = $b; \x7d ", "", by decide, by decide⟩ (by simp) .nil (by simp)

theorem scan_in_order_copier :
    copierTree.WellPlaced copier ∧ copierTree.statements = [copierNode] ∧
      scan copier copierTree = [.function ⟨⟨0, 25⟩, "function f() \x7b $a = $b; \x7d"⟩ "f" [] "$a = $b;"
        [.fault (.unsupported "variable_name" ⟨⟨20, 22⟩, "$b"⟩)]] ∧
      AllReadOf copier copierTree.statements (scan copier copierTree) ∧
      ∀ mode, Indexed.through mode copier .start (scan copier copierTree) =
        .ok (Run.start.through mode (Text.inkEnd copier) (scan copier copierTree)) := by
  obtain ⟨hread, _, hrun⟩ := scan_in_order copierTree_wellPlaced
  exact ⟨copierTree_wellPlaced, rfl, rfl, hread, hrun⟩

end SyntaxTree

end PhpTranspiler
