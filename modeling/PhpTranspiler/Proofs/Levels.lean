import PhpTranspiler.Proofs.Partners

namespace PhpTranspiler.Pattern

open Nesting Token

section

variable {t : Token} {ts : List Token}

theorem chunkTail_zero (h : ∀ b, t.kind ≠ .opening b ∧ t.kind ≠ .closing b) (ts : List Token) :
    chunkTail 0 (t :: ts) = 0 ∨ chunkTail 0 (t :: ts) = 1 ∨ chunkTail 0 (t :: ts) = chunkTail 0 ts + 1 := by
  cases hk : t.kind with
  | opening b => exact absurd hk (h b).1
  | closing b => exact absurd hk (h b).2
  | _ => simp [chunkTail, hk]

/-- Up to the end of a chunk all that was open before it is closed, if it is by the end of the tokens. -/
theorem stack?_take_chunkTail {stack : List Bracket} (h : stack? stack ts = some []) :
    stack? stack (ts.take (chunkTail stack.length ts)) = some [] := by
  induction ts generalizing stack with
  | nil => exact h
  | cons t ts ih =>
      rcases kind_cases t with ⟨b, hk⟩ | ⟨b, hk⟩ | hk
      · rw [stack?_opening hk] at h
        rw [chunkTail_opening hk, List.take_succ_cons, stack?_opening hk]
        exact ih h
      · obtain ⟨below, rfl, hbelow⟩ := exists_of_stack?_closing hk h
        have hend : chunkTail (below.length + 1) (t :: ts) = if b = .curly ∧ below.length = 0 ∧ !continues ts then 1
            else chunkTail below.length ts + 1 := by
          simp only [chunkTail, hk]
        rw [List.length_cons, hend]
        split
        · rename_i hb
          rw [List.length_eq_zero_iff.1 hb.2.1, List.take_succ_cons, stack?_closing hk, List.take_zero, stack?_nil]
        · rw [List.take_succ_cons, stack?_closing hk]
          exact ih hbelow
      · rw [stack?_plain hk] at h
        cases stack with
        | cons top below =>
            rw [List.length_cons, chunkTail_plain hk, List.take_succ_cons, stack?_plain hk]
            exact ih h
        | nil =>
            rcases chunkTail_zero hk ts with hz | hz | hz
            all_goals rw [List.length_nil, hz]
            · rfl
            · rw [List.take_succ_cons, stack?_plain hk, List.take_zero, stack?_nil]
            · rw [List.take_succ_cons, stack?_plain hk]
              exact ih h

theorem wellNested_chunk (h : WellNested (t :: ts)) : WellNested (t :: ts.take (chunk t ts)) := by
  rw [wellNested_iff] at h ⊢
  rcases kind_cases t with ⟨b, hk⟩ | ⟨b, hk⟩ | hk
  · have hc : chunk t ts = chunkTail 1 ts := by simp only [chunk, hk]
    rw [stack?_opening hk] at h
    rw [hc, stack?_opening hk]
    exact stack?_take_chunkTail h
  · obtain ⟨below, hs, _⟩ := exists_of_stack?_closing hk h
    cases hs
  · rw [stack?_plain hk] at h ⊢
    by_cases hs : t.kind = .semicolon
    · simp [chunk, hs]
    · have hc : chunk t ts = chunkTail 0 ts := by
        cases hkind : t.kind with
        | opening b => exact absurd hkind (hk b).1
        | closing b => exact absurd hkind (hk b).2
        | semicolon => exact absurd hkind hs
        | _ => simp only [chunk, hkind]
      rw [hc]
      exact stack?_take_chunkTail h

end

mutual

/-- The tokens of a level are one block for each item, in the order of the items, with nothing but tags before, between
and behind the blocks. Each block is closed in itself. -/
inductive Level (source : String) : List Token → List Item → Prop
  | done {tags : List Token} (ht : ∀ t ∈ tags, t.isTag) : Level source tags []
  | next {tags block rest : List Token} {item : Item} {items : List Item} (ht : ∀ t ∈ tags, t.isTag)
      (hw : WellNested block) (hb : Forms source block item) (hr : Level source rest items) :
      Level source (tags ++ block ++ rest) (item :: items)

/-- A block is the one of an item. The brackets of a call and of a function enclose what is nested in them, and the body
of a function is a level of its own. -/
inductive Forms (source : String) : List Token → Item → Prop
  | assignment {block : List Token} {place : Excerpt} {name : String} {value : Scalar}
      (hm : Marks source block place) : Forms source block (.assignment place name value)
  | call {t paren close semi : Token} {inside : List Token} {place : Excerpt} {args : String}
      (hp : paren.kind = .opening .round) (hi : WellNested inside) (hc : close.kind = .closing .round)
      (hm : Marks source (t :: paren :: inside ++ [close, semi]) place) :
      Forms source (t :: paren :: inside ++ [close, semi]) (.call place t.text args)
  | function {t name paren close brace last : Token} {inside body : List Token} {place : Excerpt}
      {params : List String} {text : String} {items : List Item} (hp : paren.kind = .opening .round)
      (hi : WellNested inside) (hc : close.kind = .closing .round) (hb : brace.kind = .opening .curly)
      (hbody : WellNested body) (hl : last.kind = .closing .curly) (hitems : Level source body items)
      (hm : Marks source (t :: name :: paren :: inside ++ close :: brace :: body ++ [last]) place) :
      Forms source (t :: name :: paren :: inside ++ close :: brace :: body ++ [last])
        (.function place name.text params text items)
  | fault {block : List Token} {fault : Fault} (hs : Spans block fault.span) : Forms source block (.fault fault)

end

section

variable {source : String} {t : Token} {ts : List Token} {m : Match}

theorem item_assignment_eq_ok {name : String} {literal : Token} {more : Nat} {body : List Item} {item : Item}
    (h : (Match.mk (.assignment name literal) more).item t ts body = .ok item) :
    ∃ value, item = .assignment (excerpt t ts more) name (.text value) := by
  simp only [Match.item] at h
  split at h
  · cases h
    exact ⟨_, rfl⟩
  · cases h

theorem Spells.forms (h : Spells t ts m) (hin : StandIn source (t :: ts)) (hw : WellNested (t :: ts)) :
    WellNested m.body ∧ WellNested (t :: ts.take m.more) ∧
      ∀ body item, Level source m.body body → m.item t ts body = .ok item → Forms source (t :: ts.take m.more) item := by
  have hm := excerpt_marks hin m.more
  cases h with
  | @assignment equals literal semi rest ht he hl hs =>
      refine ⟨.nil, ?_, fun body item _ hi => ?_⟩
      · exact .plain (by simp [ht]) (.plain (by simp [he]) (.plain (by simp [hl]) (.plain (by simp [hs]) .nil)))
      · obtain ⟨value, rfl⟩ := item_assignment_eq_ok hi
        exact .assignment hm
  | @writtenOut name equals literal semi rest ht hn he hl hs =>
      have hk := kind_of_isWord ht
      refine ⟨.nil, ?_, fun body item _ hi => ?_⟩
      · exact .plain (by simp [hk]) (.plain (by simp [hn])
          (.plain (by simp [he]) (.plain (by simp [hl]) (.plain (by simp [hs]) .nil))))
      · obtain ⟨value, rfl⟩ := item_assignment_eq_ok hi
        exact .assignment hm
  | @call paren close semi inside rest ht hk hp hbal hc hs =>
      have hinside : WellNested inside := .of_balanced [t] hw hp hbal hc
      rw [take_call] at hm ⊢
      refine ⟨.nil, .plain (by simp [ht]) (.enclosed hp hinside hc (.plain (by simp [hs]) .nil)), fun body item _ hi => ?_⟩
      cases hi
      exact .call hp hinside hc hm
  | @function name paren close brace last inside body rest params ht hn hp hbal hc hps hbrace hbody hl =>
      have hinside : WellNested inside := .of_balanced [t, name] (by simpa using hw) hp hbal hc
      have hblock : WellNested body :=
        .of_balanced (t :: name :: paren :: inside ++ [close]) (by simpa using hw) hbrace hbody hl
      rw [take_function] at hm ⊢
      refine ⟨hblock, ?_, fun items item hitems hi => ?_⟩
      · have hfun : WellNested (paren :: inside ++ close :: (brace :: body ++ [last])) :=
          .enclosed hp hinside hc (.enclosed hbrace hblock hl .nil)
        have hk := kind_of_isWord ht
        have hall : WellNested (t :: name :: (paren :: inside ++ close :: (brace :: body ++ [last]))) :=
          .plain (by simp [hk]) (.plain (by simp [hn]) hfun)
        simpa using hall
      · cases hi
        exact .function hp hinside hc hbrace hblock hl hitems hm

theorem Level.tag {items : List Item} (ht : t.isTag) (h : Level source ts items) : Level source (t :: ts) items := by
  cases h with
  | done hts => exact .done (by simpa [ht] using hts)
  | @next tags block rest item items hts hw hb hr =>
      have hn : Level source ((t :: tags) ++ block ++ rest) (item :: items) :=
        .next (by simpa [ht] using hts) hw hb hr
      simpa using hn

theorem Level.block {item : Item} {items : List Item} (n : Nat) (hw : WellNested (t :: ts))
    (hblock : WellNested (t :: ts.take n)) (hb : Forms source (t :: ts.take n) item)
    (hr : WellNested (ts.drop n) → Level source (ts.drop n) items) : Level source (t :: ts) (item :: items) := by
  have he : t :: ts = [] ++ (t :: ts.take n) ++ ts.drop n := by simp
  rw [he] at hw ⊢
  exact .next (by simp) hblock hb (hr (hw.of_append hblock))

theorem items_level (hin : StandIn source ts) (hw : WellNested ts) : Level source ts (items ts) := by
  fun_induction items ts with
  | case1 => exact .done (by simp)
  | case2 t ts ht ih =>
      have htag : WellNested [t] := by
        have hk : t.kind = .openTag ∨ t.kind = .closeTag := by simpa [isTag] using ht
        exact .plain (by rcases hk with hk | hk <;> simp [hk]) .nil
      have hsplit : WellNested ([t] ++ ts) := hw
      exact .tag ht (ih hin.tail (hsplit.of_append htag))
  | case3 t ts _ _ ih =>
      exact .block _ hw (wellNested_chunk hw) (.fault (excerpt_marks hin _).spans) (ih (hin.tail.drop _))
  | case4 t ts _ m hm item hi ihb ih =>
      obtain ⟨hbody, hblock, hforms⟩ := (recognize?_spells hm).forms hin hw
      have hlevel := ihb ((recognize?_spells hm).standIn_body hin.tail) hbody
      exact .block _ hw hblock (hforms _ item hlevel hi) (ih (hin.tail.drop _))
  | case5 t ts _ m hm fault hf ihb ih =>
      have htiles := items_tiles ((recognize?_spells hm).standIn_body hin.tail)
      have hcovers := ((recognize?_spells hm).covers hin htiles).2 fault hf
      exact .block _ hw (wellNested_chunk hw) (.fault hcovers.spans) (ih (hin.tail.drop _))

end

/-- Where all brackets of a source are closed in order, no item ends inside brackets that it did not open, at any depth of
functions. The bracket that is found for one that opens, counting those of its form alone, is its partner then. -/
theorem scan_respects_nesting {source : String} (h : WellNested (Lexer.tokenize source)) :
    Level source (Lexer.tokenize source) (scan source) ∧
      ∀ ts, WellNested ts → ∀ before t after b, ts = before ++ t :: after → t.kind = .opening b →
        (∃ inside u rest, enclosed? b 0 after = some (inside, u, rest)) ∧
          ∀ inside u rest, enclosed? b 0 after = some (inside, u, rest) ↔ Partner b after inside u rest := by
  refine ⟨items_level (Lexer.standIn_tokenize source) h, ?_⟩
  rintro ts hw before t after b rfl hk
  exact ⟨hw.exists_enclosed? hk, fun inside u rest => hw.enclosed?_iff hk⟩

set_option maxRecDepth 2000 in
theorem scan_respects_nesting_arms :
    let source := "if ($a[0]) \x7b \x7d else \x7b g(); \x7d function h() \x7b k((3)); \x7d"
    WellNested (Lexer.tokenize source) ∧ Level source (Lexer.tokenize source) (scan source) := by
  intro source
  have h : WellNested (Lexer.tokenize source) := by
    rw [wellNested_iff]
    cbv
  exact ⟨h, (scan_respects_nesting h).1⟩

end PhpTranspiler.Pattern
