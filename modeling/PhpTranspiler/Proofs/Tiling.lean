import PhpTranspiler.Proofs.Recognition
import PhpTranspiler.Proofs.TokenPlaces

namespace PhpTranspiler.Pattern

open Nesting Token

def Spans (block : List Token) (span : Span) : Prop :=
  ∃ first last, block.head? = some first ∧ block.getLast? = some last ∧ span = ⟨first.start, last.stop⟩

/-- A block of tokens has the given place in `source`, and the text that goes with the place is the text
that stands there. -/
structure Marks (source : String) (block : List Token) (place : Excerpt) : Prop where
  spans : Spans block place.span
  text : Text.StandsAt source place.span place.text

inductive Declares : List Token → List Token → Prop
  | intro {t name paren close brace last : Token} {inside body : List Token}
      (ht : t.isWord "function") (hn : name.kind = .word) (hp : paren.kind = .opening .round)
      (hi : Balanced .round inside) (hc : close.kind = .closing .round)
      (hb : brace.kind = .opening .curly) (hbody : Balanced .curly body)
      (hl : last.kind = .closing .curly) :
      Declares (t :: name :: paren :: inside ++ close :: brace :: body ++ [last]) body

mutual

/-- The tokens are one block for each item, in the order of the items, with nothing but tags before,
between and behind the blocks. -/
inductive Tiles (source : String) : List Token → List Item → Prop
  | done {tags : List Token} (ht : ∀ t ∈ tags, t.isTag) : Tiles source tags []
  | next {tags block rest : List Token} {item : Item} {items : List Item} (ht : ∀ t ∈ tags, t.isTag)
      (hb : Covers source block item) (hr : Tiles source rest items) :
      Tiles source (tags ++ block ++ rest) (item :: items)

/-- A block of tokens is the one that an item was read from. The body of a function is tiled by the items
that were read from it. -/
inductive Covers (source : String) : List Token → Item → Prop
  | assignment {block : List Token} {place : Excerpt} {name : String} {value : Scalar}
      (hm : Marks source block place) : Covers source block (.assignment place name value)
  | call {block : List Token} {place : Excerpt} {callee args : String} (hm : Marks source block place) :
      Covers source block (.call place callee args)
  | function {block body : List Token} {place : Excerpt} {name text : String} {params : List String}
      {items : List Item} (hm : Marks source block place) (hd : Declares block body)
      (hb : Tiles source body items) : Covers source block (.function place name params text items)
  | unrecognized {block : List Token} {place : Excerpt} (hm : Marks source block place) :
      Covers source block (.fault (.unrecognized place))
  | unsupported {block : List Token} {place : Excerpt} {construct : String}
      (hs : Spans block place.span) : Covers source block (.fault (.unsupported construct place))

end

section

variable {source : String} {t : Token} {ts : List Token} {m : Match}

theorem excerpt_marks (h : StandIn source (t :: ts)) (more : Nat) :
    Marks source (t :: ts.take more) (excerpt t ts more) := by
  have hb : StandIn source (t :: ts.take more) := by simpa using h.take (more + 1)
  obtain ⟨last, hl⟩ : ∃ last, (t :: ts.take more).getLast? = some last :=
    ⟨_, List.getLast?_eq_some_getLast (by simp)⟩
  refine ⟨⟨t, last, rfl, hl, ?_⟩, hb.spelled⟩
  rw [hb.getLast_stop hl]
  rfl

theorem Spells.standIn_body (h : Spells t ts m) (hs : StandIn source ts) : StandIn source m.body := by
  cases h with
  | function =>
      have hr := hs.append.1.drop 2
      exact (hr.append.2.drop 2)
  | assignment | writtenOut | call => exact hs.take 0

theorem Spells.declares {name text : String} {params : List String} {body : List Token} {more : Nat}
    (h : Spells t ts ⟨.function name params body text, more⟩) : Declares (t :: ts.take more) body := by
  cases h with
  | @function name paren close brace last inside _ rest _ ht hn hp hi hc _ hb hbody hl =>
      have hd := Declares.intro ht hn hp hi hc hb hbody hl
      rwa [take_function]

/-- A match is an item with the tokens of the match for its block. Where its string does not decode, the
block is the chunk that is skipped instead, which is the same one. -/
theorem Spells.covers (h : Spells t ts m) (hs : StandIn source (t :: ts)) {body : List Item}
    (hb : Tiles source m.body body) :
    (∀ item, m.item t ts body = .ok item → Covers source (t :: ts.take m.more) item) ∧
      ∀ fault, m.item t ts body = .error fault →
        Covers source (t :: ts.take (chunk t ts)) (.fault fault) := by
  have hm := excerpt_marks hs m.more
  obtain ⟨form, more⟩ := m
  cases form with
  | assignment name literal =>
      rw [h.chunk_eq]
      cases hd : Quoted.decode? literal.text with
      | none =>
          refine ⟨?_, ?_⟩
          · intro item hi
            simp [Match.item, hd] at hi
          · intro fault hf
            simp only [Match.item, hd, Except.error.injEq] at hf
            subst hf
            exact .unsupported hm.spans
      | some value =>
          refine ⟨?_, ?_⟩
          · intro item hi
            simp only [Match.item, hd, Except.ok.injEq] at hi
            subst hi
            exact .assignment hm
          · intro fault hf
            simp [Match.item, hd] at hf
  | call callee args =>
      refine ⟨?_, ?_⟩
      · intro item hi
        cases hi
        exact .call hm
      · intro fault hf
        cases hf
  | function name params tokens text =>
      refine ⟨?_, ?_⟩
      · intro item hi
        cases hi
        exact .function hm h.declares hb
      · intro fault hf
        cases hf

theorem Tiles.tag {items : List Item} (ht : t.isTag) (h : Tiles source ts items) :
    Tiles source (t :: ts) items := by
  cases h with
  | done hts => exact .done (by simpa [ht] using hts)
  | @next tags block rest item items hts hb hr =>
      have hn : Tiles source ((t :: tags) ++ block ++ rest) (item :: items) :=
        .next (by simpa [ht] using hts) hb hr
      simpa using hn

theorem Tiles.block {item : Item} {items : List Item} (n : Nat)
    (hb : Covers source (t :: ts.take n) item) (hr : Tiles source (ts.drop n) items) :
    Tiles source (t :: ts) (item :: items) := by
  have hn : Tiles source ([] ++ (t :: ts.take n) ++ ts.drop n) (item :: items) :=
    .next (by simp) hb hr
  simpa using hn

end

theorem items_tiles {source : String} {ts : List Token} (h : StandIn source ts) :
    Tiles source ts (items ts) := by
  fun_induction items ts with
  | case1 => exact .done (by simp)
  | case2 t ts ht ih => exact .tag ht (ih h.tail)
  | case3 t ts _ _ ih => exact .block _ (.unrecognized (excerpt_marks h _)) (ih (h.tail.drop _))
  | case4 t ts _ m hm item hi ihb ih =>
      have hs := recognize?_spells hm
      have hb := ihb (hs.standIn_body h.tail)
      exact .block _ ((hs.covers h hb).1 item hi) (ih (h.tail.drop _))
  | case5 t ts _ m hm fault hf ihb ih =>
      have hs := recognize?_spells hm
      have hb := ihb (hs.standIn_body h.tail)
      exact .block _ ((hs.covers h hb).2 fault hf) (ih (h.tail.drop _))

/-- Reading loses no token and reads none twice, at any depth of functions. -/
theorem scan_tiles_tokens (source : String) : Tiles source (Lexer.tokenize source) (scan source) :=
  items_tiles (Lexer.standIn_tokenize source)

end PhpTranspiler.Pattern
