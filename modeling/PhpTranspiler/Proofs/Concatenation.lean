import PhpTranspiler.Proofs.Accounting
import PhpTranspiler.Proofs.Locality
import PhpTranspiler.Proofs.Lookahead
import PhpTranspiler.Proofs.Shift

namespace PhpTranspiler

open Script

namespace Transpile

variable {mode : Mode}

theorem lowerAll_append {items more : List Item} {drafts others : List Draft} {ds rest : List Diagnostic}
    (h : lowerAll mode items = .ok (drafts, ds)) (hm : lowerAll mode more = .ok (others, rest)) :
    lowerAll mode (items ++ more) = .ok (drafts ++ others, ds ++ rest) := by
  induction items generalizing drafts ds with
  | nil =>
      cases h
      exact hm
  | cons item items ih =>
      obtain ⟨draft, inner, tail, tailDs, hi, hs, rfl, rfl⟩ := lowerAll_cons h
      rw [List.cons_append, lowerAll_of_lower hi (ih hs), List.append_assoc, List.append_assoc]

theorem settle_shift (n : Nat) (place : Excerpt) (r : Except Refusal Draft) :
    settle (place.shift n) r = ((settle place r).1, (settle place r).2.map (Diagnostic.shift n)) := by
  cases r <;> rfl

theorem report_shift (n : Nat) {f : Fault} {ds : List Diagnostic} (h : report mode f = .ok ds) :
    report mode (f.shift n) = .ok (ds.map (Diagnostic.shift n)) := by
  cases mode with
  | lenient =>
      cases h
      cases f <;> rfl
  | strict =>
      cases f with
      | unrecognized place => cases h
      | unsupported construct place =>
          cases h
          rfl

mutual

theorem lower_shift (n : Nat) : (item : Item) → ∀ {draft ds}, lower mode item = .ok (draft, ds) →
    lower mode (item.shift n) = .ok (draft, ds.map (Diagnostic.shift n))
  | .assignment place name value, draft, ds, h => by
      rw [lower, Except.ok.injEq] at h
      rw [Item.shift, lower, settle_shift, h]
  | .call place callee args, draft, ds, h => by
      rw [lower, Except.ok.injEq] at h
      rw [Item.shift, lower, settle_shift, h]
  | .function place name params text items, draft, ds, h => by
      rw [Item.shift, lower]
      rcases lower_function_eq_ok h with ⟨r, hc, rfl, rfl⟩ | ⟨body, hc, hs, rfl⟩
      · rw [hc]
        rfl
      · rw [hc, lowerAll_shift n items hs]
        rfl
  | .fault f, draft, ds, h => by
      obtain ⟨hr, rfl⟩ := lower_fault_eq_ok h
      rw [Item.shift, lower, report_shift n hr]
      rfl

theorem lowerAll_shift (n : Nat) : (items : List Item) → ∀ {drafts ds},
    lowerAll mode items = .ok (drafts, ds) →
      lowerAll mode (Item.shiftAll n items) = .ok (drafts, ds.map (Diagnostic.shift n))
  | [], drafts, ds, h => by
      cases h
      rfl
  | item :: items, drafts, ds, h => by
      obtain ⟨draft, inner, more, rest, hi, hs, rfl, rfl⟩ := lowerAll_cons h
      rw [Item.shiftAll, lowerAll_of_lower (lower_shift n item hi) (lowerAll_shift n items hs), List.map_append]

end

end Transpile

/-- A source that ends where a statement ends. The brackets of each form are balanced, and the last token
is a semicolon or a closing brace with nothing behind it. -/
structure Finished (source : String) : Prop where
  balanced : ∀ b, Nesting.Balanced b (Lexer.tokenize source)
  ended : Lexer.Ended 0 source.toList

namespace Finished

variable {source : String}

theorem complete (h : Finished source) : Pattern.Complete (Lexer.tokenize source) := by
  constructor
  · exact fun b => ⟨0, h.balanced b⟩
  · intro t ht
    obtain ⟨last, hl, hk, _⟩ := h.ended
    cases hl.symm.trans ht
    exact hk

theorem tokenize_append (h : Finished source) (more : String) :
    Lexer.tokenize (source ++ more) =
      Lexer.tokenize source ++ Lexer.tokensFrom source.utf8ByteSize more.toList := by
  have ht := (Lexer.tokensFrom_append h.ended more.toList).2
  simpa [Lexer.tokenize] using ht

theorem scan_append (h : Finished source) {more : String}
    (hm : Pattern.continues (Lexer.tokenize more) = false) :
    Pattern.scan (source ++ more) =
      Pattern.scan source ++ (Pattern.scan more).map (Item.shift source.utf8ByteSize) := by
  have hc : Pattern.continues (Lexer.tokensFrom source.utf8ByteSize more.toList) = false := by
    rw [← Nat.add_zero source.utf8ByteSize, Lexer.tokensFrom_shift, Pattern.continues_shift]
    exact hm
  rw [Pattern.scan, h.tokenize_append, Pattern.items_append _ h.complete hc, Pattern.scan_shift]
  rfl

theorem inkEnd_append (h : Finished source) (more : String) :
    Text.inkEnd (source ++ more) = source.utf8ByteSize + Text.inkEnd more := by
  have hc := (Lexer.tokensFrom_append h.ended more.toList).1
  have hblank : ∀ c, source.toList.getLast? = some c → Text.isBlank c = false := by
    intro c hl
    rcases hc with hc | hc <;> (rw [hc] at hl; cases hl; decide)
  rw [Text.inkEnd, String.toList_append, Text.trimEnd_append hblank, Text.size_append, Text.size_toList]
  rfl

theorem reach_scan (h : Finished source) : Item.reach 0 (Pattern.scan source) = source.utf8ByteSize := by
  have hstand := Lexer.standIn_tokenize source
  have htiles : Pattern.Tiles source _ (Pattern.scan source) := Pattern.items_tiles hstand
  apply Nat.le_antisymm
  · apply Item.reach_le (Nat.zero_le _)
    intro item hi
    obtain ⟨t, ht, he⟩ := htiles.exists_stop item hi
    rw [he]
    exact (hstand.standsAt ht).stop_le
  · obtain ⟨last, hl, hk, hs⟩ := h.ended
    have htag : last.isTag = false := by rcases hk with hk | hk <;> simp [Token.isTag, hk]
    obtain ⟨item, hi, he⟩ := htiles.exists_last hl htag
    have hle := (Item.le_reach 0 _).2 item hi
    rw [he, hs] at hle
    simpa using hle

theorem reach_lt (h : Finished source) {first rest : List Item} {item : Item}
    (hi : Pattern.scan source = first ++ item :: rest) : Item.reach 0 first < source.utf8ByteSize := by
  obtain ⟨last, hl, _, hs⟩ := h.ended
  obtain ⟨before, us, hts, hrest, hle⟩ := Pattern.items_suffix (Lexer.standIn_tokenize source) hi
  have hmem : last ∈ us := by
    change (Lexer.tokenize source).getLast? = some last at hl
    cases hu : us.getLast? with
    | none =>
        rw [List.getLast?_eq_none_iff.1 hu, Pattern.items] at hrest
        cases hrest
    | some t =>
        rw [hts, List.getLast?_append, hu] at hl
        cases hl
        exact List.mem_of_getLast? hu
  have hreach : Item.reach 0 first ≤ last.start :=
    Item.reach_le (Nat.zero_le _) fun item hm => hle item hm last hmem
  have hlt := Lexer.start_lt_stop (List.mem_of_getLast? hl)
  rw [hs, Text.size_toList] at hlt
  omega

end Finished

namespace Run

/-- Items are taken as long as those before them leave some ink. -/
theorem pulled_of_reach_lt {ink consumed : Nat} {items : List Item}
    (h : ∀ first item rest, items = first ++ item :: rest → Item.reach consumed first < ink)
    (more : List Item) :
    pulled ink consumed (items ++ more) = items ++ pulled ink (Item.reach consumed items) more := by
  induction items generalizing consumed with
  | nil => rfl
  | cons item items ih =>
      have hc : consumed < ink := h [] item items rfl
      rw [List.cons_append, pulled, if_pos hc, ih, List.cons_append]
      · rfl
      · intro first x rest he
        exact h (item :: first) x rest (by rw [he]; rfl)

theorem pulled_shift (n ink consumed : Nat) (items : List Item) :
    pulled (n + ink) (n + consumed) (items.map (Item.shift n)) =
      (pulled ink consumed items).map (Item.shift n) := by
  induction items generalizing consumed with
  | nil => rfl
  | cons item items ih =>
      rw [List.map_cons, pulled, pulled]
      by_cases hc : consumed < ink
      · have hmax : max (n + item.span.stop) (n + consumed) = n + max item.span.stop consumed := by omega
        rw [if_pos (by omega), if_pos hc, List.map_cons, Item.span_shift]
        change _ :: pulled _ (max (n + item.span.stop) (n + consumed)) _ = _
        rw [hmax, ih]
      · rw [if_neg (by omega), if_neg hc]
        rfl

end Run

theorem Finished.pulled_eq_scan {source : String} (h : Finished source) :
    (Source.plain source).pulled = Pattern.scan source := by
  have hink : Text.inkEnd source = source.utf8ByteSize := by
    have ha := h.inkEnd_append ""
    rwa [String.append_empty] at ha
  have hp := Run.pulled_of_reach_lt (fun first item rest hi => hink ▸ h.reach_lt hi) []
  rwa [List.append_nil, Run.pulled, List.append_nil] at hp

theorem Finished.pulled_append {source : String} (h : Finished source) {more : String}
    (hm : Pattern.continues (Lexer.tokenize more) = false) :
    (Source.plain (source ++ more)).pulled =
      (Source.plain source).pulled ++ ((Source.plain more).pulled).map (Item.shift source.utf8ByteSize) := by
  have hlt (first : List Item) (item : Item) (rest : List Item)
      (hi : Pattern.scan source = first ++ item :: rest) :
      Item.reach 0 first < source.utf8ByteSize + Text.inkEnd more :=
    Nat.lt_of_lt_of_le (h.reach_lt hi) (Nat.le_add_right _ _)
  have hp := Run.pulled_of_reach_lt hlt ((Pattern.scan more).map (Item.shift source.utf8ByteSize))
  rw [← h.scan_append hm, h.reach_scan] at hp
  rw [h.pulled_eq_scan, Source.pulled, Source.text, h.inkEnd_append]
  refine hp.trans ?_
  exact congrArg _ (Run.pulled_shift _ _ 0 _)

theorem Summary.ofBody_append (n : Nat) (body more : List Statement) (skipped others : Nat) :
    ofBody (body ++ more.map (Statement.shift n)) (skipped + others) =
      ofBody body skipped + ofBody more others := by
  have hk : (more.map (Statement.shift n)).map Statement.kind = more.map Statement.kind := by
    rw [List.map_map]
    congr 1
    funext s
    exact Statement.kind_shift n s
  show Summary.mk _ _ _ _ = Summary.mk _ _ _ _
  simp [ofBody, List.count_append, hk]

/-- The result for a source of `n` bytes and behind it the result for another one. Places in the source move
by `n`, and places in the text by the length of the first text. -/
def Transpiled.append (n : Nat) (left right : Transpiled) : Transpiled where
  program := ⟨⟨0, (left.text ++ right.text).utf8ByteSize⟩,
    left.program.body ++ right.program.body.map (Statement.shift left.text.utf8ByteSize)⟩
  text := left.text ++ right.text
  diagnostics := left.diagnostics ++ right.diagnostics.map (Diagnostic.shift n)
  summary := left.summary + right.summary

theorem transpile_of_pulled {source left right : Source} {n : Nat}
    (h : source.pulled = left.pulled ++ right.pulled.map (Item.shift n)) :
    ∃ l r, transpile .lenient left = .ok l ∧ transpile .lenient right = .ok r ∧
      transpile .lenient source = .ok (l.append n r) := by
  obtain ⟨drafts, ds, hl, _⟩ := Transpile.lowerAll_lenient left.pulled
  obtain ⟨others, rest, hr, _⟩ := Transpile.lowerAll_lenient right.pulled
  have hs : Transpile.lowerAll .lenient source.pulled =
      .ok (drafts ++ others, ds ++ rest.map (Diagnostic.shift n)) := by
    rw [h, ← Item.shiftAll_eq_map]
    exact Transpile.lowerAll_append hl (Transpile.lowerAll_shift n _ hr)
  have hnodes : Draft.nodes 0 (drafts ++ others) = Draft.nodes 0 drafts ++
      (Draft.nodes 0 others).map (Statement.shift (Draft.lines drafts).utf8ByteSize) := by
    rw [Draft.nodes_append, Nat.zero_add, ← Statement.shiftAll_eq_map, ← Draft.nodes_shift, Nat.add_zero]
  have hskip : source.pulled.length - (drafts ++ others).length =
      (left.pulled.length - drafts.length) + (right.pulled.length - others.length) := by
    have h1 := Transpile.length_le_of_lowerAll hl
    have h2 := Transpile.length_le_of_lowerAll hr
    rw [h, List.length_append, List.length_append, List.length_map]
    omega
  refine ⟨_, _, transpile_of_lowerAll hl, transpile_of_lowerAll hr, ?_⟩
  rw [transpile_of_lowerAll hs, Draft.lines_append, hnodes, hskip, Summary.ofBody_append]
  rfl

theorem Pattern.scan_empty : scan "" = [] := by
  have ht : Lexer.tokenize "" = [] := Lexer.tokensFrom_of_gap rfl 0
  rw [scan, ht, items]

theorem Pattern.scan_shift_zero (source : String) : (scan source).map (Item.shift 0) = scan source :=
  (scan_shift 0 source).symm

theorem Source.pulled_shift_zero (source : String) :
    (plain source).pulled.map (Item.shift 0) = (plain source).pulled := by
  have hp := Run.pulled_shift 0 (Text.inkEnd source) 0 (Pattern.scan source)
  rw [Pattern.scan_shift_zero, Nat.zero_add, Nat.zero_add] at hp
  exact hp.symm

/-- Statements are read on their own. Behind the end of a statement the result goes on as if the source
started there. -/
theorem transpile_append {a b : String} (ha : a = "" ∨ Finished a)
    (hb : ∀ t, (Lexer.tokenize b).head? = some t →
      ∀ word ∈ ["else", "elseif", "catch", "finally"], t.isWord word = false) :
    Pattern.scan (a ++ b) = Pattern.scan a ++ (Pattern.scan b).map (Item.shift a.utf8ByteSize) ∧
      ∃ left right, transpile .lenient (.plain a) = .ok left ∧
        transpile .lenient (.plain b) = .ok right ∧
        transpile .lenient (.plain (a ++ b)) = .ok (left.append a.utf8ByteSize right) := by
  have hc : Pattern.continues (Lexer.tokenize b) = false := by
    cases ht : Lexer.tokenize b with
    | nil => rfl
    | cons t ts => simpa [Pattern.continues] using hb t (by rw [ht]; rfl)
  rcases ha with rfl | ha
  · have hs : Pattern.scan ("" ++ b) = Pattern.scan "" ++ (Pattern.scan b).map (Item.shift 0) := by
      rw [String.empty_append, Pattern.scan_empty, Pattern.scan_shift_zero, List.nil_append]
    have hp : (Source.plain ("" ++ b)).pulled =
        (Source.plain "").pulled ++ (Source.plain b).pulled.map (Item.shift 0) := by
      rw [String.empty_append, Source.pulled_shift_zero, Source.pulled, Source.pulled, Source.items,
        Source.items, Pattern.scan_empty]
      rfl
    exact ⟨hs, transpile_of_pulled hp⟩
  · exact ⟨ha.scan_append hc, transpile_of_pulled (ha.pulled_append hc)⟩

theorem transpile_append_elsewhere :
    Finished "$a = \"1\"; if ($x) \x7b f(); \x7d" ∧
      Pattern.scan ("$a = \"1\"; if ($x) \x7b f(); \x7d" ++ " elsewhere($a);") =
        Pattern.scan "$a = \"1\"; if ($x) \x7b f(); \x7d" ++
          (Pattern.scan " elsewhere($a);").map (Item.shift 26) ∧
      ∃ left right, transpile .lenient (.plain "$a = \"1\"; if ($x) \x7b f(); \x7d") = .ok left ∧
        transpile .lenient (.plain " elsewhere($a);") = .ok right ∧
        transpile .lenient (.plain ("$a = \"1\"; if ($x) \x7b f(); \x7d" ++ " elsewhere($a);")) =
          .ok (left.append 26 right) := by
  have ha : Finished "$a = \"1\"; if ($x) \x7b f(); \x7d" := by
    constructor
    · intro b
      cases b <;> decide +kernel
    · exact ⟨⟨" ", 25, .closing .curly, "\x7d"⟩, by decide +kernel, .inr rfl, by decide +kernel⟩
  have hb : ∀ t, (Lexer.tokenize " elsewhere($a);").head? = some t →
      ∀ word ∈ ["else", "elseif", "catch", "finally"], t.isWord word = false := by
    intro t ht
    have he : (Lexer.tokenize " elsewhere($a);").head? = some ⟨" ", 1, .word, "elsewhere"⟩ := by
      decide +kernel
    cases he.symm.trans ht
    decide +kernel
  exact ⟨ha, transpile_append (.inr ha) hb⟩

end PhpTranspiler
