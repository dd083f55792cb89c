import PhpTranspiler.Proofs.Tiling

namespace PhpTranspiler

namespace Text

theorem not_isDigit_of_isBlank {c : Char} (h : isBlank c) : c.isDigit = false := by
  rw [Bool.eq_false_iff]
  intro hd
  simp only [Char.isDigit, Bool.and_eq_true, decide_eq_true_eq, ge_iff_le, UInt32.le_iff_toNat_le] at hd
  have hv : c.toNat = c.val.toNat := rfl
  have h0 : ('0' : Char).val.toNat = 48 := rfl
  have h9 : ('9' : Char).val.toNat = 57 := rfl
  simp only [isBlank, Bool.or_eq_true, Bool.and_eq_true, decide_eq_true_eq, beq_iff_eq] at h
  omega

theorem append_split_of_size_le {as bs cs ds : List Char} (h : as ++ bs = cs ++ ds)
    (hs : size cs ≤ size as) : ∃ mid, as = cs ++ mid ∧ ds = mid ++ bs := by
  rcases List.append_eq_append_iff.1 h with ⟨mid, rfl, rfl⟩ | ⟨mid, rfl, rfl⟩
  · rw [size_append] at hs
    have hm : mid = [] := eq_nil_of_size_eq_zero (by omega)
    subst hm
    exact ⟨[], by simp, by simp⟩
  · exact ⟨mid, rfl, rfl⟩

theorem trimEnd_append_blanks (cs : List Char) :
    ∃ blanks, cs = trimEnd cs ++ blanks ∧ ∀ c ∈ blanks, isBlank c := by
  refine ⟨(cs.reverse.takeWhile isBlank).reverse, ?_, ?_⟩
  · rw [trimEnd, ← List.reverse_append, List.takeWhile_append_dropWhile, List.reverse_reverse]
  · intro c hc
    exact List.all_eq_true.1 List.all_takeWhile c (List.mem_reverse.1 hc)

theorem trimEnd_append {cs : List Char} (h : ∀ c, cs.getLast? = some c → isBlank c = false)
    (ds : List Char) : trimEnd (cs ++ ds) = cs ++ trimEnd ds := by
  have hcs : cs.reverse.dropWhile isBlank = cs.reverse := by
    cases hr : cs.reverse with
    | nil => rfl
    | cons c rest =>
        have hc : cs.getLast? = some c := by simp [← List.head?_reverse, hr]
        rw [List.dropWhile_cons_of_neg (by simp [h c hc])]
  rw [trimEnd, trimEnd, List.reverse_append, List.dropWhile_append, hcs]
  split
  · rename_i he
    simp [List.isEmpty_iff.1 he]
  · simp

theorem StandsAt.isBlank_of_inkEnd_le {text part : String} {span : Span} (h : StandsAt text span part)
    (hi : inkEnd text ≤ span.start) : ∀ c ∈ part.toList, isBlank c := by
  obtain ⟨before, after, rfl, rfl⟩ := h
  obtain ⟨blanks, hb, hall⟩ := trimEnd_append_blanks (before ++ part ++ after).toList
  have he : before.toList ++ (part.toList ++ after.toList) =
      trimEnd (before ++ part ++ after).toList ++ blanks := by
    rw [← hb]
    simp
  obtain ⟨mid, _, rfl⟩ := append_split_of_size_le he (by simpa [inkEnd] using hi)
  intro c hc
  apply hall
  simp [hc]

end Text

def Item.reach (consumed : Nat) (items : List Item) : Nat :=
  items.foldl (fun n item => max item.span.stop n) consumed

theorem Item.reach_le {consumed n : Nat} {items : List Item} (hc : consumed ≤ n)
    (h : ∀ item ∈ items, item.span.stop ≤ n) : reach consumed items ≤ n := by
  induction items generalizing consumed with
  | nil => exact hc
  | cons item items ih =>
      apply ih
      · exact Nat.max_le.2 ⟨h item (.head _), hc⟩
      · exact fun x hx => h x (List.mem_cons_of_mem item hx)

theorem Item.le_reach (consumed : Nat) (items : List Item) :
    consumed ≤ reach consumed items ∧ ∀ item ∈ items, item.span.stop ≤ reach consumed items := by
  induction items generalizing consumed with
  | nil => exact ⟨Nat.le_refl _, by simp⟩
  | cons item items ih =>
      obtain ⟨hc, hall⟩ := ih (max item.span.stop consumed)
      refine ⟨Nat.le_trans (Nat.le_max_right _ _) hc, ?_⟩
      intro x hx
      rcases List.mem_cons.1 hx with rfl | hx
      · exact Nat.le_trans (Nat.le_max_left _ _) hc
      · exact hall x hx

namespace Lexer

theorem single_of_isBlank {c : Char} (h : Text.isBlank c) : single c = .mark := by
  unfold single
  split
  case h_10 => rfl
  all_goals exact absurd h (by decide)

theorem lexeme_of_isBlank {c : Char} (h : Text.isBlank c) (cs : List Char) :
    (lexeme c cs).1 = .word ∨ (lexeme c cs).1 = .mark := by
  have hd := Text.not_isDigit_of_isBlank h
  have hne (d : Char) (hn : Text.isBlank d = false) : c ≠ d := by
    rintro rfl
    simp [h] at hn
  by_cases hw : isWordStart c
  · simp [lexeme, hd, hw]
  · have hq : Quote.ofChar? c = none := by
      simp [Quote.ofChar?, hne '"' (by decide), hne '\'' (by decide)]
    simp [lexeme, hd, hw, hne '$' (by decide), hne '<' (by decide), hne '?' (by decide), hq,
      single_of_isBlank h]

theorem kind_of_blank_text {start : Nat} {cs : List Char} {t : Token} (ht : t ∈ tokensFrom start cs)
    (hb : ∀ c ∈ t.text.toList, Text.isBlank c) : t.kind = .word ∨ t.kind = .mark := by
  fun_induction tokensFrom start cs with
  | case1 => simp at ht
  | case2 start cs gap c rest hc kind n hl before text place ih =>
      rcases List.mem_cons.1 ht with rfl | ht
      · have hk := lexeme_of_isBlank (hb c (by simp [text])) rest
        rwa [hl] at hk
      · exact ih ht

end Lexer

namespace Pattern

open Token

theorem recognize?_of_marks {t : Token} {ts : List Token}
    (h : ∀ u ∈ ts, u.kind = .word ∨ u.kind = .mark) : recognize? t ts = none := by
  rw [Option.eq_none_iff_forall_ne_some]
  intro m hm
  cases recognize?_spells hm with
  | assignment _ he => simpa [he] using h _ (.head _)
  | writtenOut _ _ he => simpa [he] using h _ (.tail _ (.head _))
  | call _ _ hp => simpa [hp] using h _ (.head _)
  | function _ _ hp => simpa [hp] using h _ (.tail _ (.head _))

theorem chunkTail_of_marks {ts : List Token} (h : ∀ u ∈ ts, u.kind = .word ∨ u.kind = .mark) :
    chunkTail 0 ts = ts.length := by
  induction ts with
  | nil => rfl
  | cons t ts ih =>
      have ht := ih fun u hu => h u (List.mem_cons_of_mem t hu)
      rcases h t (.head _) with hk | hk <;> simp [chunkTail, hk, ht]

theorem items_of_marks {ts : List Token} (h : ∀ u ∈ ts, u.kind = .word ∨ u.kind = .mark) :
    items ts = [] ∨ ∃ t us, ts = t :: us ∧ items ts = [.fault (.unrecognized (excerpt t us us.length))] := by
  cases ts with
  | nil => exact .inl (by simp [items])
  | cons t ts =>
      refine .inr ⟨t, ts, rfl, ?_⟩
      have hts : ∀ u ∈ ts, u.kind = .word ∨ u.kind = .mark := fun u hu => h u (List.mem_cons_of_mem t hu)
      have htag : t.isTag = false := by
        rcases h t (.head _) with hk | hk <;> simp [isTag, hk]
      have hchunk : chunk t ts = ts.length := by
        rcases h t (.head _) with hk | hk <;> simp [chunk, hk, chunkTail_of_marks hts]
      rw [items, htag, recognize?_of_marks hts]
      simp [unrecognized, hchunk, items]

theorem Covers.spans {source : String} {block : List Token} {item : Item} (h : Covers source block item) :
    Spans block item.span := by
  cases h with
  | assignment hm | call hm | function hm | unrecognized hm => exact hm.spans
  | unsupported hs => exact hs

theorem Tiles.exists_stop {source : String} {ts : List Token} {items : List Item}
    (h : Tiles source ts items) : ∀ item ∈ items, ∃ t ∈ ts, item.span.stop = t.stop := by
  induction items generalizing ts with
  | nil => simp
  | cons item items ih =>
      intro x hx
      cases h with
      | @next tags block rest _ _ _ hb hr =>
          rcases List.mem_cons.1 hx with rfl | hx
          · obtain ⟨first, last, _, hl, hs⟩ := hb.spans
            refine ⟨last, ?_, by rw [hs]⟩
            simp [List.mem_of_getLast? hl]
          · obtain ⟨t, ht, he⟩ := ih hr x hx
            exact ⟨t, by simp [ht], he⟩

theorem Tiles.exists_last {source : String} {ts : List Token} {items : List Item} {last : Token}
    (h : Tiles source ts items) (hl : ts.getLast? = some last) (ht : last.isTag = false) :
    ∃ item ∈ items, item.span.stop = last.stop := by
  induction items generalizing ts with
  | nil =>
      cases h with
      | done htags =>
          have hm := htags last (List.mem_of_getLast? hl)
          simp [ht] at hm
  | cons item items ih =>
      cases h with
      | @next tags block rest _ _ _ hb hr =>
          obtain ⟨first, final, _, hf, hs⟩ := hb.spans
          cases hr' : rest.getLast? with
          | none =>
              have he : final = last := by simpa [hr', hf] using hl
              exact ⟨item, .head _, by rw [hs, he]⟩
          | some t =>
              have he : t = last := by simpa [hr'] using hl
              obtain ⟨x, hx, hstop⟩ := ih hr (by rw [hr', he])
              exact ⟨x, .tail _ hx, hstop⟩

theorem Spans.stop_le_start {source : String} {block us : List Token} {span : Span} (hs : Spans block span)
    (h : StandIn source (block ++ us)) : ∀ u ∈ us, span.stop ≤ u.start := by
  obtain ⟨first, last, _, hl, rfl⟩ := hs
  exact h.stop_le_start last (List.mem_of_getLast? hl)

theorem items_eq_cons {source : String} {ts : List Token} {item : Item} {rest : List Item}
    (h : StandIn source ts) (hi : items ts = item :: rest) :
    ∃ before us, ts = before ++ us ∧ rest = items us ∧ ∀ u ∈ us, item.span.stop ≤ u.start := by
  have hblock (t : Token) (ts : List Token) (n : Nat) (h : StandIn source (t :: ts))
      (hc : Covers source (t :: ts.take n) item) :
      ∃ before us, t :: ts = before ++ us ∧ items (ts.drop n) = items us ∧
        ∀ u ∈ us, item.span.stop ≤ u.start := by
    have he : t :: ts = (t :: ts.take n) ++ ts.drop n := by simp
    rw [he] at h
    exact ⟨_, _, he, rfl, hc.spans.stop_le_start h⟩
  fun_induction items ts with
  | case1 => simp at hi
  | case2 t ts ht ih =>
      obtain ⟨before, us, rfl, hr, hle⟩ := ih h.tail hi
      exact ⟨t :: before, us, rfl, hr, hle⟩
  | case3 t ts _ _ ih =>
      obtain ⟨rfl, rfl⟩ := List.cons_eq_cons.1 hi
      exact hblock t ts _ h (.unrecognized (excerpt_marks h _))
  | case4 t ts _ m hm read hr ihb ih =>
      obtain ⟨rfl, rfl⟩ := List.cons_eq_cons.1 hi
      have hs := recognize?_spells hm
      exact hblock t ts _ h ((hs.covers h (items_tiles (hs.standIn_body h.tail))).1 _ hr)
  | case5 t ts _ m hm fault hf ihb ih =>
      obtain ⟨rfl, rfl⟩ := List.cons_eq_cons.1 hi
      have hs := recognize?_spells hm
      exact hblock t ts _ h ((hs.covers h (items_tiles (hs.standIn_body h.tail))).2 _ hf)

theorem items_suffix {source : String} {ts : List Token} {first rest : List Item}
    (h : StandIn source ts) (hi : items ts = first ++ rest) :
    ∃ before us, ts = before ++ us ∧ rest = items us ∧
      ∀ item ∈ first, ∀ u ∈ us, item.span.stop ≤ u.start := by
  induction first generalizing ts with
  | nil => exact ⟨[], ts, rfl, hi.symm, by simp⟩
  | cons item first ih =>
      obtain ⟨block, us, rfl, hr, hle⟩ := items_eq_cons h hi
      obtain ⟨before, vs, rfl, hrest, hall⟩ := ih h.append.2 hr.symm
      refine ⟨block ++ before, vs, by simp, hrest, ?_⟩
      intro x hx u hu
      rcases List.mem_cons.1 hx with rfl | hx
      · exact hle u (List.mem_append_right before hu)
      · exact hall x hx u hu

/-- What is left of a reading when the first items reach the end of the ink is read from tokens that start
behind the ink. -/
theorem scan_suffix {source : String} {first rest : List Item} (hi : scan source = first ++ rest)
    (hink : Text.inkEnd source ≤ Item.reach 0 first) :
    ∃ before us, Lexer.tokenize source = before ++ us ∧ rest = items us ∧
      ∀ u ∈ us, Text.inkEnd source ≤ u.start := by
  obtain ⟨before, us, hts, hr, hle⟩ := items_suffix (Lexer.standIn_tokenize source) hi
  refine ⟨before, us, hts, hr, ?_⟩
  intro u hu
  exact Nat.le_trans hink (Item.reach_le (Nat.zero_le _) fun item hm => hle item hm u hu)

/-- What is left of a reading when the first items reach the end of the ink is at most one chunk of
blanks. -/
theorem scan_remainder {source : String} {first rest : List Item} (hi : scan source = first ++ rest)
    (hink : Text.inkEnd source ≤ Item.reach 0 first) :
    rest = [] ∨ ∃ place, rest = [.fault (.unrecognized place)] ∧ ∀ c ∈ place.text.toList, Text.isBlank c := by
  have hs := Lexer.standIn_tokenize source
  obtain ⟨before, us, hts, rfl, hlate⟩ := scan_suffix hi hink
  rw [hts] at hs
  have hus := hs.append.2
  have hkind : ∀ u ∈ us, u.kind = .word ∨ u.kind = .mark := by
    intro u hu
    have hm : u ∈ Lexer.tokenize source := by simp [hts, hu]
    exact Lexer.kind_of_blank_text hm ((hus.standsAt hu).isBlank_of_inkEnd_le (hlate u hu))
  rcases items_of_marks hkind with hn | ⟨t, vs, rfl, hv⟩
  · exact .inl hn
  · exact .inr ⟨_, hv, (excerpt_marks hus vs.length).text.isBlank_of_inkEnd_le (hlate t (.head _))⟩

end Pattern

end PhpTranspiler
