import PhpTranspiler.Proofs.Cutting
import PhpTranspiler.Proofs.Remainder
import PhpTranspiler.Proofs.Shift

namespace PhpTranspiler

def Text.Inked (cs : List Char) : Prop :=
  ∃ c d, cs.head? = some c ∧ isBlank c = false ∧ cs.getLast? = some d ∧ isBlank d = false

theorem Text.inked_of_forall {cs : List Char} (hn : cs ≠ []) (h : ∀ c ∈ cs, isBlank c = false) : Inked cs :=
  ⟨cs.head hn, cs.getLast hn, List.head?_eq_some_head hn, h _ (List.head_mem hn),
    List.getLast?_eq_some_getLast hn, h _ (List.getLast_mem hn)⟩

namespace Token

def bare (t : Token) : Token := { t with gap := "", start := 0 }

@[simp] theorem kind_bare (t : Token) : t.bare.kind = t.kind := rfl

@[simp] theorem text_bare (t : Token) : t.bare.text = t.text := rfl

theorem bare_inj {t u : Token} : t.bare = u.bare ↔ t.kind = u.kind ∧ t.text = u.text := by
  simp [bare]

/-- A token that is no string has no blanks that the lexer takes for something else, the vertical tab and
those beyond ASCII. -/
def Clean (t : Token) : Prop :=
  (∃ quote closed, t.kind = .quoted quote closed) ∨ ∀ c ∈ t.text.toList, Text.isBlank c → Text.isAsciiBlank c

theorem getLast?_written {ts : List Token} (h : ∀ t ∈ ts, Text.Inked t.text.toList) :
    ∀ c, (written ts).toList.getLast? = some c → Text.isBlank c = false := by
  induction ts with
  | nil => simp [written]
  | cons t ts ih =>
      intro c hc
      obtain ⟨_, d, _, _, hl, hd⟩ := h t (.head _)
      simp only [written, String.toList_append, List.getLast?_append, hl] at hc
      cases hw : (written ts).toList.getLast? with
      | none =>
          simp only [hw, Option.none_or, Option.some_or, Option.some.injEq] at hc
          rw [← hc, hd]
      | some e =>
          simp only [hw, Option.some_or, Option.some.injEq] at hc
          rw [← hc]
          exact ih (fun u hu => h u (List.mem_cons_of_mem t hu)) e hw

end Token

namespace Lexer

theorem bare_tokensFrom (m n : Nat) (cs : List Char) :
    (tokensFrom m cs).map Token.bare = (tokensFrom n cs).map Token.bare := by
  have hzero (k : Nat) : (tokensFrom k cs).map Token.bare = (tokensFrom 0 cs).map Token.bare := by
    have hs := tokensFrom_shift k 0 cs
    rw [Nat.add_zero] at hs
    rw [hs, List.map_map]
    rfl
  rw [hzero m, hzero n]

theorem no_seam_of_blank {bs : List Char} (hb : ∀ c ∈ bs, Text.isBlank c) :
    bs.head? ≠ some '/' ∧ bs.head? ≠ some '*' := by
  have hne (d : Char) (hd : Text.isBlank d = false) : bs.head? ≠ some d := by
    intro he
    have hblank := hb d (List.mem_of_head? he)
    simp [hd] at hblank
  exact ⟨hne '/' (by decide), hne '*' (by decide)⟩

/-- Without the blanks at its end a text has the tokens that it has with them, if no part of a token is lost. -/
theorem tokensFrom_of_blank_end {start : Nat} {as bs : List Char} (hb : ∀ c ∈ bs, Text.isBlank c)
    (h : (Token.written (tokensFrom start (as ++ bs))).toList.length ≤ as.length) :
    tokensFrom start as = tokensFrom start (as ++ bs) := by
  by_cases hn : bs = []
  · rw [hn, List.append_nil]
  · obtain ⟨g, hcs, hg⟩ := written_append_gap start (as ++ bs)
    have hpre : (Token.written (tokensFrom start (as ++ bs))).toList <+: as ++ bs := ⟨g, hcs.symm⟩
    obtain ⟨mid, hmid⟩ := List.prefix_of_prefix_length_le hpre (List.prefix_append as bs) h
    have hseam : g = mid ++ bs := by
      apply List.append_cancel_left
      rw [← hcs, ← List.append_assoc, hmid]
    have hgap : gapLength .blanks mid = mid.length := by
      rw [gapLength_take (.inr (no_seam_of_blank hb)), ← hseam, hg, hseam, List.length_append]
      omega
    exact tokensFrom_take (List.append_nil _).symm hn hmid.symm hgap

theorem tokensFrom_trimEnd_of_le {start : Nat} {cs : List Char}
    (h : (Token.written (tokensFrom start cs)).toList.length ≤ (Text.trimEnd cs).length) :
    tokensFrom start (Text.trimEnd cs) = tokensFrom start cs := by
  obtain ⟨blanks, hb, hall⟩ := Text.trimEnd_append_blanks cs
  have hle : (Token.written (tokensFrom start (Text.trimEnd cs ++ blanks))).toList.length ≤
      (Text.trimEnd cs).length := by rwa [← hb]
  rw [tokensFrom_of_blank_end hall hle, ← hb]

theorem tokensFrom_trimEnd {start : Nat} {cs : List Char}
    (h : ∀ t ∈ tokensFrom start cs, Text.Inked t.text.toList) :
    tokensFrom start (Text.trimEnd cs) = tokensFrom start cs := by
  obtain ⟨g, hcs, _⟩ := written_append_gap start cs
  have ht : Text.trimEnd cs = (Token.written (tokensFrom start cs)).toList ++ Text.trimEnd g := by
    have ha := Text.trimEnd_append (Token.getLast?_written h) g
    rwa [← hcs] at ha
  apply tokensFrom_trimEnd_of_le
  rw [ht, List.length_append]
  exact Nat.le_add_right _ _

theorem gapLength_of_ne {c : Char} (hslash : c ≠ '/') (cs : List Char) :
    gapLength .blanks (c :: cs) =
      if c = '#' then gapLength .line cs + 1
      else if Text.isAsciiBlank c then gapLength .blanks cs + 1 else 0 :=
  gapLength.eq_3 _ _ (fun _ he => absurd he hslash) (fun _ he => absurd he hslash)

theorem gapLength_of_blank {c : Char} (hc : Text.isAsciiBlank c) (cs : List Char) :
    gapLength .blanks (c :: cs) = gapLength .blanks cs + 1 := by
  have hne (d : Char) (hd : Text.isAsciiBlank d = false) : c ≠ d := by
    rintro rfl
    simp [hc] at hd
  rw [gapLength_of_ne (hne '/' (by decide)), if_neg (hne '#' (by decide)), if_pos hc]

theorem bare_tokensFrom_blank {c : Char} (hc : Text.isAsciiBlank c) (start : Nat) (cs : List Char) :
    (tokensFrom start (c :: cs)).map Token.bare = (tokensFrom start cs).map Token.bare := by
  have hg := gapLength_of_blank hc cs
  have hd : (c :: cs).drop (gapLength .blanks (c :: cs)) = cs.drop (gapLength .blanks cs) := by
    rw [hg, List.drop_succ_cons]
  cases hr : cs.drop (gapLength .blanks cs) with
  | nil => rw [tokensFrom_of_gap hr, tokensFrom_of_gap (hd.trans hr)]
  | cons d rest =>
      rcases hl : lexeme d rest with ⟨kind, n⟩
      rw [tokensFrom_of_lexeme hr hl, tokensFrom_of_lexeme (hd.trans hr) hl, List.map_cons, List.map_cons]
      congr 1
      exact bare_tokensFrom _ _ _

theorem mem_of_bare {t : Token} {ts us : List Token} (h : ts.map Token.bare = us.map Token.bare) (ht : t ∈ ts) :
    ∃ u ∈ us, u.kind = t.kind ∧ u.text = t.text := by
  have hm : t.bare ∈ us.map Token.bare := h ▸ List.mem_map_of_mem ht
  obtain ⟨u, hu, he⟩ := List.mem_map.1 hm
  exact ⟨u, hu, Token.bare_inj.1 he⟩

theorem bare_trimStart {start : Nat} {cs : List Char} (h : ∀ t ∈ tokensFrom start cs, Text.Inked t.text.toList) :
    (tokensFrom start (Text.trimStart cs)).map Token.bare = (tokensFrom start cs).map Token.bare := by
  induction cs with
  | nil => rfl
  | cons c cs ih =>
      by_cases hb : Text.isBlank c
      · by_cases hc : Text.isAsciiBlank c
        · have hs := bare_tokensFrom_blank hc start cs
          rw [Text.trimStart, List.dropWhile_cons_of_pos hb, hs]
          apply ih
          intro t ht
          obtain ⟨u, hu, _, he⟩ := mem_of_bare hs.symm ht
          have hi := h u hu
          rwa [he] at hi
        · -- Such a blank is the first character of a token.
          have hne (d : Char) (hd : Text.isBlank d = false) : c ≠ d := by
            rintro rfl
            simp [hb] at hd
          have hg : gapLength .blanks (c :: cs) = 0 := by
            rw [gapLength_of_ne (hne '/' (by decide)), if_neg (hne '#' (by decide)), if_neg hc]
          have hd : (c :: cs).drop (gapLength .blanks (c :: cs)) = c :: cs := by rw [hg]; rfl
          rcases hl : lexeme c cs with ⟨kind, n⟩
          obtain ⟨d, _, hd, hn, _⟩ := h _ (by rw [tokensFrom_of_lexeme hd hl]; exact .head _)
          simp only [String.toList_ofList, List.head?_cons, Option.some.injEq] at hd
          subst hd
          simp [hb] at hn
      · rw [Text.trimStart, List.dropWhile_cons_of_neg hb]

theorem bare_tokenize_trim {s : String} (h : ∀ t ∈ tokenize s, Text.Inked t.text.toList) :
    (tokenize (Text.trim s)).map Token.bare = (tokenize s).map Token.bare := by
  have hs := bare_trimStart h
  rw [tokenize, Text.trim, String.toList_ofList, tokensFrom_trimEnd, hs]
  · rfl
  · intro t ht
    obtain ⟨u, hu, _, he⟩ := mem_of_bare hs ht
    have hi := h u hu
    rwa [he] at hi

theorem mem_of_isAsciiBlank {c : Char} (h : Text.isAsciiBlank c) : c ∈ [' ', '\t', '\n', '\r', '\x0c'] := by
  simpa [Text.isAsciiBlank, or_assoc] using h

theorem numberLength_ink (previous : Char) (cs : List Char) :
    ∀ c ∈ cs.take (numberLength previous cs), Text.isAsciiBlank c = false := by
  fun_induction numberLength previous cs with
  | case1 | case3 => simp
  | case2 previous c cs isSign hn ih =>
      intro d hd
      rw [List.take_succ_cons] at hd
      rcases List.mem_cons.1 hd with rfl | hd
      · rw [Bool.eq_false_iff]
        intro hb
        have hm := mem_of_isAsciiBlank hb
        simp only [List.mem_cons, List.not_mem_nil, or_false] at hm
        rcases hm with rfl | rfl | rfl | rfl | rfl <;> simp [isSign] at hn
      · exact ih d hd

theorem wordLength_ink (cs : List Char) : ∀ c ∈ cs.take (wordLength cs), Text.isAsciiBlank c = false := by
  have ht : cs.take (wordLength cs) = cs.takeWhile isWordRest :=
    (List.prefix_iff_eq_take.1 (List.takeWhile_prefix isWordRest)).symm
  intro c hc
  rw [ht] at hc
  have hw := List.all_eq_true.1 List.all_takeWhile c hc
  rw [Bool.eq_false_iff]
  intro hb
  have hf : [' ', '\t', '\n', '\r', '\x0c'].any isWordRest = false := by decide
  exact List.any_eq_false.1 hf c (mem_of_isAsciiBlank hb) hw

theorem openTagLength_ink (cs : List Char) :
    ∀ c ∈ cs.take (openTagLength cs), Text.isAsciiBlank c = false := by
  unfold openTagLength
  split
  · rename_i hw
    have hm : (cs.take 3).map Char.toLower = ['p', 'h', 'p'] := by simpa [Text.sameWord] using hw
    intro c hc
    have hl : c.toLower ∈ ['p', 'h', 'p'] := hm ▸ List.mem_map_of_mem hc
    rw [Bool.eq_false_iff]
    intro hb
    have hf : [' ', '\t', '\n', '\r', '\x0c'].any (·.toLower ∈ ['p', 'h', 'p']) = false := by decide
    exact List.any_eq_false.1 hf c (mem_of_isAsciiBlank hb) (decide_eq_true hl)
  · split
    · rename_i hh
      cases cs with
      | nil => simp
      | cons d cs =>
          cases hh
          simp [Text.isAsciiBlank]
    · simp

theorem lexeme_ink {c : Char} {cs : List Char} {kind : Token.Kind} {n : Nat} (h : lexeme c cs = (kind, n))
    (hk : ∀ quote closed, kind ≠ .quoted quote closed) : ∀ d ∈ cs.take n, Text.isAsciiBlank d = false := by
  unfold lexeme at h
  split at h
  · cases h
    exact numberLength_ink c cs
  split at h
  · cases h
    exact wordLength_ink cs
  split at h
  · cases h
    exact wordLength_ink cs
  split at h
  · rename_i ht
    cases h
    cases cs with
    | nil => simp
    | cons d cs =>
        obtain rfl : d = '?' := by simpa using ht.2
        intro e he
        rw [List.take_succ_cons] at he
        rcases List.mem_cons.1 he with rfl | he
        · decide
        · exact openTagLength_ink cs e he
  split at h
  · rename_i ht
    cases h
    cases cs with
    | nil => simp
    | cons d cs =>
        obtain rfl : d = '>' := by simpa using ht.2
        simp [Text.isAsciiBlank]
  split at h
  · cases h
    exact absurd rfl (hk _ _)
  · cases h
    simp

theorem single_ne_quoted (c : Char) (quote : Quote) (closed : Bool) : single c ≠ .quoted quote closed := by
  unfold single
  split <;> simp

theorem quotedLength_of_lexeme {c : Char} {cs : List Char} {quote : Quote} {closed : Bool} {n : Nat}
    (h : lexeme c cs = (.quoted quote closed, n)) :
    Quote.ofChar? c = some quote ∧ quotedLength c cs = (n, closed) := by
  have hs := single_ne_quoted c quote closed
  unfold lexeme at h
  repeat' split at h
  all_goals simp_all

theorem inked_of_quoted {c : Char} {cs rest : List Char} {quote : Quote} {closed : Bool}
    (h : lexeme c (cs ++ rest) = (.quoted quote closed, cs.length)) (hr : rest ≠ []) :
    Text.Inked (c :: cs) := by
  obtain ⟨ho, hlen⟩ := quotedLength_of_lexeme h
  have hq : c = '"' ∨ c = '\'' := by
    unfold Quote.ofChar? at ho
    grind
  have hc : c ≠ '\\' ∧ Text.isBlank c = false := by rcases hq with rfl | rfl <;> decide
  obtain ⟨_, ht⟩ := quotedLength_take hc.1 hlen (Nat.le_refl _) hr
  obtain ⟨body, tail, hcs, hn, _⟩ := enclosable_of_quotedLength ht
  have htail : tail = [] := by
    have hl := congrArg List.length hcs
    rw [List.length_append, List.length_cons] at hl
    exact List.eq_nil_of_length_eq_zero (by omega)
  have hlast : (c :: cs).getLast? = some c := by
    rw [hcs, htail, ← List.cons_append, List.getLast?_concat]
  exact ⟨c, c, rfl, hc.2, hlast, hc.2⟩

theorem inked_of_cuts {gap text rest : List Char} {kind : Token.Kind} {start : Nat}
    (hg : gapLength .blanks (gap ++ (text ++ rest)) = gap.length) (h : Cuts kind text rest) (hr : rest ≠ [])
    (hc : Token.Clean ⟨String.ofList gap, start, kind, String.ofList text⟩) : Text.Inked text := by
  obtain ⟨c, cs, rfl, hl⟩ := h
  rcases hc with ⟨quote, closed, rfl⟩ | hc
  · exact inked_of_quoted hl hr
  by_cases hq : ∃ quote closed, kind = .quoted quote closed
  · obtain ⟨quote, closed, rfl⟩ := hq
    exact inked_of_quoted hl hr
  have hfirst : Text.isAsciiBlank c = false := by
    have hzero := gapLength_drop .blanks (gap ++ (c :: cs ++ rest))
    rw [hg, List.drop_left, List.cons_append] at hzero
    rw [Bool.eq_false_iff]
    intro hb
    rw [gapLength_of_blank hb] at hzero
    cases hzero
  have hrest := lexeme_ink hl fun quote closed he => hq ⟨quote, closed, he⟩
  rw [List.take_left] at hrest
  apply Text.inked_of_forall (List.cons_ne_nil c cs)
  intro d hd
  rw [Bool.eq_false_iff]
  intro hb
  have hascii := hc d (by simpa using hd) hb
  rcases List.mem_cons.1 hd with rfl | hd
  · simp [hfirst] at hascii
  · simp [hrest d hd] at hascii

theorem inked_of_clean {start : Nat} {cs : List Char} {ts us : List Token}
    (h : tokensFrom start cs = ts ++ us) (hu : us ≠ []) (hc : ∀ t ∈ ts, t.Clean) :
    ∀ t ∈ ts, Text.Inked t.text.toList := by
  induction ts generalizing start cs with
  | nil => simp
  | cons t ts ih =>
      obtain ⟨gap, kind, text, rest, rfl, hg, hcut, rfl, htail⟩ := cuts_of_tokensFrom h
      have hr : rest ≠ [] := by
        rintro rfl
        rw [tokensFrom_of_gap rfl] at htail
        exact hu (List.append_eq_nil_iff.1 htail).2
      intro u hm
      rcases List.mem_cons.1 hm with rfl | hm
      · rw [String.toList_ofList]
        exact inked_of_cuts hg hcut hr (hc _ (.head _))
      · exact ih htail.symm (fun v hv => hc v (List.mem_cons_of_mem _ hv)) u hm

def Lexed (ts : List Token) : Prop := ∃ start cs us, tokensFrom start cs = ts ++ us

theorem lexed_tokenize (source : String) : Lexed (tokenize source) :=
  ⟨0, source.toList, [], by rw [List.append_nil]; rfl⟩

theorem Lexed.append {ts us : List Token} (h : Lexed (ts ++ us)) : Lexed ts ∧ Lexed us := by
  obtain ⟨start, cs, vs, h⟩ := h
  rw [List.append_assoc] at h
  obtain ⟨n, rest, _, hu⟩ := tokensFrom_drop h
  exact ⟨⟨start, cs, us ++ vs, h⟩, ⟨n, rest, vs, hu⟩⟩

theorem Lexed.drop {ts : List Token} (h : Lexed ts) (n : Nat) : Lexed (ts.drop n) := by
  rw [← List.take_append_drop n ts] at h
  exact h.append.2

theorem Lexed.exists_tokensFrom {inside rest : List Token} {close : Token} (h : Lexed (inside ++ close :: rest)) :
    ∃ start, tokensFrom start ((Token.written inside).toList ++ close.gap.toList) = inside := by
  obtain ⟨start, cs, us, h⟩ := h
  rw [List.append_assoc, List.cons_append] at h
  obtain ⟨n, tail, rfl, hclose⟩ := tokensFrom_drop h
  obtain ⟨gap, kind, text, more, rfl, hgap, ⟨c, cs, rfl, _⟩, rfl, _⟩ := cuts_of_tokensFrom hclose
  have hg : gapLength .blanks gap = gap.length := by
    rw [gapLength_take (.inl (Nat.le_of_eq hgap)), hgap, Nat.min_self]
  rw [← List.append_assoc] at h
  rw [String.toList_ofList]
  exact ⟨start, tokensFrom_take h (by simp) rfl hg⟩

/-- The text inside a bracket has the tokens that stand there. -/
theorem bare_tokenize_inner {inside rest : List Token} {close : Token} (h : Lexed (inside ++ close :: rest))
    (hc : ∀ t ∈ inside, t.Clean) :
    (tokenize (Pattern.inner inside close)).map Token.bare = inside.map Token.bare := by
  obtain ⟨start, ht⟩ := h.exists_tokensFrom
  have hbare : (tokenize (Token.written inside ++ close.gap)).map Token.bare = inside.map Token.bare := by
    rw [tokenize, String.toList_append, bare_tokensFrom 0 start, ht]
  rw [Pattern.inner, bare_tokenize_trim, hbare]
  obtain ⟨start, cs, us, h⟩ := h
  rw [List.append_assoc, List.cons_append] at h
  intro t hm
  obtain ⟨u, hu, _, he⟩ := mem_of_bare hbare hm
  rw [← he]
  exact inked_of_clean h (by simp) hc u hu

end Lexer

end PhpTranspiler
