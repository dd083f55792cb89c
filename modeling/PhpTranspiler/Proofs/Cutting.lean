import PhpTranspiler.Proofs.Lookahead

namespace PhpTranspiler.Lexer

theorem gapLength_le (g : Gap) (cs : List Char) : gapLength g cs ≤ cs.length := by
  fun_induction gapLength g cs <;> simp_all

/-- Two characters that a gap takes together do not stand on both sides of a seam, if the gap ends before the seam or
the text behind it does not start with the second of them. -/
theorem no_pair_across {g : Gap} {a b c : Char} {cs bs : List Char} (hb : b = '/' ∨ b = '*')
    (hlen : ∀ ds, 2 ≤ gapLength g (a :: b :: ds))
    (h : gapLength g (c :: cs ++ bs) ≤ cs.length + 1 ∨ (bs.head? ≠ some '/' ∧ bs.head? ≠ some '*'))
    (hn : ∀ xs, c = a → cs = b :: xs → False) : ∀ xs, c = a → cs ++ bs = b :: xs → False := by
  intro xs hc he
  cases cs with
  | cons d cs =>
      obtain ⟨rfl, _⟩ := List.cons_eq_cons.1 he
      exact hn cs hc rfl
  | nil =>
      rw [List.nil_append] at he
      subst hc he
      rcases h with h | h
      · have hl := hlen xs
        simp only [List.cons_append, List.nil_append, List.length_nil] at h
        omega
      · rcases hb with rfl | rfl <;> simp at h

/-- What a gap takes of a text is what it takes of a longer one, as far as the text goes. No comment may
start or end across the seam. -/
theorem gapLength_take {g : Gap} {as bs : List Char}
    (h : gapLength g (as ++ bs) ≤ as.length ∨ (bs.head? ≠ some '/' ∧ bs.head? ≠ some '*')) :
    gapLength g as = min as.length (gapLength g (as ++ bs)) := by
  have hline (ds : List Char) : 2 ≤ gapLength .blanks ('/' :: '/' :: ds) := by simp [gapLength]
  have hopen (ds : List Char) : 2 ≤ gapLength .blanks ('/' :: '*' :: ds) := by simp [gapLength]
  have hclose (ds : List Char) : 2 ≤ gapLength .block ('*' :: '/' :: ds) := by simp [gapLength]
  fun_induction gapLength g as with
  | case1 cs ih =>
      simp only [List.cons_append, gapLength, List.length_cons] at h ⊢
      rw [ih (h.imp_left fun h => by omega)]
      omega
  | case2 cs ih =>
      simp only [List.cons_append, gapLength, List.length_cons] at h ⊢
      rw [ih (h.imp_left fun h => by omega)]
      omega
  | case3 cs h1 h2 ih =>
      rw [List.cons_append, gapLength.eq_3 _ _ (by simp) (by simp), if_pos rfl, List.length_cons] at h ⊢
      rw [ih (h.imp_left fun h => by omega)]
      omega
  | case4 c cs h1 h2 hs hb ih =>
      have hp := no_pair_across (.inl rfl) hline h h1
      have hq := no_pair_across (.inr rfl) hopen h h2
      rw [List.cons_append, gapLength.eq_3 _ _ hp hq, if_neg hs, if_pos hb, List.length_cons] at h ⊢
      rw [ih (h.imp_left fun h => by omega)]
      omega
  | case5 c cs h1 h2 hs hb =>
      have hp := no_pair_across (.inl rfl) hline h h1
      have hq := no_pair_across (.inr rfl) hopen h h2
      rw [List.cons_append, gapLength.eq_3 _ _ hp hq, if_neg hs, if_neg hb, Nat.min_zero]
  | case6 c cs ih =>
      simp only [List.cons_append, gapLength, List.length_cons] at h ⊢
      rw [ih (h.imp_left fun h => by omega)]
      omega
  | case7 cs ih =>
      simp only [List.cons_append, gapLength, List.length_cons] at h ⊢
      rw [ih (h.imp_left fun h => by omega)]
      omega
  | case8 c cs h1 ih =>
      have hp := no_pair_across (.inl rfl) hclose h h1
      rw [List.cons_append, gapLength.eq_6 _ _ hp, List.length_cons] at h ⊢
      rw [ih (h.imp_left fun h => by omega)]
      omega
  | case9 => simp

theorem gapLength_drop (g : Gap) (cs : List Char) : gapLength .blanks (cs.drop (gapLength g cs)) = 0 := by
  fun_induction gapLength g cs with
  | case1 cs ih | case2 cs ih | case3 cs h1 h2 ih | case7 cs ih => simpa using ih
  | case4 c cs h1 h2 hs hb ih => simpa using ih
  | case5 c cs h1 h2 hs hb => rw [List.drop_zero, gapLength.eq_3 _ _ h1 h2, if_neg hs, if_neg hb]
  | case6 c cs ih => simpa using ih
  | case8 c cs h1 ih => simpa using ih
  | case9 => simp [gapLength]

inductive Enclosable (quote : Char) : List Char → Prop
  | nil : Enclosable quote []
  | escaped {cs : List Char} (c : Char) (h : Enclosable quote cs) : Enclosable quote ('\\' :: c :: cs)
  | plain {c : Char} {cs : List Char} (hb : c ≠ '\\') (hq : c ≠ quote) (h : Enclosable quote cs) :
      Enclosable quote (c :: cs)

theorem quotedLength_of_ne {quote c : Char} (hc : c ≠ '\\') (cs : List Char) :
    quotedLength quote (c :: cs) =
      if c = quote then (1, true) else ((quotedLength quote cs).1 + 1, (quotedLength quote cs).2) :=
  quotedLength.eq_4 _ _ _ (fun he => absurd he hc) (fun _ _ he => absurd he hc)

theorem Enclosable.quotedLength_eq {quote : Char} {body : List Char} (h : Enclosable quote body)
    (hq : quote ≠ '\\') (rest : List Char) :
    quotedLength quote (body ++ quote :: rest) = (body.length + 1, true) := by
  induction h with
  | nil => rw [List.nil_append, quotedLength_of_ne hq, if_pos rfl]; rfl
  | escaped c h ih => simp [quotedLength, ih]
  | plain hb hn h ih => rw [List.cons_append, quotedLength_of_ne hb, if_neg hn, ih]; rfl

theorem enclosable_of_quotedLength {quote : Char} {cs : List Char} {n : Nat}
    (h : quotedLength quote cs = (n, true)) :
    ∃ body rest, cs = body ++ quote :: rest ∧ n = body.length + 1 ∧ Enclosable quote body := by
  fun_induction quotedLength quote cs generalizing n with
  | case1 => simp at h
  | case2 => simp at h
  | case3 d cs k closed hq ih =>
      simp only [Prod.mk.injEq] at h
      obtain ⟨rfl, rfl⟩ := h
      obtain ⟨body, rest, rfl, rfl, hb⟩ := ih hq
      exact ⟨'\\' :: d :: body, rest, rfl, rfl, .escaped d hb⟩
  | case4 cs h1 h2 =>
      simp only [Prod.mk.injEq, and_true] at h
      subst h
      exact ⟨[], cs, rfl, rfl, .nil⟩
  | case5 c cs h1 h2 hn k closed hq ih =>
      simp only [Prod.mk.injEq] at h
      obtain ⟨rfl, rfl⟩ := h
      obtain ⟨body, rest, rfl, rfl, he⟩ := ih hq
      exact ⟨c :: body, rest, rfl, rfl, .plain (ne_backslash h1 h2) hn he⟩

theorem length_of_quotedLength {quote : Char} {cs : List Char} {n : Nat}
    (h : quotedLength quote cs = (n, false)) : n = cs.length := by
  fun_induction quotedLength quote cs generalizing n with
  | case1 | case2 => simp_all
  | case3 d cs k closed hq ih =>
      simp only [Prod.mk.injEq] at h
      obtain ⟨rfl, rfl⟩ := h
      rw [ih hq]; rfl
  | case4 => simp at h
  | case5 c cs h1 h2 hn k closed hq ih =>
      simp only [Prod.mk.injEq] at h
      obtain ⟨rfl, rfl⟩ := h
      rw [ih hq]; rfl

theorem quotedLength_take {quote : Char} {as bs : List Char} {n : Nat} {closed : Bool} (hq : quote ≠ '\\')
    (h : quotedLength quote (as ++ bs) = (n, closed)) (hn : n ≤ as.length) (hb : bs ≠ []) :
    closed = true ∧ quotedLength quote as = (n, true) := by
  have hpos := List.length_pos_iff.2 hb
  cases closed with
  | false =>
      have hl := length_of_quotedLength h
      rw [List.length_append] at hl
      omega
  | true =>
      obtain ⟨body, rest, he, rfl, hbody⟩ := enclosable_of_quotedLength h
      rw [List.append_cons] at he
      obtain ⟨tail, rfl⟩ : body ++ [quote] <+: as :=
        List.prefix_of_prefix_length_le ⟨rest, he.symm⟩ (List.prefix_append as bs) (by simpa using hn)
      refine ⟨rfl, ?_⟩
      simpa using hbody.quotedLength_eq hq tail

theorem wordLength_take {as bs : List Char} (h : wordLength (as ++ bs) ≤ as.length) :
    wordLength as = wordLength (as ++ bs) := by
  induction as with
  | nil => exact (Nat.le_zero.1 h).symm
  | cons c as ih =>
      by_cases hc : isWordRest c
      · simp only [wordLength, List.cons_append, List.takeWhile_cons_of_pos hc, List.length_cons] at h ih ⊢
        rw [ih (by omega)]
      · simp [wordLength, hc]

theorem numberLength_take {previous : Char} {as bs : List Char}
    (h : numberLength previous (as ++ bs) ≤ as.length) :
    numberLength previous as = numberLength previous (as ++ bs) := by
  induction as generalizing previous with
  | nil => exact (Nat.le_zero.1 h).symm
  | cons c as ih =>
      simp only [List.cons_append, numberLength] at h ⊢
      split
      · rename_i hc
        rw [if_pos hc, List.length_cons] at h
        rw [ih (by omega)]
      · rfl

theorem openTagLength_take {as bs : List Char} (h : openTagLength (as ++ bs) ≤ as.length) :
    openTagLength as = openTagLength (as ++ bs) := by
  cases as with
  | nil => exact (Nat.le_zero.1 h).symm
  | cons c as =>
      have hlen (hw : Text.sameWord (String.ofList ((c :: as).take 3)) "php") : 3 ≤ (c :: as).length := by
        have hm : ((c :: as).take 3).map Char.toLower = ['p', 'h', 'p'] := by simpa [Text.sameWord] using hw
        have hl := congrArg List.length hm
        simp only [List.length_map, List.length_take, List.length_cons, List.length_nil] at hl
        simp only [List.length_cons]
        omega
      by_cases hl : 3 ≤ (c :: as).length
      · rw [openTagLength, openTagLength, List.take_append_of_le_length hl]
        rfl
      · have hw : Text.sameWord (String.ofList ((c :: as).take 3)) "php" = false := by
          rw [Bool.eq_false_iff]
          exact fun hw => hl (hlen hw)
        have hw' : Text.sameWord (String.ofList ((c :: as ++ bs).take 3)) "php" = false := by
          rw [Bool.eq_false_iff]
          intro hw
          rw [openTagLength, if_pos hw] at h
          exact hl h
        rw [openTagLength, openTagLength, hw, hw']
        rfl

theorem any_head?_append {as : List Char} {p : Char → Bool} (h : as.head?.any p) (bs : List Char) :
    (as ++ bs).head?.any p := by
  cases as with
  | nil => cases h
  | cons a as => exact h

theorem lexeme_take {c : Char} {as bs : List Char} {kind : Token.Kind} {n : Nat}
    (h : lexeme c (as ++ bs) = (kind, n)) (hn : n ≤ as.length) (hb : bs ≠ []) : lexeme c as = (kind, n) := by
  simp only [lexeme] at h ⊢
  by_cases hdigit : c.isDigit
  · simp only [if_pos hdigit, Prod.mk.injEq] at h ⊢
    obtain ⟨rfl, rfl⟩ := h
    exact ⟨rfl, numberLength_take hn⟩
  simp only [if_neg hdigit] at h ⊢
  by_cases hword : isWordStart c
  · simp only [if_pos hword, Prod.mk.injEq] at h ⊢
    obtain ⟨rfl, rfl⟩ := h
    exact ⟨rfl, wordLength_take hn⟩
  simp only [if_neg hword] at h ⊢
  by_cases hvar : c = '$' ∧ (as ++ bs).head?.any isWordStart
  · simp only [if_pos hvar, Prod.mk.injEq] at h
    obtain ⟨rfl, rfl⟩ := h
    have ha : as ≠ [] := by
      rintro rfl
      obtain ⟨b, bs, rfl⟩ := List.exists_cons_of_ne_nil hb
      have hr : isWordRest b := by simpa [isWordRest] using Or.inl hvar.2
      simp [wordLength, hr] at hn
    obtain ⟨a, as, rfl⟩ := List.exists_cons_of_ne_nil ha
    refine (if_pos hvar).trans ?_
    rw [wordLength_take hn]
  rw [if_neg hvar] at h
  rw [if_neg fun hv => hvar ⟨hv.1, any_head?_append hv.2 bs⟩]
  by_cases hopen : c = '<' ∧ (as ++ bs).head? = some '?'
  · simp only [if_pos hopen, Prod.mk.injEq] at h
    obtain ⟨rfl, rfl⟩ := h
    obtain ⟨a, as, rfl⟩ := List.exists_cons_of_length_pos (Nat.lt_of_lt_of_le (Nat.succ_pos _) hn)
    have ht : openTagLength (as ++ bs) ≤ as.length := Nat.le_of_succ_le_succ hn
    refine (if_pos hopen).trans ?_
    rw [List.cons_append, List.tail_cons, List.tail_cons, openTagLength_take ht]
  rw [if_neg hopen] at h
  rw [if_neg fun ho => hopen ⟨ho.1, by rw [List.head?_append, ho.2, Option.some_or]⟩]
  by_cases hclose : c = '?' ∧ (as ++ bs).head? = some '>'
  · simp only [if_pos hclose, Prod.mk.injEq] at h
    obtain ⟨rfl, rfl⟩ := h
    obtain ⟨a, as, rfl⟩ := List.exists_cons_of_length_pos hn
    exact if_pos hclose
  rw [if_neg hclose] at h
  rw [if_neg fun hc => hclose ⟨hc.1, by rw [List.head?_append, hc.2, Option.some_or]⟩]
  cases hq : Quote.ofChar? c with
  | none => simpa [hq] using h
  | some quote =>
      have hne : c ≠ '\\' := by
        rintro rfl
        simp [Quote.ofChar?] at hq
      simp only [hq, Prod.mk.injEq] at h ⊢
      obtain ⟨rfl, rfl⟩ := h
      obtain ⟨hc, ht⟩ := quotedLength_take hne rfl hn hb
      rw [ht, hc]
      exact ⟨rfl, rfl⟩

theorem numberLength_le (previous : Char) (cs : List Char) : numberLength previous cs ≤ cs.length := by
  fun_induction numberLength previous cs <;> simp_all

theorem quotedLength_le (quote : Char) (cs : List Char) : (quotedLength quote cs).1 ≤ cs.length := by
  fun_induction quotedLength quote cs <;> simp_all

theorem wordLength_le (cs : List Char) : wordLength cs ≤ cs.length := List.takeWhile_sublist _ |>.length_le

theorem openTagLength_le (cs : List Char) : openTagLength cs ≤ cs.length := by
  unfold openTagLength
  split
  · rename_i hw
    have hm : (cs.take 3).map Char.toLower = ['p', 'h', 'p'] := by simpa [Text.sameWord] using hw
    have hl := congrArg List.length hm
    simp only [List.length_map, List.length_take, List.length_cons, List.length_nil] at hl
    omega
  · split
    · rename_i hh
      cases cs with
      | nil => simp at hh
      | cons c cs => simp
    · exact Nat.zero_le _

theorem lexeme_le (c : Char) (cs : List Char) : (lexeme c cs).2 ≤ cs.length := by
  unfold lexeme
  split
  · exact numberLength_le c cs
  split
  · exact wordLength_le cs
  split
  · exact wordLength_le cs
  split
  · rename_i h
    cases cs with
    | nil => simp at h
    | cons d cs => exact Nat.succ_le_succ (openTagLength_le cs)
  split
  · rename_i h
    cases cs with
    | nil => simp at h
    | cons d cs => simp
  split
  · exact quotedLength_le c cs
  · exact Nat.zero_le _

/-- The lexer takes `text` off the front of `text ++ rest`. -/
def Cuts (kind : Token.Kind) (text rest : List Char) : Prop :=
  ∃ c cs, text = c :: cs ∧ lexeme c (cs ++ rest) = (kind, cs.length)

theorem tokensFrom_of_cuts {gap text rest : List Char} {kind : Token.Kind}
    (hg : gapLength .blanks (gap ++ (text ++ rest)) = gap.length) (h : Cuts kind text rest) (start : Nat) :
    tokensFrom start (gap ++ (text ++ rest)) =
      ⟨String.ofList gap, start + Text.size gap, kind, String.ofList text⟩ ::
        tokensFrom (start + Text.size gap + Text.size text) rest := by
  obtain ⟨c, cs, rfl, hl⟩ := h
  have hd : (gap ++ (c :: cs ++ rest)).drop (gapLength .blanks (gap ++ (c :: cs ++ rest))) =
      c :: (cs ++ rest) := by
    rw [hg, List.drop_left]
    rfl
  rw [tokensFrom_of_lexeme hd hl, hg, List.take_left, List.take_left, List.drop_left]

theorem cuts_of_tokensFrom {start : Nat} {cs : List Char} {t : Token} {ts : List Token}
    (h : tokensFrom start cs = t :: ts) :
    ∃ gap kind text rest, cs = gap ++ (text ++ rest) ∧ gapLength .blanks cs = gap.length ∧
      Cuts kind text rest ∧ t = ⟨String.ofList gap, start + Text.size gap, kind, String.ofList text⟩ ∧
      ts = tokensFrom (start + Text.size gap + Text.size text) rest := by
  cases hd : cs.drop (gapLength .blanks cs) with
  | nil => simp [tokensFrom_of_gap hd] at h
  | cons c rest =>
      rcases hl : lexeme c rest with ⟨kind, n⟩
      rw [tokensFrom_of_lexeme hd hl] at h
      obtain ⟨rfl, rfl⟩ := List.cons_eq_cons.1 h
      have hn : n ≤ rest.length := by simpa [hl] using lexeme_le c rest
      have hlt : gapLength .blanks cs < cs.length := by
        have hlen := congrArg List.length hd
        simp only [List.length_drop, List.length_cons] at hlen
        omega
      refine ⟨_, kind, c :: rest.take n, rest.drop n, ?_, ?_, ⟨c, rest.take n, rfl, ?_⟩, rfl, rfl⟩
      · simp [← hd]
      · rw [List.length_take, Nat.min_eq_left (Nat.le_of_lt hlt)]
      · rw [List.take_append_drop, hl, List.length_take, Nat.min_eq_left hn]

theorem Cuts.take {kind : Token.Kind} {text as bs : List Char} (h : Cuts kind text (as ++ bs)) (hb : bs ≠ []) :
    Cuts kind text as := by
  obtain ⟨c, cs, rfl, hl⟩ := h
  rw [← List.append_assoc] at hl
  exact ⟨c, cs, rfl, lexeme_take hl (by simp) hb⟩

theorem tokensFrom_take {start : Nat} {as bs g : List Char} {ts us : List Token}
    (h : tokensFrom start (as ++ bs) = ts ++ us) (hb : bs ≠ []) (ha : as = (Token.written ts).toList ++ g)
    (hg : gapLength .blanks g = g.length) : tokensFrom start as = ts := by
  induction ts generalizing start as with
  | nil =>
      simp only [Token.written, String.toList_empty, List.nil_append] at ha
      subst ha
      exact tokensFrom_of_gap (by rw [hg, List.drop_length]) start
  | cons t ts ih =>
      obtain ⟨gap, kind, text, rest, hcs, hgap, hc, rfl, htail⟩ := cuts_of_tokensFrom h
      simp only [Token.written, String.toList_append, String.toList_ofList, List.append_assoc] at ha
      have hrest : rest = (Token.written ts).toList ++ g ++ bs := by
        rw [ha] at hcs
        simpa using hcs.symm
      subst hrest
      have hle : gap.length ≤ as.length := by simp [ha]
      have hgap' : gapLength .blanks as = gap.length := by
        rw [gapLength_take (.inl (hgap ▸ hle)), hgap, Nat.min_eq_right hle]
      subst ha
      rw [tokensFrom_of_cuts hgap' (hc.take hb), ih htail.symm rfl]

/-- The lexer can be started again between any two tokens. -/
theorem tokensFrom_drop {start : Nat} {cs : List Char} {ts us : List Token}
    (h : tokensFrom start cs = ts ++ us) :
    ∃ n rest, cs = (Token.written ts).toList ++ rest ∧ tokensFrom n rest = us := by
  induction ts generalizing start cs with
  | nil => exact ⟨start, cs, by simp [Token.written], h⟩
  | cons t ts ih =>
      obtain ⟨gap, kind, text, rest, rfl, _, _, rfl, htail⟩ := cuts_of_tokensFrom h
      obtain ⟨n, tail, rfl, ht⟩ := ih htail.symm
      exact ⟨n, tail, by simp [Token.written], ht⟩

theorem written_append_gap (start : Nat) (cs : List Char) :
    ∃ g, cs = (Token.written (tokensFrom start cs)).toList ++ g ∧ gapLength .blanks g = g.length := by
  induction h : tokensFrom start cs generalizing start cs with
  | nil =>
      refine ⟨cs, by simp [Token.written], ?_⟩
      cases hd : cs.drop (gapLength .blanks cs) with
      | nil =>
          have hle := gapLength_le .blanks cs
          have hge := List.drop_eq_nil_iff.1 hd
          omega
      | cons c rest =>
          rcases hl : lexeme c rest with ⟨kind, n⟩
          simp [tokensFrom_of_lexeme hd hl] at h
  | cons t ts ih =>
      obtain ⟨gap, kind, text, rest, rfl, _, _, rfl, htail⟩ := cuts_of_tokensFrom h
      obtain ⟨g, hr, hg⟩ := ih _ _ htail.symm
      refine ⟨g, ?_, hg⟩
      simp [Token.written, ← hr]

end PhpTranspiler.Lexer
