import PhpTranspiler.Proofs.TokenPlaces

namespace PhpTranspiler.Lexer

def Closes (cs : List Char) : Prop := cs.getLast? = some ';' ∨ cs.getLast? = some '}'

theorem Closes.ne_nil {cs : List Char} (h : Closes cs) : cs ≠ [] := by
  rintro rfl
  simp [Closes] at h

theorem Closes.tail {c : Char} {cs : List Char} (h : Closes (c :: cs)) (hn : cs ≠ []) : Closes cs := by
  obtain ⟨d, ds, rfl⟩ := List.exists_cons_of_ne_nil hn
  simpa [Closes] using h

/-- A character that does not start a pair does not start one with what is appended, if another character
stands between them. -/
theorem no_pair_append {a b c : Char} {cs : List Char} (h : ∀ xs, c = a → cs = b :: xs → False)
    (hn : c = a → cs ≠ []) (ds : List Char) : ∀ xs, c = a → cs ++ ds = b :: xs → False := by
  intro xs hc he
  obtain ⟨d, rest, rfl⟩ := List.exists_cons_of_ne_nil (hn hc)
  obtain ⟨rfl, _⟩ := List.cons_eq_cons.1 he
  exact h rest hc rfl

theorem Closes.no_pair {a c : Char} {cs : List Char} (h : Closes (c :: cs)) (h1 : a ≠ ';') (h2 : a ≠ '}') :
    c = a → cs ≠ [] := by
  rintro rfl rfl
  simp [Closes, h1, h2] at h

theorem gapLength_append {g : Gap} {cs : List Char} (hc : Closes cs) (h : gapLength g cs < cs.length)
    (ds : List Char) : gapLength g (cs ++ ds) = gapLength g cs := by
  have hslash {c : Char} {cs : List Char} (hc : Closes (c :: cs)) : c = '/' → cs ≠ [] :=
    hc.no_pair (by decide) (by decide)
  have hlt {n : Nat} {cs : List Char} (h : n < cs.length) : cs ≠ [] := by
    rintro rfl
    simp at h
  fun_induction gapLength g cs with
  | case1 cs ih =>
      have hl : gapLength .line cs < cs.length := by simpa using h
      simp only [List.cons_append, gapLength]
      rw [ih ((hc.tail (by simp)).tail (hlt hl)) hl]
  | case2 cs ih =>
      have hl : gapLength .block cs < cs.length := by simpa using h
      simp only [List.cons_append, gapLength]
      rw [ih ((hc.tail (by simp)).tail (hlt hl)) hl]
  | case3 cs h1 h2 ih =>
      have hl := Nat.lt_of_succ_lt_succ h
      rw [List.cons_append, gapLength.eq_3 _ _ (by simp) (by simp), if_pos rfl, ih (hc.tail (hlt hl)) hl]
  | case4 c cs h1 h2 hs hb ih =>
      have hl := Nat.lt_of_succ_lt_succ h
      rw [List.cons_append, gapLength.eq_3 _ _ (no_pair_append h1 (hslash hc) ds)
        (no_pair_append h2 (hslash hc) ds), if_neg hs, if_pos hb, ih (hc.tail (hlt hl)) hl]
  | case5 c cs h1 h2 hs hb =>
      rw [List.cons_append, gapLength.eq_3 _ _ (no_pair_append h1 (hslash hc) ds)
        (no_pair_append h2 (hslash hc) ds), if_neg hs, if_neg hb]
  | case6 c cs ih =>
      have hl := Nat.lt_of_succ_lt_succ h
      simp only [List.cons_append, gapLength]
      rw [ih (hc.tail (hlt hl)) hl]
  | case7 cs ih =>
      have hl : gapLength .blanks cs < cs.length := by simpa using h
      simp only [List.cons_append, gapLength]
      rw [ih ((hc.tail (by simp)).tail (hlt hl)) hl]
  | case8 c cs h1 ih =>
      have hl := Nat.lt_of_succ_lt_succ h
      rw [List.cons_append, gapLength.eq_6 _ _ (no_pair_append h1 (fun _ => hlt hl) ds),
        ih (hc.tail (hlt hl)) hl]
  | case9 => simp at h

theorem wordLength_append {cs : List Char} (h : wordLength cs < cs.length) (ds : List Char) :
    wordLength (cs ++ ds) = wordLength cs := by
  induction cs with
  | nil => simp at h
  | cons c cs ih =>
      by_cases hc : isWordRest c
      · simp only [wordLength, List.cons_append, List.takeWhile_cons_of_pos hc, List.length_cons] at h ih ⊢
        rw [ih (by omega)]
      · simp [wordLength, hc]

theorem numberLength_append {previous : Char} {cs : List Char} (h : numberLength previous cs < cs.length)
    (ds : List Char) : numberLength previous (cs ++ ds) = numberLength previous cs := by
  fun_induction numberLength previous cs with
  | case1 => simp at h
  | case2 previous c cs isSign hn ih =>
      rw [List.cons_append, numberLength, if_pos hn, ih (by simpa using h)]
  | case3 previous c cs isSign hn => rw [List.cons_append, numberLength, if_neg hn]

/-- The cases for a backslash, at the end and before another character, leave no backslash over. -/
theorem ne_backslash {c : Char} {cs : List Char} (h1 : c = '\\' → cs = [] → False)
    (h2 : ∀ d ds, c = '\\' → cs = d :: ds → False) : c ≠ '\\' := by
  rintro rfl
  cases cs with
  | nil => exact h1 rfl rfl
  | cons d cs => exact h2 d cs rfl rfl

theorem quotedLength_append {quote : Char} {cs : List Char} (h : (quotedLength quote cs).1 < cs.length)
    (ds : List Char) : quotedLength quote (cs ++ ds) = quotedLength quote cs := by
  fun_induction quotedLength quote cs with
  | case1 => simp at h
  | case2 => simp at h
  | case3 d cs n closed hq ih =>
      have hl : (quotedLength quote cs).1 < cs.length := by simpa [hq] using h
      simp only [List.cons_append, quotedLength]
      rw [ih hl, hq]
  | case4 cs h1 h2 =>
      have hb := ne_backslash h1 h2
      rw [List.cons_append, quotedLength.eq_4 _ _ _ (fun he => absurd he hb) (fun _ _ he => absurd he hb),
        if_pos rfl]
  | case5 c cs h1 h2 hn n closed hq ih =>
      have hb := ne_backslash h1 h2
      have hl : (quotedLength quote cs).1 < cs.length := by simpa [hq] using h
      rw [List.cons_append, quotedLength.eq_4 _ _ _ (fun he => absurd he hb) (fun _ _ he => absurd he hb),
        if_neg hn, ih hl, hq]

theorem openTagLength_of_mem {c : Char} {cs : List Char} (hc : c ∈ cs.take 3)
    (hn : c.toLower ∉ ['p', 'h', 'p']) : openTagLength cs = if cs.head? = some '=' then 1 else 0 := by
  have hw : Text.sameWord (String.ofList (cs.take 3)) "php" = false := by
    rw [Bool.eq_false_iff]
    intro he
    have hm : (cs.take 3).map Char.toLower = ['p', 'h', 'p'] := by simpa [Text.sameWord] using he
    exact hn (hm ▸ List.mem_map_of_mem hc)
  rw [openTagLength, hw, if_neg Bool.false_ne_true]

theorem openTagLength_append {cs : List Char} (hc : Closes cs) (ds : List Char) :
    openTagLength (cs ++ ds) = openTagLength cs := by
  have hcut {c : Char} {cs : List Char} (h : Closes cs) (hl : cs.getLast? = some c) :
      c.toLower ∉ ['p', 'h', 'p'] := by
    rcases h with h | h <;> (rw [hl] at h; cases h; decide)
  match cs, hc with
  | [c], hc =>
      have h := hcut hc rfl
      rw [openTagLength_of_mem (by simp) h, openTagLength_of_mem (by simp) h]
      rfl
  | [b, c], hc =>
      have h := hcut hc rfl
      rw [openTagLength_of_mem (by simp) h, openTagLength_of_mem (by simp) h]
      rfl
  | a :: b :: c :: cs, hc => simp [openTagLength]

theorem lexeme_append {c : Char} {cs : List Char} (hc : Closes cs) (h : (lexeme c cs).2 < cs.length)
    (ds : List Char) : lexeme c (cs ++ ds) = lexeme c cs := by
  obtain ⟨d, tail, rfl⟩ := List.exists_cons_of_ne_nil hc.ne_nil
  have hh : (d :: tail ++ ds).head? = (d :: tail).head? := rfl
  simp only [lexeme, hh] at h ⊢
  by_cases hdigit : c.isDigit
  · simp only [if_pos hdigit] at h ⊢
    rw [numberLength_append h]
  simp only [if_neg hdigit] at h ⊢
  by_cases hword : isWordStart c
  · simp only [if_pos hword] at h ⊢
    rw [wordLength_append h]
  simp only [if_neg hword] at h ⊢
  by_cases hvar : c = '$' ∧ (d :: tail).head?.any isWordStart
  · simp only [if_pos hvar] at h ⊢
    rw [wordLength_append h]
  simp only [if_neg hvar] at h ⊢
  by_cases hopen : c = '<' ∧ (d :: tail).head? = some '?'
  · have ht : Closes tail := by
      apply hc.tail
      apply hc.no_pair (a := '?') (by decide) (by decide)
      simpa using hopen.2
    simp only [if_pos hopen, List.cons_append, List.tail_cons]
    rw [openTagLength_append ht]
  simp only [if_neg hopen] at h ⊢
  by_cases hclose : c = '?' ∧ (d :: tail).head? = some '>'
  · simp only [if_pos hclose]
  simp only [if_neg hclose] at h ⊢
  cases hq : Quote.ofChar? c with
  | none => rfl
  | some quote =>
      simp only [hq] at h
      rw [quotedLength_append h]

theorem lexeme_semicolon (cs : List Char) : lexeme ';' cs = (.semicolon, 0) := by
  simp [lexeme, isWordStart, Quote.ofChar?, single]

theorem lexeme_curly (cs : List Char) : lexeme '}' cs = (.closing .curly, 0) := by
  simp [lexeme, isWordStart, Quote.ofChar?, single]

theorem char_of_lexeme {c : Char} {cs : List Char}
    (hk : (lexeme c cs).1 = .semicolon ∨ (lexeme c cs).1 = .closing .curly) : c = ';' ∨ c = '}' := by
  have hs : single c = .semicolon ∨ single c = .closing .curly := by
    unfold lexeme at hk
    repeat' split at hk
    all_goals simp_all
  unfold single at hs
  split at hs <;> simp_all

theorem lexeme_of_closing {c : Char} (hc : c = ';' ∨ c = '}') (cs ds : List Char) :
    lexeme c cs = lexeme c ds ∧ (lexeme c cs).2 = 0 := by
  rcases hc with rfl | rfl
  · simp [lexeme_semicolon]
  · simp [lexeme_curly]

theorem Closes.append_left {cs : List Char} (h : Closes cs) (bs : List Char) : Closes (bs ++ cs) := by
  rcases h with h | h
  · exact Or.inl (by simp [h])
  · exact Or.inr (by simp [h])

def Ended (start : Nat) (cs : List Char) : Prop :=
  ∃ last, (tokensFrom start cs).getLast? = some last ∧
    (last.kind = .semicolon ∨ last.kind = .closing .curly) ∧ last.stop = start + Text.size cs

theorem size_of_lexeme {cs rest : List Char} {c : Char}
    (hd : cs.drop (gapLength .blanks cs) = c :: rest) (n : Nat) :
    Text.size cs = Text.size (cs.take (gapLength .blanks cs)) + Text.size (c :: rest.take n) +
      Text.size (rest.drop n) := by
  have hr : Text.size rest = Text.size (rest.take n) + Text.size (rest.drop n) := by
    rw [← Text.size_append, List.take_append_drop]
  have hcs : Text.size cs = Text.size (cs.take (gapLength .blanks cs)) + Text.size (c :: rest) := by
    rw [← hd, ← Text.size_append, List.take_append_drop]
  rw [Text.size_cons] at hcs ⊢
  omega

theorem Ended.of_lexeme {start : Nat} {cs rest : List Char} {c : Char} {kind : Token.Kind} {n : Nat}
    (h : Ended start cs) (hd : cs.drop (gapLength .blanks cs) = c :: rest) (hl : lexeme c rest = (kind, n)) :
    ((c = ';' ∨ c = '}') ∧ n = 0 ∧ rest = []) ∨
      Ended (start + Text.size (cs.take (gapLength .blanks cs)) + Text.size (c :: rest.take n))
        (rest.drop n) := by
  have hsize := size_of_lexeme hd n
  obtain ⟨last, hlast, hk, hs⟩ := h
  rw [tokensFrom_of_lexeme hd hl] at hlast
  by_cases ht : tokensFrom (start + Text.size (cs.take (gapLength .blanks cs)) + Text.size (c :: rest.take n))
      (rest.drop n) = []
  · rw [ht, List.getLast?_singleton] at hlast
    cases hlast
    have hc : c = ';' ∨ c = '}' := char_of_lexeme (by rw [hl]; exact hk)
    have hn : n = 0 := by
      have h0 := (lexeme_of_closing hc rest rest).2
      rwa [hl] at h0
    subst hn
    refine Or.inl ⟨hc, rfl, ?_⟩
    apply Text.eq_nil_of_size_eq_zero
    simp only [Token.stop, Text.utf8ByteSize_ofList, List.drop_zero] at hs hsize
    omega
  · refine Or.inr ⟨last, ?_, hk, ?_⟩
    · rwa [List.getLast?_cons_of_ne_nil ht] at hlast
    · rw [hs, hsize]
      omega

theorem tokensFrom_append_of_lexeme {cs rest ds : List Char} {c : Char} {kind : Token.Kind} {n : Nat}
    (hd : cs.drop (gapLength .blanks cs) = c :: rest) (hc : Closes cs)
    (hl : lexeme c (rest ++ ds) = (kind, n)) (hn : n ≤ rest.length) (start : Nat) :
    tokensFrom start (cs ++ ds) =
      ⟨String.ofList (cs.take (gapLength .blanks cs)),
        start + Text.size (cs.take (gapLength .blanks cs)), kind, String.ofList (c :: rest.take n)⟩ ::
        tokensFrom (start + Text.size (cs.take (gapLength .blanks cs)) + Text.size (c :: rest.take n))
          (rest.drop n ++ ds) := by
  have hlt : gapLength .blanks cs < cs.length := by
    have hlen := congrArg List.length hd
    simp only [List.length_drop, List.length_cons] at hlen
    omega
  have hg := gapLength_append hc hlt ds
  have hd' : (cs ++ ds).drop (gapLength .blanks (cs ++ ds)) = c :: (rest ++ ds) := by
    rw [hg, List.drop_append_of_le_length (Nat.le_of_lt hlt), hd, List.cons_append]
  rw [tokensFrom_of_lexeme hd' hl, hg, List.take_append_of_le_length (Nat.le_of_lt hlt),
    List.take_append_of_le_length hn, List.drop_append_of_le_length hn]

/-- Where the last token ends the statement and the source, the lexer does not look any further. -/
theorem tokensFrom_append {start : Nat} {cs : List Char} (h : Ended start cs) (ds : List Char) :
    Closes cs ∧ tokensFrom start (cs ++ ds) =
      tokensFrom start cs ++ tokensFrom (start + Text.size cs) ds := by
  fun_induction tokensFrom start cs with
  | case1 start cs gap hc =>
      obtain ⟨last, hl, _⟩ := h
      simp [tokensFrom_of_gap hc] at hl
  | case2 start cs gap c rest hd kind n hl before text place ih =>
      have hcs : cs = before ++ c :: rest := by rw [← hd, List.take_append_drop]
      have hsize : Text.size cs = Text.size before + Text.size text + Text.size (rest.drop n) :=
        size_of_lexeme hd n
      rcases h.of_lexeme hd hl with ⟨hch, rfl, rfl⟩ | he
      · -- The last token cannot grow, because it is one character whatever follows.
        have hc : Closes cs := by
          rw [hcs]
          apply Closes.append_left
          simpa [Closes] using hch
        have hl' : lexeme c ([] ++ ds) = (kind, 0) := by rw [← hl, (lexeme_of_closing hch _ _).1]
        have ht : tokensFrom (place + Text.size text) (List.drop 0 []) = [] := tokensFrom_of_gap rfl _
        refine ⟨hc, ?_⟩
        rw [tokensFrom_append_of_lexeme hd hc hl' (Nat.le_refl 0), hsize, ht]
        simp [before, text, place, gap, Nat.add_assoc]
      · obtain ⟨hr, htail⟩ := ih he
        have hn : n < rest.length := by
          have hpos := List.length_pos_iff.2 hr.ne_nil
          rw [List.length_drop] at hpos
          omega
        have hrest : Closes rest := by
          rw [← List.take_append_drop n rest]
          exact hr.append_left _
        have hc : Closes cs := by
          rw [hcs, List.append_cons]
          exact hrest.append_left _
        have hl' : lexeme c (rest ++ ds) = (kind, n) := by
          rw [lexeme_append hrest (by rw [hl]; exact hn), hl]
        refine ⟨hc, ?_⟩
        rw [tokensFrom_append_of_lexeme hd hc hl' (Nat.le_of_lt hn), hsize]
        change _ :: tokensFrom (place + Text.size text) _ = _
        rw [htail]
        simp [before, text, place, gap, Nat.add_assoc]

end PhpTranspiler.Lexer
