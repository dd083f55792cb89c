import PhpTranspiler.Proofs.Indexed.Lexer

namespace PhpTranspiler

namespace Token

def reach (start : Nat) : List Token → Nat
  | [] => start
  | t :: ts => reach t.stop ts

theorem Placed.reach_eq {start : Nat} {ts : List Token} (h : Placed start ts) :
    reach start ts = start + (written ts).utf8ByteSize := by
  induction ts generalizing start with
  | nil => simp [reach, written]
  | cons t ts ih =>
      obtain ⟨hs, ht⟩ := h
      rw [reach, ih ht]
      simp only [written, stop, String.utf8ByteSize_append, hs]
      omega

theorem Placed.pairwise {start : Nat} {ts : List Token} (h : Placed start ts) :
    ts.Pairwise fun t u => t.stop ≤ u.start := by
  induction ts generalizing start with
  | nil => exact .nil
  | cons t ts ih => exact List.pairwise_cons.2 ⟨h.2.le_start, ih h.2⟩

end Token

namespace Lexer

open Token

/-- A run of blanks or a comment in front of `rest`. A comment that starts with a number sign or two slashes ends before
the end of its line, and a block comment with its first end mark. Where there is none, it ends with the source. -/
inductive GapPart : List Char → List Char → Prop
  | blanks {run rest : List Char} (hn : run ≠ []) (hb : ∀ c ∈ run, Text.isAsciiBlank c)
      (hr : ∀ c, rest.head? = some c → Text.isAsciiBlank c = false) : GapPart run rest
  | line {mark body rest : List Char} (hm : mark = ['#'] ∨ mark = ['/', '/']) (hb : '\n' ∉ body)
      (hr : ∀ c, rest.head? = some c → c = '\n') : GapPart (mark ++ body) rest
  | block {body : List Char} (rest : List Char) (hb : ¬['*', '/'] <:+: body ++ ['*']) :
      GapPart ('/' :: '*' :: body ++ ['*', '/']) rest
  | unclosed {body : List Char} (hb : ¬['*', '/'] <:+: body) : GapPart ('/' :: '*' :: body) []

inductive FillsGap : List Char → List Char → Prop
  | nil (rest : List Char) : FillsGap [] rest
  | cons {part gap rest : List Char} (hp : GapPart part (gap ++ rest)) (h : FillsGap gap rest) :
      FillsGap (part ++ gap) rest

def StartsGap (cs : List Char) : Prop := ∃ part rest, cs = part ++ rest ∧ GapPart part rest

variable {gap part rest : List Char}

theorem GapPart.ne_nil (h : GapPart part rest) : part ≠ [] := by
  cases h with
  | blanks hn => exact hn
  | line hm => rcases hm with rfl | rfl <;> simp
  | block | unclosed => simp

theorem takeWhile_of_head {p : Char → Bool} {as bs : List Char} (ha : ∀ c ∈ as, p c)
    (hb : ∀ c, bs.head? = some c → p c = false) :
    (as ++ bs).takeWhile p = as ∧ (as ++ bs).dropWhile p = bs := by
  rw [List.takeWhile_append_of_pos ha, List.dropWhile_append_of_pos ha]
  cases bs with
  | nil => simp
  | cons c bs => simp [hb c rfl]

theorem head_dropWhile {p : Char → Bool} {cs : List Char} : ∀ c, (cs.dropWhile p).head? = some c → p c = false := by
  intro c hc
  have hn := List.head?_dropWhile_not p cs
  rwa [hc] at hn

theorem end_mark_prefix_iff (c : Char) (cs : List Char) :
    ['*', '/'] <+: c :: cs ↔ c = '*' ∧ cs.head? = some '/' := by
  cases cs <;> simp [eq_comm]

theorem head_append_take (body rest : List Char) : (body ++ rest.take 1).head? = (body ++ rest).head? := by
  cases body with
  | nil => cases rest <;> rfl
  | cons c body => rfl

/-- A block comment goes on as long as no end mark starts. One can start with the last character of the body. -/
theorem gapLength_block_append {body : List Char} (rest : List Char) (h : ¬['*', '/'] <:+: body ++ rest.take 1) :
    gapLength .block (body ++ rest) = body.length + gapLength .block rest := by
  induction body with
  | nil => simp
  | cons c body ih =>
      rw [List.cons_append, List.infix_cons_iff, not_or, end_mark_prefix_iff, head_append_take] at h
      obtain ⟨hm, hbody⟩ := h
      have hn : ∀ ds, c = '*' → body ++ rest = '/' :: ds → False := fun ds hc he => hm ⟨hc, by rw [he]; rfl⟩
      rw [List.cons_append, gapLength.eq_6 _ _ hn, ih hbody, List.length_cons]
      omega

theorem exists_end_mark (cs : List Char) :
    ¬['*', '/'] <:+: cs ∨ ∃ body rest, cs = body ++ '*' :: '/' :: rest ∧ ¬['*', '/'] <:+: body ++ ['*'] := by
  induction cs with
  | nil => exact .inl (by simp)
  | cons c cs ih =>
      by_cases hm : c = '*' ∧ cs.head? = some '/'
      · obtain ⟨rfl, hs⟩ := hm
        obtain ⟨rest, rfl⟩ := List.head?_eq_some_iff.1 hs
        exact .inr ⟨[], rest, rfl, by decide⟩
      · rcases ih with hcs | ⟨body, rest, rfl, hb⟩
        · refine .inl ?_
          rw [List.infix_cons_iff, end_mark_prefix_iff, not_or]
          exact ⟨hm, hcs⟩
        · refine .inr ⟨c :: body, rest, rfl, ?_⟩
          have hhead : (body ++ ['*']).head? = (body ++ '*' :: '/' :: rest).head? :=
            head_append_take body ('*' :: '/' :: rest)
          rw [List.cons_append, List.infix_cons_iff, end_mark_prefix_iff, not_or, hhead]
          exact ⟨hm, hb⟩

theorem gapLength_mark {mark : List Char} (hm : mark = ['#'] ∨ mark = ['/', '/']) (cs : List Char) :
    gapLength .blanks (mark ++ cs) = mark.length + gapLength .line cs := by
  rcases hm with rfl | rfl <;> simp [gapLength, Nat.add_comm]

theorem GapPart.gapLength_eq (h : GapPart part rest) :
    gapLength .blanks (part ++ rest) = part.length + gapLength .blanks rest := by
  cases h with
  | blanks hn hb hr =>
      obtain ⟨ht, hd⟩ := takeWhile_of_head hb hr
      rw [Indexed.gapLength_blanks, ht, hd]
  | @line mark body _ hm hb hr =>
      have hbody : ∀ c ∈ body, (c != '\n') := by
        intro c hc
        rw [bne_iff_ne]
        rintro rfl
        exact hb hc
      obtain ⟨ht, hd⟩ := takeWhile_of_head hbody fun c hc => by simp [hr c hc]
      rw [List.append_assoc, gapLength_mark hm, Indexed.gapLength_line, ht, hd, List.length_append, Nat.add_assoc]
  | @block body _ hb =>
      have hg := gapLength_block_append ('*' :: '/' :: rest) hb
      simp only [List.cons_append, List.append_assoc, List.nil_append, gapLength, hg, List.length_cons,
        List.length_append, List.length_nil]
      omega
  | @unclosed body hb =>
      have hg := gapLength_block_append [] (by simpa using hb)
      rw [List.append_nil] at hg
      simp [gapLength, hg]

theorem startsGap_of_gapLength {cs : List Char} (h : gapLength .blanks cs ≠ 0) : StartsGap cs := by
  cases cs with
  | nil => exact absurd rfl h
  | cons c cs =>
      by_cases hblank : Text.isAsciiBlank c
      · refine ⟨_, _, List.takeWhile_append_dropWhile.symm, .blanks ?_ ?_ head_dropWhile⟩
        · rw [List.takeWhile_cons_of_pos hblank]
          exact List.cons_ne_nil _ _
        · exact fun d => List.all_eq_true.1 List.all_takeWhile d
      have hline {mark : List Char} (hm : mark = ['#'] ∨ mark = ['/', '/']) (ds : List Char) :
          GapPart (mark ++ ds.takeWhile (· != '\n')) (ds.dropWhile (· != '\n')) := by
        refine .line hm ?_ ?_
        · intro hn
          simpa using List.all_eq_true.1 List.all_takeWhile _ hn
        · intro d hd
          simpa using head_dropWhile d hd
      by_cases hhash : c = '#'
      · subst hhash
        exact ⟨_, _, by simp, hline (.inl rfl) cs⟩
      by_cases hslash : c = '/' ∧ cs.head? = some '/'
      · obtain ⟨rfl, hs⟩ := hslash
        obtain ⟨ds, rfl⟩ := List.head?_eq_some_iff.1 hs
        exact ⟨_, _, by simp, hline (.inr rfl) ds⟩
      by_cases hstar : c = '/' ∧ cs.head? = some '*'
      · obtain ⟨rfl, hs⟩ := hstar
        obtain ⟨ds, rfl⟩ := List.head?_eq_some_iff.1 hs
        rcases exists_end_mark ds with hd | ⟨body, rest, rfl, hb⟩
        · exact ⟨_, [], (List.append_nil _).symm, .unclosed hd⟩
        · exact ⟨_, rest, by simp, .block rest hb⟩
      · refine absurd ?_ h
        rw [gapLength.eq_3, if_neg hhash, if_neg hblank]
        · exact fun ds hc he => hslash ⟨hc, by rw [he]; rfl⟩
        · exact fun ds hc he => hstar ⟨hc, by rw [he]; rfl⟩

theorem FillsGap.gapLength_eq (h : FillsGap gap rest) :
    gapLength .blanks (gap ++ rest) = gap.length + gapLength .blanks rest := by
  induction h with
  | nil => simp
  | cons hp _ ih => rw [List.append_assoc, hp.gapLength_eq, ih, List.length_append, Nat.add_assoc]

theorem fillsGap_of_gapLength (h : gapLength .blanks (gap ++ rest) = gap.length) : FillsGap gap rest := by
  -- on the length, since a step takes a whole part off the gap
  induction hn : gap.length using Nat.strong_induction_on generalizing gap with
  | h n ih =>
      by_cases hz : gapLength .blanks (gap ++ rest) = 0
      · obtain rfl : gap = [] := List.eq_nil_of_length_eq_zero (h ▸ hz)
        exact .nil rest
      · obtain ⟨part, behind, he, hp⟩ := startsGap_of_gapLength hz
        have hlen := hp.gapLength_eq
        rw [← he, h] at hlen
        obtain ⟨more, rfl⟩ : part <+: gap :=
          List.prefix_of_prefix_length_le ⟨behind, he.symm⟩ (List.prefix_append gap rest) (by omega)
        rw [List.append_assoc, List.append_cancel_left_eq] at he
        subst he
        have hpos := List.length_pos_iff.2 hp.ne_nil
        rw [List.length_append] at hlen hn
        exact .cons hp (ih more.length (by omega) (by omega) rfl)

theorem gapLength_eq_iff : gapLength .blanks (gap ++ rest) = gap.length ↔
    FillsGap gap rest ∧ ¬StartsGap rest := by
  constructor
  · intro h
    have hf := fillsGap_of_gapLength h
    refine ⟨hf, ?_⟩
    rintro ⟨part, behind, rfl, hp⟩
    have hlen := hf.gapLength_eq
    rw [h, hp.gapLength_eq] at hlen
    have hpos := List.length_pos_iff.2 hp.ne_nil
    omega
  · rintro ⟨hf, hn⟩
    have hz : gapLength .blanks rest = 0 := by
      by_contra hz
      exact hn (startsGap_of_gapLength hz)
    rw [hf.gapLength_eq, hz, Nat.add_zero]

theorem Cuts.eq_nil_of_unclosed {quote : Quote} {text : List Char} (h : Cuts (.quoted quote false) text rest) :
    rest = [] := by
  obtain ⟨c, cs, rfl, hl⟩ := h
  have hlen := length_of_quotedLength (quotedLength_of_lexeme hl).2
  rw [List.length_append] at hlen
  apply List.eq_nil_of_length_eq_zero
  omega

theorem Cuts.tokensFrom_eq {kind : Token.Kind} {text : List Char} (h : Cuts kind text rest)
    (hg : gapLength .blanks (text ++ rest) = 0) (start : Nat) :
    tokensFrom start (text ++ rest) =
      ⟨"", start, kind, String.ofList text⟩ :: tokensFrom (start + Text.size text) rest := by
  have hnil : gapLength .blanks ([] ++ (text ++ rest)) = ([] : List Char).length := hg
  exact tokensFrom_of_cuts hnil h start

section

variable {source : String} {t : Token} {before after : List Token}

theorem tokenize_split (h : tokenize source = before ++ t :: after) :
    ∃ rest, Text.StandsAt source ⟨reach 0 before, t.start⟩ t.gap ∧
      Text.StandsAt source ⟨t.start, source.utf8ByteSize⟩ (t.text ++ rest) ∧
      gapLength .blanks (t.gap.toList ++ (t.text ++ rest).toList) = t.gap.toList.length ∧
      Cuts t.kind t.text.toList rest.toList ∧ after = tokensFrom t.stop rest.toList := by
  have hp : Placed 0 (before ++ t :: after) := h ▸ placed_tokensFrom 0 source.toList
  obtain ⟨hbefore, hstart, _⟩ := hp.append
  have hreach := hbefore.reach_eq
  obtain ⟨n, tail, hcs, ht⟩ := tokensFrom_drop h
  obtain ⟨gap, kind, text, rest, rfl, hg, hc, rfl, hafter⟩ := cuts_of_tokensFrom ht
  have hs : source = written before ++ String.ofList gap ++ (String.ofList text ++ String.ofList rest) := by
    apply String.toList_injective
    simpa using hcs
  refine ⟨String.ofList rest, ?_, ?_, ?_, ?_, ?_⟩
  · refine ⟨written before, String.ofList text ++ String.ofList rest, hs, ?_⟩
    rw [hreach, hstart, Nat.zero_add]
  · refine ⟨written before ++ String.ofList gap, "", by rw [String.append_empty]; exact hs, ?_⟩
    rw [hs, hstart]
    simp only [String.utf8ByteSize_append, Nat.zero_add]
  · simpa using hg
  · simpa using hc
  · simpa [stop] using hafter

theorem stop_of_unclosed (h : tokenize source = before ++ t :: after) {quote : Quote}
    (hk : t.kind = .quoted quote false) : t.stop = source.utf8ByteSize := by
  obtain ⟨rest, _, hr, _, hc, _⟩ := tokenize_split h
  rw [hk] at hc
  obtain rfl : rest = "" := String.toList_eq_nil_iff.1 hc.eq_nil_of_unclosed
  have hs := hr.span_eq
  rw [String.append_empty, Span.mk.injEq] at hs
  exact hs.2.symm

theorem restarts_of_split (h : tokenize source = before ++ t :: after) :
    ∃ rest, Text.StandsAt source ⟨reach 0 before, t.start⟩ t.gap ∧
      Text.StandsAt source ⟨t.start, source.utf8ByteSize⟩ rest ∧ FillsGap t.gap.toList rest.toList ∧
      ¬StartsGap rest.toList ∧ (tokenize rest).map (Token.shift t.start) = { t with gap := "" } :: after := by
  obtain ⟨rest, hgap, hr, hg, hc, hafter⟩ := tokenize_split h
  obtain ⟨hf, hn⟩ := gapLength_eq_iff.1 hg
  have hz : gapLength .blanks (t.text.toList ++ rest.toList) = 0 := by
    have hlen := hf.gapLength_eq
    rw [hg, String.toList_append] at hlen
    omega
  refine ⟨t.text ++ rest, hgap, hr, hf, hn, ?_⟩
  rw [tokenize, ← tokensFrom_shift, Nat.add_zero, String.toList_append, hc.tokensFrom_eq hz, Text.size_toList,
    String.ofList_toList, hafter]
  rfl

end

theorem exists_last (source : String) : ∃ last, source = written (tokenize source) ++ last ∧
    Text.StandsAt source ⟨reach 0 (tokenize source), source.utf8ByteSize⟩ last ∧ FillsGap last.toList [] := by
  obtain ⟨gap, hcs, hg⟩ := written_append_gap 0 source.toList
  have hs : source = written (tokenize source) ++ String.ofList gap := by
    apply String.toList_injective
    simpa [tokenize] using hcs
  have hreach := (placed_tokensFrom 0 source.toList).reach_eq
  refine ⟨String.ofList gap, hs, ⟨written (tokenize source), "", by rw [String.append_empty]; exact hs, ?_⟩, ?_⟩
  · have hsize := congrArg String.utf8ByteSize hs
    rw [String.utf8ByteSize_append] at hsize
    rw [tokenize, hreach, Nat.zero_add, hsize]
    rfl
  · rw [String.toList_ofList]
    exact fillsGap_of_gapLength (by rwa [List.append_nil])

/-- Reading the tokens loses nothing, and it can start again with each of them. The places of the tokens, which the
lexer finds on bytes as well, do not overlap, and what stands in front of them, between them and behind them is blanks
and comments. What has no end mark, a string or a comment, goes on to the end of the source. -/
theorem tokenize_lossless (source : String) :
    Indexed.tokenize source = .ok ((tokenize source).map Indexed.Spot.ofToken) ∧
      (∀ t ∈ tokenize source, t.start < t.stop ∧ Text.StandsAt source t.span t.text ∧
        ∀ quote, t.kind = .quoted quote false → t.stop = source.utf8ByteSize) ∧
      (tokenize source).Pairwise (fun t u => t.start < u.start ∧ t.stop ≤ u.start) ∧
      (∃ last, source = written (tokenize source) ++ last ∧
        Text.StandsAt source ⟨reach 0 (tokenize source), source.utf8ByteSize⟩ last ∧ FillsGap last.toList []) ∧
      ∀ before t after, tokenize source = before ++ t :: after → ∃ rest,
        Text.StandsAt source ⟨reach 0 before, t.start⟩ t.gap ∧
        Text.StandsAt source ⟨t.start, source.utf8ByteSize⟩ rest ∧ FillsGap t.gap.toList rest.toList ∧
        ¬StartsGap rest.toList ∧ (tokenize rest).map (Token.shift t.start) = { t with gap := "" } :: after := by
  have hlt {t : Token} (ht : t ∈ tokenize source) : t.start < t.stop := start_lt_stop ht
  refine ⟨Indexed.tokenize_eq source, ?_, ?_, exists_last source, fun _ _ _ => restarts_of_split⟩
  · intro t ht
    refine ⟨hlt ht, (standIn_tokenize source).standsAt ht, fun quote hk => ?_⟩
    obtain ⟨before, after, hs⟩ := List.append_of_mem ht
    exact stop_of_unclosed hs hk
  · have hp : (tokenize source).Pairwise fun t u => t.stop ≤ u.start := (placed_tokensFrom 0 source.toList).pairwise
    exact hp.imp_of_mem fun ht _ hle => ⟨Nat.lt_of_lt_of_le (hlt ht) hle, hle⟩

theorem tokenize_lossless_unclosed :
    tokenize "<?PHP #é\n/*/ */1e-3'\\é" =
        [⟨"", 0, .openTag, "<?PHP"⟩] ++ ⟨" #é\n/*/ */", 16, .number, "1e-3"⟩ ::
          [⟨"", 20, .quoted .single false, "'\\é"⟩] ∧
      Text.StandsAt "<?PHP #é\n/*/ */1e-3'\\é" ⟨16, 20⟩ "1e-3" ∧ 24 = "<?PHP #é\n/*/ */1e-3'\\é".utf8ByteSize ∧
      ∃ rest, Text.StandsAt "<?PHP #é\n/*/ */1e-3'\\é" ⟨5, 16⟩ " #é\n/*/ */" ∧
        Text.StandsAt "<?PHP #é\n/*/ */1e-3'\\é" ⟨16, "<?PHP #é\n/*/ */1e-3'\\é".utf8ByteSize⟩ rest ∧
        FillsGap " #é\n/*/ */".toList rest.toList ∧ ¬StartsGap rest.toList ∧
        (tokenize rest).map (Token.shift 16) =
          ⟨"", 16, .number, "1e-3"⟩ :: [⟨"", 20, .quoted .single false, "'\\é"⟩] := by
  have ht : tokenize "<?PHP #é\n/*/ */1e-3'\\é" =
      [⟨"", 0, .openTag, "<?PHP"⟩] ++ ⟨" #é\n/*/ */", 16, .number, "1e-3"⟩ ::
        [⟨"", 20, .quoted .single false, "'\\é"⟩] := by decide +kernel
  obtain ⟨_, htokens, _, _, hsplit⟩ := tokenize_lossless "<?PHP #é\n/*/ */1e-3'\\é"
  obtain ⟨_, hplace, _⟩ := htokens ⟨" #é\n/*/ */", 16, .number, "1e-3"⟩ (by rw [ht]; simp)
  obtain ⟨_, _, hend⟩ := htokens ⟨"", 20, .quoted .single false, "'\\é"⟩ (by rw [ht]; simp)
  exact ⟨ht, hplace, hend .single rfl, hsplit _ _ _ ht⟩

end Lexer

end PhpTranspiler
