import PhpTranspiler.Proofs.Concatenation
import PhpTranspiler.Proofs.Spelling

namespace PhpTranspiler

open Script Token Lexer Nesting

namespace Pattern

section

variable {t : Token} {b : Bracket} {depth : Nat}

theorem chunkTail_opening (h : t.kind = .opening b) (ts : List Token) :
    chunkTail depth (t :: ts) = chunkTail (depth + 1) ts + 1 := by
  simp [chunkTail, h]

theorem chunkTail_closing (h : t.kind = .closing b) (hb : b = .curly → depth ≠ 0) (ts : List Token) :
    chunkTail (depth + 1) (t :: ts) = chunkTail depth ts + 1 := by
  rw [chunkTail.eq_def]
  simp only [h]
  exact if_neg fun hc => hb hc.1 hc.2.1

theorem chunkTail_plain (h : ∀ b, t.kind ≠ .opening b ∧ t.kind ≠ .closing b) (ts : List Token) :
    chunkTail (depth + 1) (t :: ts) = chunkTail (depth + 1) ts + 1 := by
  cases hk : t.kind with
  | opening b => exact absurd hk (h b).1
  | closing b => exact absurd hk (h b).2
  | _ => simp [chunkTail, hk]

end

end Pattern

/-- Brackets of all forms are closed in the tokens, each by one of its own form and the last one first. -/
inductive WellNested : List Token → Prop
  | nil : WellNested []
  | plain {t : Token} {ts : List Token} (ht : ∀ b, t.kind ≠ .opening b ∧ t.kind ≠ .closing b) (hs : WellNested ts) :
      WellNested (t :: ts)
  | enclosed {t u : Token} {inside rest : List Token} {b : Bracket} (ht : t.kind = .opening b)
      (hi : WellNested inside) (hu : u.kind = .closing b) (hr : WellNested rest) :
      WellNested (t :: inside ++ u :: rest)

namespace WellNested

variable {ts us : List Token}

theorem neutral (h : WellNested ts) (b : Bracket) : Neutral b ts := by
  induction h with
  | nil => exact neutral_of_forall (by simp)
  | @plain t ts ht _ ih =>
      have hone : Neutral b [t] := neutral_of_forall (by simpa using ht b)
      exact hone.append ih
  | @enclosed t u inside rest b' ht hi hu hr ihi ihr =>
      have hpair : Neutral b (t :: inside ++ [u]) := by
        by_cases hb : b' = b
        · subst hb
          exact ihi.enclosed ht hu
        · have ho : Neutral b [t] := neutral_of_forall (by simp [ht, hb])
          have hc : Neutral b [u] := neutral_of_forall (by simp [hu, hb])
          exact (ho.append ihi).append hc
      simpa using hpair.append ihr

theorem append (ht : WellNested ts) (hu : WellNested us) : WellNested (ts ++ us) := by
  induction ht with
  | nil => exact hu
  | plain ht _ ih => exact .plain ht ih
  | @enclosed t u inside rest b ht hi hc _ _ ih =>
      have h := WellNested.enclosed ht hi hc ih
      simpa using h

theorem flatten {tss : List (List Token)} (h : ∀ ts ∈ tss, WellNested ts) : WellNested tss.flatten := by
  induction tss with
  | nil => exact .nil
  | cons ts tss ih =>
      obtain ⟨ht, hs⟩ := List.forall_mem_cons.1 h
      exact ht.append (ih hs)

theorem chunkTail_append (h : WellNested ts) (depth : Nat) (us : List Token) :
    Pattern.chunkTail (depth + 1) (ts ++ us) = Pattern.chunkTail (depth + 1) us + ts.length := by
  induction h generalizing depth us with
  | nil => rfl
  | plain ht _ ih =>
      rw [List.cons_append, Pattern.chunkTail_plain ht, ih, List.length_cons]
      omega
  | @enclosed t u inside rest b ht _ hu _ ihi ihr =>
      have he : t :: inside ++ u :: rest ++ us = t :: (inside ++ u :: (rest ++ us)) := by simp
      rw [he, Pattern.chunkTail_opening ht, ihi, Pattern.chunkTail_closing hu (by simp), ihr]
      simp only [List.length_append, List.length_cons]
      omega

end WellNested

namespace Pattern

/-- The words that open a control structure, each with the word that ends it if it has no braces. -/
def blockWords : List (String × String) :=
  [("if", "endif"), ("while", "endwhile"), ("for", "endfor"), ("foreach", "endforeach"), ("switch", "endswitch")]

inductive Simple : List Token → Prop
  | call {t paren close semi : Token} {inside : List Token} (ht : t.kind = .word) (hk : isKeyword t.text = false)
      (hp : paren.kind = .opening .round) (hi : WellNested inside) (hc : close.kind = .closing .round)
      (hs : semi.kind = .semicolon) : Simple (t :: paren :: inside ++ [close, semi])
  | assignment {t equals literal semi : Token} {quote : Quote} (ht : t.kind = .variable) (he : equals.kind = .equals)
      (hl : literal.kind = .quoted quote true) (hs : semi.kind = .semicolon) : Simple [t, equals, literal, semi]

inductive BlockForm
  | braced
  | alternative

/-- The tokens of `word (header) { ss }`, or of `word (header): ss ending;`. -/
inductive Block (word ending : String) (ss : List (List Token)) : BlockForm → List Token → Prop
  | braced {t paren close opening closing : Token} {header : List Token} (ht : t.isWord word)
      (hp : paren.kind = .opening .round) (hh : WellNested header) (hc : close.kind = .closing .round)
      (ho : opening.kind = .opening .curly) (hl : closing.kind = .closing .curly) :
      Block word ending ss .braced (t :: paren :: (header ++ close :: opening :: (ss.flatten ++ [closing])))
  | alternative {t paren close colon last semi : Token} {header : List Token} (ht : t.isWord word)
      (hp : paren.kind = .opening .round) (hh : WellNested header) (hc : close.kind = .closing .round)
      (hcolon : colon.kind = .mark) (htext : colon.text = ":") (hl : last.isWord ending)
      (hs : semi.kind = .semicolon) :
      Block word ending ss .alternative (t :: paren :: (header ++ close :: colon :: (ss.flatten ++ [last, semi])))

theorem recognize?_of_blockWord {word ending : String} (hw : (word, ending) ∈ blockWords) {t : Token}
    (ht : t.isWord word = true) (ts : List Token) : recognize? t ts = none := by
  have hall : ∀ entry ∈ blockWords, entry.1 ∈ keywords ∧ Text.sameWord entry.1 "var" = false ∧
      Text.sameWord entry.1 "function" = false := by decide
  obtain ⟨hkey, hvar, hfun⟩ := hall _ hw
  obtain ⟨hk, hkeyword⟩ := isKeyword_of_isWord ht hkey
  have ha := assignment?_of_word hk (isWord_of_sameWord ht hvar) ts
  have hc := call?_of_keyword hkeyword ts
  have hf := function?_of_word (isWord_of_sameWord ht hfun) ts
  simp [recognize?, classify, match?, ha, hc, hf]

theorem recognize?_pair (t u : Token) : recognize? t [u] = none := by
  rw [Option.eq_none_iff_forall_ne_some]
  intro m hm
  have hspell := recognize?_spells hm
  generalize hts : [u] = ts at hspell
  cases hspell with
  | assignment | writtenOut | function => simp at hts
  | call => simp at hts

theorem continues_of_ending {word ending : String} (hw : (word, ending) ∈ blockWords) {t : Token}
    (ht : t.isWord ending = true) (ts : List Token) : continues (t :: ts) = false := by
  have hall : ∀ entry ∈ blockWords, ∀ other ∈ ["else", "elseif", "catch", "finally"],
      Text.sameWord entry.2 other = false := by decide
  rw [continues, List.any_eq_false]
  intro other ho
  rw [isWord_of_sameWord ht (hall _ hw other ho)]
  exact Bool.false_ne_true

namespace Simple

variable {s : List Token}

theorem wellNested (h : Simple s) : WellNested s := by
  cases h with
  | call ht _ hp hi hc hs =>
      exact .plain (by simp [ht]) (.enclosed hp hi hc (.plain (by simp [hs]) .nil))
  | assignment ht he hl hs =>
      exact .plain (by simp [ht]) (.plain (by simp [he]) (.plain (by simp [hl]) (.plain (by simp [hs]) .nil)))

theorem complete (h : Simple s) : Complete s := by
  refine ⟨fun b => ⟨0, h.wellNested.neutral b 0⟩, ?_⟩
  intro t ht
  cases h with
  | call _ _ _ _ _ hs =>
      rw [List.getLast?_append_cons, List.getLast?_cons_cons, List.getLast?_singleton] at ht
      cases ht
      exact .inl hs
  | assignment _ _ _ hs =>
      cases ht
      exact .inl hs

theorem continues_eq (h : Simple s) (us : List Token) : continues (s ++ us) = false := by
  have hall : ∀ other ∈ ["else", "elseif", "catch", "finally"], other ∈ keywords := by decide
  cases h with
  | call ht hk =>
      simp only [List.cons_append, continues, List.any_eq_false]
      intro other ho
      rw [isWord_of_isKeyword hk (hall other ho)]
      exact Bool.false_ne_true
  | assignment ht => simp [continues, isWord, ht]

theorem chunkTail_append (h : Simple s) (us : List Token) : chunkTail 0 (s ++ us) = s.length := by
  cases h with
  | @call t paren close semi inside ht _ hp hi hc hs =>
      have he : t :: paren :: inside ++ [close, semi] ++ us = t :: paren :: (inside ++ close :: semi :: us) := by simp
      have hword (ts : List Token) : chunkTail 0 (t :: ts) = chunkTail 0 ts + 1 := by simp [chunkTail, ht]
      have hsemi : chunkTail 0 (semi :: us) = 1 := by simp [chunkTail, hs]
      rw [he, hword, chunkTail_opening hp, hi.chunkTail_append, chunkTail_closing hc (by simp), hsemi]
      simp only [List.length_append, List.length_cons, List.length_nil]
      omega
  | assignment ht he hl hs => simp [chunkTail, ht, he, hl, hs]

end Simple

theorem items_flatten {ss : List (List Token)} (hs : ∀ s ∈ ss, Simple s) {us : List Token}
    (hu : continues us = false) : items (ss.flatten ++ us) = ss.flatMap items ++ items us := by
  induction ss with
  | nil => rfl
  | cons s ss ih =>
      obtain ⟨hfirst, hrest⟩ := List.forall_mem_cons.1 hs
      have hcont : continues (ss.flatten ++ us) = false := by
        cases ss with
        | nil => exact hu
        | cons next ss =>
            rw [List.flatten_cons, List.append_assoc]
            exact (hrest next (.head _)).continues_eq _
      rw [List.flatten_cons, List.append_assoc, items_append _ hfirst.complete hcont, ih hrest, List.flatMap_cons,
        List.append_assoc]

theorem chunk_of_word {t paren close : Token} {header : List Token} (ht : t.kind = .word)
    (hp : paren.kind = .opening .round) (hh : WellNested header) (hc : close.kind = .closing .round) (us : List Token) :
    chunk t (paren :: (header ++ close :: us)) = chunkTail 0 us + header.length + 2 := by
  have hchunk : chunk t (paren :: (header ++ close :: us)) = chunkTail 0 (paren :: (header ++ close :: us)) := by
    simp [chunk, ht]
  rw [hchunk, chunkTail_opening hp, hh.chunkTail_append, chunkTail_closing hc (by simp)]
  omega

section

variable {source word ending : String} {ss : List (List Token)} {ts : List Token}

theorem items_of_chunk {t : Token} {us vs : List Token} (hin : StandIn source (t :: (us ++ vs))) (ht : t.kind = .word)
    (hr : recognize? t (us ++ vs) = none) (hc : chunk t (us ++ vs) = us.length) :
    ∃ place, Marks source (t :: us) place ∧ items (t :: (us ++ vs)) = .fault (.unrecognized place) :: items vs := by
  have hm := excerpt_marks hin us.length
  rw [List.take_left] at hm
  refine ⟨_, hm, ?_⟩
  rw [items_of_none (by simp [isTag, ht]) hr, unrecognized, hc, List.drop_left]

theorem items_of_last_chunk {t : Token} {us : List Token} (hin : StandIn source (t :: us)) (ht : t.kind = .word)
    (hr : recognize? t us = none) (hc : chunk t us = us.length) :
    ∃ place, Marks source (t :: us) place ∧ items (t :: us) = [.fault (.unrecognized place)] := by
  have h := @items_of_chunk source t us []
  rw [List.append_nil, items] at h
  exact h hin ht hr hc

/-- With braces, or without a statement, all is one chunk. -/
theorem Block.items_skipped {form : BlockForm} (hw : (word, ending) ∈ blockWords) (hs : ∀ s ∈ ss, Simple s)
    (h : Block word ending ss form ts) (hf : form = .braced ∨ ss = []) (hin : StandIn source ts) :
    ∃ place, Marks source ts place ∧ items ts = [.fault (.unrecognized place)] := by
  cases h with
  | @braced t paren close opening closing header ht hp hh hc ho hl =>
      refine items_of_last_chunk hin (kind_of_isWord ht) (recognize?_of_blockWord hw ht _) ?_
      have hbody := WellNested.flatten fun s hm => (hs s hm).wellNested
      have hend : chunkTail 1 [closing] = 1 := by simp [chunkTail, hl, continues]
      have hchunk := chunk_of_word (kind_of_isWord ht) hp hh hc (opening :: (ss.flatten ++ [closing]))
      rw [chunkTail_opening ho, hbody.chunkTail_append, hend] at hchunk
      refine hchunk.trans ?_
      simp only [List.length_append, List.length_cons, List.length_nil]
      omega
  | @alternative t paren close colon last semi header ht hp hh hc hcolon _ hl hsemi =>
      rcases hf with hf | rfl
      · cases hf
      · refine items_of_last_chunk hin (kind_of_isWord ht) (recognize?_of_blockWord hw ht _) ?_
        have hend : chunkTail 0 [colon, last, semi] = 3 := by simp [chunkTail, hcolon, kind_of_isWord hl, hsemi]
        have hchunk := chunk_of_word (kind_of_isWord ht) hp hh hc [colon, last, semi]
        rw [hend] at hchunk
        refine hchunk.trans ?_
        simp only [List.flatten_nil, List.nil_append, List.length_append, List.length_cons, List.length_nil]
        omega

/-- Without braces the tokens up to the first semicolon outside brackets are one chunk, and the word behind the statements
is another. The statements between them are read. -/
theorem Block.items_alternative {s : List Token} (hw : (word, ending) ∈ blockWords)
    (hs : ∀ s' ∈ s :: ss, Simple s') (h : Block word ending (s :: ss) .alternative ts) (hin : StandIn source ts) :
    ∃ before after first last, ts = before ++ s ++ ss.flatten ++ after ∧ Marks source (before ++ s) first ∧
      Marks source after last ∧
      items ts = .fault (.unrecognized first) :: ss.flatMap items ++ [.fault (.unrecognized last)] := by
  obtain ⟨hfirst, hrest⟩ := List.forall_mem_cons.1 hs
  cases h with
  | @alternative t paren close colon last semi header ht hp hh hc hcolon _ hl hsemi =>
      have hword := kind_of_isWord hl
      have he : t :: paren :: (header ++ close :: colon :: ((s :: ss).flatten ++ [last, semi])) =
          t :: (paren :: (header ++ close :: colon :: s) ++ (ss.flatten ++ [last, semi])) := by simp
      rw [he] at hin ⊢
      have hcolonTail (us : List Token) : chunkTail 0 (colon :: us) = chunkTail 0 us + 1 := by
        simp [chunkTail, hcolon]
      have hchunk := chunk_of_word (kind_of_isWord ht) hp hh hc (colon :: (s ++ (ss.flatten ++ [last, semi])))
      rw [hcolonTail, hfirst.chunkTail_append] at hchunk
      have hlen : chunk t (paren :: (header ++ close :: colon :: s) ++ (ss.flatten ++ [last, semi])) =
          (paren :: (header ++ close :: colon :: s)).length := by
        rw [List.cons_append, List.append_assoc, List.cons_append, List.cons_append, hchunk]
        simp only [List.length_append, List.length_cons]
        omega
      obtain ⟨first, hm, hi⟩ := items_of_chunk hin (kind_of_isWord ht) (recognize?_of_blockWord hw ht _) hlen
      have hend : chunk last [semi] = 1 := by simp [chunk, chunkTail, hword, hsemi]
      have hin' : StandIn source [last, semi] := hin.tail.append.2.append.2
      obtain ⟨final, hm', hi'⟩ := items_of_last_chunk hin' hword (recognize?_pair last semi) hend
      refine ⟨t :: (paren :: header ++ [close, colon]), [last, semi], first, final, by simp, ?_, hm', ?_⟩
      · simpa using hm
      · rw [hi, items_flatten hrest (continues_of_ending hw hl _), hi', List.cons_append]

theorem Block.exists_last {form : BlockForm} (h : Block word ending ss form ts) :
    ∃ last, ts.getLast? = some last ∧ last.kind ≠ .word ∧ last.kind ≠ .mark := by
  cases h with
  | @braced t paren close opening closing header ht hp hh hc ho hl =>
      have he : t :: paren :: (header ++ close :: opening :: (ss.flatten ++ [closing])) =
          t :: paren :: (header ++ close :: opening :: ss.flatten) ++ [closing] := by simp
      exact ⟨closing, by rw [he, List.getLast?_concat], by simp [hl]⟩
  | @alternative t paren close colon last semi header ht hp hh hc hcolon _ hl hs =>
      have he : t :: paren :: (header ++ close :: colon :: (ss.flatten ++ [last, semi])) =
          t :: paren :: (header ++ close :: colon :: (ss.flatten ++ [last])) ++ [semi] := by simp
      exact ⟨semi, by rw [he, List.getLast?_concat], by simp [hs]⟩

end

end Pattern

theorem Source.pulled_of_last {source : String} {last : Token} (hl : (tokenize source).getLast? = some last)
    (hk : last.kind ≠ .word ∧ last.kind ≠ .mark) : (plain source).pulled = Pattern.scan source := by
  obtain ⟨rest, hr, hink⟩ := Run.pulled_append (Text.inkEnd source) 0 (Pattern.scan source)
  have hp : (plain source).pulled = Run.pulled (Text.inkEnd source) 0 (Pattern.scan source) := rfl
  suffices hn : rest = [] by
    rw [hn, List.append_nil] at hr
    exact hp.trans hr.symm
  rcases hink with hn | hink
  · exact hn
  · obtain ⟨before, us, hts, rfl, hlate⟩ := Pattern.scan_suffix hr hink
    have hin := Lexer.standIn_tokenize source
    cases hu : us.getLast? with
    | none => rw [List.getLast?_eq_none_iff.1 hu, Pattern.items]
    | some u =>
        have hm := List.mem_of_getLast? hu
        have he : u = last := by simpa [hts, hu] using hl
        have hmem : u ∈ tokenize source := by simp [hts, hm]
        rw [hts] at hin
        rcases kind_of_blank_text hmem ((hin.append.2.standsAt hm).isBlank_of_inkEnd_le (hlate u hm)) with hw | hw
        · exact absurd (he ▸ hw) hk.1
        · exact absurd (he ▸ hw) hk.2

open Pattern

theorem Transpile.lowerAll_unrecognized (place : Excerpt) :
    lowerAll .lenient [.fault (.unrecognized place)] = .ok ([], [.ofFault (.unrecognized place)]) := rfl

section

variable {source word ending : String} {ss : List (List Token)}

theorem transpile_skipped {form : BlockForm} (hw : (word, ending) ∈ blockWords) (hs : ∀ s ∈ ss, Simple s)
    (h : Block word ending ss form (tokenize source)) (hf : form = .braced ∨ ss = []) :
    ∃ out, transpile .lenient (.plain source) = .ok out ∧ out.program.body = [] ∧ out.text = "" ∧
      ∃ place, Marks source (tokenize source) place ∧ out.diagnostics = [.ofFault (.unrecognized place)] := by
  obtain ⟨last, hlast, hk⟩ := h.exists_last
  obtain ⟨place, hm, hi⟩ := h.items_skipped hw hs hf (standIn_tokenize source)
  have hl := Transpile.lowerAll_unrecognized place
  rw [← hi, ← scan, ← Source.pulled_of_last hlast hk] at hl
  exact ⟨_, transpile_of_lowerAll hl, by rw [Draft.nodes], rfl, place, hm, rfl⟩

theorem transpile_alternative {s : List Token} (hw : (word, ending) ∈ blockWords) (hs : ∀ s' ∈ s :: ss, Simple s')
    (h : Block word ending (s :: ss) .alternative (tokenize source)) {drafts : List Draft} {ds : List Diagnostic}
    (hd : Transpile.lowerAll .lenient (ss.flatMap items) = .ok (drafts, ds)) :
    ∃ out, transpile .lenient (.plain source) = .ok out ∧ out.program.body = Draft.nodes 0 drafts ∧
      out.text = Draft.lines drafts ∧
      ∃ before after first last, tokenize source = before ++ s ++ ss.flatten ++ after ∧
        Marks source (before ++ s) first ∧ Marks source after last ∧
        out.diagnostics = .ofFault (.unrecognized first) :: ds ++ [.ofFault (.unrecognized last)] := by
  obtain ⟨t, ht, hk⟩ := h.exists_last
  obtain ⟨before, after, first, last, hts, hf, hm, hi⟩ := h.items_alternative hw hs (standIn_tokenize source)
  have hl := Transpile.lowerAll_append (Transpile.lowerAll_unrecognized first)
    (Transpile.lowerAll_append hd (Transpile.lowerAll_unrecognized last))
  rw [List.singleton_append, ← List.cons_append, ← hi, ← scan, ← Source.pulled_of_last ht hk, List.nil_append,
    List.append_nil, List.singleton_append] at hl
  exact ⟨_, transpile_of_lowerAll hl, rfl, rfl, before, after, first, last, hts, hf, hm, rfl⟩

/-- A control structure with braces is skipped whole, and so is one without braces that has no statement. Of one without
braces only the first statement is skipped, with the words in front of it. The other statements become what they would
without the structure. -/
theorem transpile_block {form : BlockForm} (hw : (word, ending) ∈ blockWords) (hs : ∀ s ∈ ss, Simple s)
    (h : Block word ending ss form (tokenize source)) :
    ∃ out, transpile .lenient (.plain source) = .ok out ∧
      match form, ss with
      | .alternative, s :: rest =>
        ∃ drafts ds, Transpile.lowerAll .lenient (rest.flatMap items) = .ok (drafts, ds) ∧
          out.program.body = Draft.nodes 0 drafts ∧ out.text = Draft.lines drafts ∧
          ∃ before after first last, tokenize source = before ++ s ++ rest.flatten ++ after ∧
            Marks source (before ++ s) first ∧ Marks source after last ∧
            out.diagnostics = .ofFault (.unrecognized first) :: ds ++ [.ofFault (.unrecognized last)]
      | _, _ => out.program.body = [] ∧ out.text = "" ∧
          ∃ place, Marks source (tokenize source) place ∧ out.diagnostics = [.ofFault (.unrecognized place)] := by
  cases form with
  | braced => exact transpile_skipped hw hs h (.inl rfl)
  | alternative =>
      cases ss with
      | nil => exact transpile_skipped hw hs h (.inr rfl)
      | cons s ss =>
          obtain ⟨drafts, ds, hd, _⟩ := Transpile.lowerAll_lenient (ss.flatMap items)
          obtain ⟨out, hout, hbody, htext, hplaces⟩ := transpile_alternative hw hs h hd
          exact ⟨out, hout, drafts, ds, hd, hbody, htext, hplaces⟩

end

def shortCall (start : Nat) (name : String) : List Token :=
  [⟨" ", start, .word, name⟩, ⟨"", start + 1, .opening .round, "("⟩, ⟨"", start + 2, .closing .round, ")"⟩,
    ⟨"", start + 3, .semicolon, ";"⟩]

theorem simple_shortCall (start : Nat) {name : String} (h : isKeyword name = false) : Simple (shortCall start name) :=
  @Simple.call ⟨" ", start, .word, name⟩ ⟨"", start + 1, .opening .round, "("⟩ ⟨"", start + 2, .closing .round, ")"⟩
    ⟨"", start + 3, .semicolon, ";"⟩ [] rfl h rfl .nil rfl rfl

theorem simple_pair : ∀ s ∈ [shortCall 9 "f", shortCall 14 "g"], Simple s :=
  List.forall_mem_cons.2 ⟨simple_shortCall 9 (by decide), List.forall_mem_singleton.2 (simple_shortCall 14 (by decide))⟩

def guardedPair : String := "if ($x): f(); g(); endif;"

theorem block_guardedPair :
    Block "if" "endif" [shortCall 9 "f", shortCall 14 "g"] .alternative (tokenize guardedPair) := by
  have ht : tokenize guardedPair = ⟨"", 0, .word, "if"⟩ :: ⟨" ", 3, .opening .round, "("⟩ ::
      ([⟨"", 4, .variable, "$x"⟩] ++ ⟨"", 6, .closing .round, ")"⟩ :: ⟨"", 7, .mark, ":"⟩ ::
        ([shortCall 9 "f", shortCall 14 "g"].flatten ++ [⟨" ", 19, .word, "endif"⟩, ⟨"", 24, .semicolon, ";"⟩])) := by
    cbv
  have hheader : WellNested [⟨"", 4, .variable, "$x"⟩] := .plain (by simp) .nil
  rw [ht]
  exact .alternative (by decide) rfl hheader rfl rfl rfl (by decide) rfl

theorem lowerAll_second : Transpile.lowerAll .lenient ([shortCall 14 "g"].flatMap items) =
    .ok ([.call ⟨.plain "g", []⟩], []) := by
  have hspell : Spells ⟨" ", 14, .word, "g"⟩ _ ⟨.call "g" "", 3⟩ :=
    @Spells.call _ ⟨"", 15, .opening .round, "("⟩ ⟨"", 16, .closing .round, ")"⟩ ⟨"", 17, .semicolon, ";"⟩ [] []
      rfl (by decide) rfl rfl rfl rfl
  have hi : items (shortCall 14 "g") = [.call ⟨⟨14, 18⟩, "g();"⟩ "g" ""] := by
    refine (items_of_call hspell).trans ?_
    rw [List.drop_of_length_le (by simp), items]
    rfl
  have ha : arguments "" = .ok [] := by cbv
  have hc : Transpile.invoke "g" "" = .ok (.call ⟨.plain "g", []⟩) := by
    rw [Transpile.invoke, Call.ofSource, ha]
    rfl
  rw [List.flatMap_singleton, hi]
  simp only [Transpile.lowerAll, Transpile.lower, hc]
  rfl

theorem transpile_block_pair :
    ∃ out, transpile .lenient (.plain guardedPair) = .ok out ∧ out.text = "g();\n" ∧ out.diagnostics.length = 2 := by
  obtain ⟨out, hout, drafts, ds, hd, _, htext, before, after, first, last, _, _, _, hds⟩ :=
    transpile_block (by decide) simple_pair block_guardedPair
  cases lowerAll_second.symm.trans hd
  exact ⟨out, hout, htext, by rw [hds]; rfl⟩

theorem transpile_unguarded :
    Block "if" "endif" [shortCall 9 "f", shortCall 14 "g"] .alternative (tokenize guardedPair) ∧
      ∃ out, transpile .lenient (.plain guardedPair) = .ok out ∧ out.program.body ≠ [] ∧ out.text = "g();\n" := by
  refine ⟨block_guardedPair, ?_⟩
  obtain ⟨out, hout, hbody, htext, _⟩ :=
    transpile_alternative (by decide) simple_pair block_guardedPair lowerAll_second
  exact ⟨out, hout, by rw [hbody, Draft.nodes]; exact List.cons_ne_nil _ _, htext⟩

end PhpTranspiler
