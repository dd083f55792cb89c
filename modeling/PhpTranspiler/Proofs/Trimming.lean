import PhpTranspiler.Proofs.Lexemes

namespace PhpTranspiler

namespace Text

theorem trimEnd_cons (c : Char) (cs : List Char) :
    trimEnd (c :: cs) = if isBlank c ∧ trimEnd cs = [] then [] else c :: trimEnd cs := by
  have he : (cs.reverse.dropWhile isBlank).isEmpty = true ↔ trimEnd cs = [] := by simp [trimEnd]
  rw [trimEnd, List.reverse_cons, List.dropWhile_append]
  by_cases hs : trimEnd cs = []
  · rw [if_pos (he.2 hs)]
    by_cases hc : isBlank c <;> simp [hc, hs]
  · rw [if_neg fun h => hs (he.1 h), if_neg fun h => hs h.2]
    simp [trimEnd]

theorem trimEnd_trimStart (cs : List Char) : trimEnd (trimStart cs) = trimStart (trimEnd cs) := by
  induction cs with
  | nil => rfl
  | cons c cs ih =>
      by_cases hc : isBlank c
      · rw [trimStart, List.dropWhile_cons_of_pos hc, trimEnd_cons]
        split
        · rename_i hs
          rw [← trimStart, ih, hs.2]
        · rw [trimStart, List.dropWhile_cons_of_pos hc]
          exact ih
      · rw [trimStart, List.dropWhile_cons_of_neg hc, trimEnd_cons, if_neg fun h => hc h.1, trimStart,
          List.dropWhile_cons_of_neg hc]

def HasInk (cs : List Char) : Prop := ∃ c ∈ cs, isBlank c = false

/-- The last character before a gap, or the first one behind it, is no blank, unless there is ink in the gap. -/
def Kept (gap : List Char) (edge : Option Char) : Prop := HasInk gap ∨ ∀ c, edge = some c → isBlank c = false

theorem not_hasInk_iff {cs : List Char} : ¬HasInk cs ↔ ∀ c ∈ cs, isBlank c = true := by simp [HasInk]

theorem length_trimEnd_le (cs : List Char) : (trimEnd cs).length ≤ cs.length := by
  obtain ⟨blanks, hb, _⟩ := trimEnd_append_blanks cs
  have hl := congrArg List.length hb
  rw [List.length_append] at hl
  omega

theorem trimEnd_append_of_blank {bs : List Char} (h : ∀ c ∈ bs, isBlank c = true) (as : List Char) :
    trimEnd (as ++ bs) = trimEnd as := by
  rw [trimEnd, List.reverse_append, List.dropWhile_append_of_pos fun c hc => h c (List.mem_reverse.1 hc), ← trimEnd]

theorem trimEnd_append_of_ink {bs : List Char} (h : HasInk bs) (as : List Char) :
    trimEnd (as ++ bs) = as ++ trimEnd bs := by
  have hb : trimEnd bs ≠ [] := by
    intro hn
    obtain ⟨blanks, he, hall⟩ := trimEnd_append_blanks bs
    rw [hn, List.nil_append] at he
    exact not_hasInk_iff.2 (he ▸ hall) h
  induction as with
  | nil => rfl
  | cons a as ih =>
      rw [List.cons_append, trimEnd_cons, ih, if_neg fun he => hb (List.append_eq_nil_iff.1 he.2).2, List.cons_append]

/-- Nothing of the first part is trimmed if the second one has ink, or if the first one ends with it, and only then. -/
theorem length_le_trimEnd_append (as bs : List Char) :
    as.length ≤ (trimEnd (as ++ bs)).length ↔ Kept bs as.getLast? := by
  constructor
  · intro h
    by_contra hn
    obtain ⟨hb, hl⟩ := not_or.1 hn
    obtain ⟨c, hc, hblank⟩ : ∃ c, as.getLast? = some c ∧ isBlank c = true := by simpa using hl
    obtain ⟨xs, rfl⟩ := List.getLast?_eq_some_iff.1 hc
    have hall : ∀ d ∈ c :: bs, isBlank d = true := List.forall_mem_cons.2 ⟨hblank, not_hasInk_iff.1 hb⟩
    have hle := length_trimEnd_le xs
    rw [List.append_assoc, List.singleton_append, trimEnd_append_of_blank hall, List.length_append] at h
    simp only [List.length_singleton] at h
    omega
  · intro h
    have he : trimEnd (as ++ bs) = as ++ trimEnd bs := by
      rcases h with h | h
      · exact trimEnd_append_of_ink h as
      · exact trimEnd_append h bs
    rw [he, List.length_append]
    exact Nat.le_add_right _ _

end Text

namespace Lexer

open Token

def weigh (ts : List Token) : Nat := (ts.map (·.text.toList.length)).sum

theorem weigh_cons (t : Token) (ts : List Token) : weigh (t :: ts) = t.text.toList.length + weigh ts := rfl

theorem weigh_map_bare (ts : List Token) : weigh (ts.map bare) = weigh ts := by
  rw [weigh, List.map_map]
  rfl

def weight (cs : List Char) : Nat := weigh (tokensFrom 0 cs)

theorem weigh_tokensFrom (start : Nat) (cs : List Char) : weigh (tokensFrom start cs) = weight cs := by
  rw [weight, ← weigh_map_bare, bare_tokensFrom start 0, weigh_map_bare]

theorem weight_of_cuts {gap text rest : List Char} {kind : Kind}
    (hg : gapLength .blanks (gap ++ (text ++ rest)) = gap.length) (h : Cuts kind text rest) :
    weight (gap ++ (text ++ rest)) = text.length + weight rest := by
  rw [weight, tokensFrom_of_cuts hg h, weigh_cons, weigh_tokensFrom, String.toList_ofList]

theorem weight_add_gapLength_le (cs : List Char) : weight cs + gapLength .blanks cs ≤ cs.length := by
  have hle := gapLength_le .blanks cs
  induction hn : cs.length using Nat.strong_induction_on generalizing cs with
  | _ n ih =>
      cases h : tokensFrom 0 cs with
      | nil =>
          rw [weight, h]
          simpa [weigh, ← hn] using hle
      | cons t ts =>
          obtain ⟨gap, kind, text, rest, rfl, hg, hc, _⟩ := cuts_of_tokensFrom h
          have hpos : 0 < text.length := by
            obtain ⟨c, cs, rfl, _⟩ := hc
            exact Nat.succ_pos _
          have hlen : (gap ++ (text ++ rest)).length = gap.length + text.length + rest.length := by simp; omega
          have hr := ih rest.length (by omega) rest (gapLength_le .blanks rest) rfl
          rw [weight_of_cuts hg hc, hg]
          omega

theorem gapLength_of_firm {c : Char} (h : isFirm c) (cs : List Char) : gapLength .blanks (c :: cs) = 0 := by
  simp only [isFirm, Bool.and_eq_true, bne_iff_ne, Bool.not_eq_true', ne_eq] at h
  rw [gapLength_of_ne h.1.1, if_neg h.1.2, h.2]
  rfl

def isRun (c : Char) : Bool := isWordRest c || c == '.' || c == '+' || c == '-'

section

variable {rest : List Char} (hr : ∀ c, rest.head? = some c → isRun c = false)

include hr

theorem numberLength_le_of_run (previous : Char) (cs : List Char) : numberLength previous (cs ++ rest) ≤ cs.length := by
  induction cs generalizing previous with
  | nil =>
      cases rest with
      | nil => exact Nat.le_refl _
      | cons d rest =>
          have hd := hr d rfl
          simp only [isRun, isWordRest, isWordStart, Bool.or_eq_false_iff, beq_eq_false_iff_ne, ne_eq] at hd
          simp [numberLength, Char.isAlphanum, hd]
  | cons c cs ih =>
      rw [List.cons_append, numberLength]
      split
      · exact Nat.succ_le_succ (ih c)
      · exact Nat.zero_le _

theorem wordLength_le_of_run (cs : List Char) : wordLength (cs ++ rest) ≤ cs.length := by
  induction cs with
  | nil =>
      cases rest with
      | nil => exact Nat.le_refl _
      | cons d rest =>
          have hd := hr d rfl
          simp only [isRun, Bool.or_eq_false_iff] at hd
          simp [wordLength, hd]
  | cons c cs ih =>
      by_cases hc : isWordRest c
      · simpa [wordLength, hc] using ih
      · simp [wordLength, hc]

theorem lexeme_le_of_run {c : Char} (hc : isRun c) (cs : List Char) : (lexeme c (cs ++ rest)).2 ≤ cs.length := by
  rw [lexeme]
  split
  · exact numberLength_le_of_run hr c cs
  split
  · exact wordLength_le_of_run hr cs
  · rename_i hd hw
    have hm : c = '.' ∨ c = '+' ∨ c = '-' := by simpa [isRun, isWordRest, hd, hw, or_assoc] using hc
    rcases hm with rfl | rfl | rfl <;> simp [Quote.ofChar?]

/-- However a run is cut into tokens, all of it belongs to them. -/
theorem weight_run {cs : List Char} (h : ∀ c ∈ cs, isRun c) : weight (cs ++ rest) = cs.length + weight rest := by
  induction hn : cs.length using Nat.strong_induction_on generalizing cs with
  | _ n ih =>
      cases cs with
      | nil => simp [← hn]
      | cons c cs =>
          have hc := h c (.head _)
          have hle := lexeme_le_of_run hr hc cs
          rcases hl : lexeme c (cs ++ rest) with ⟨kind, k⟩
          rw [hl] at hle
          have htake : (cs.take k).length = k := List.length_take_of_le hle
          have hg : gapLength .blanks ([] ++ ((c :: cs.take k) ++ (cs.drop k ++ rest))) = ([] : List Char).length :=
            gapLength_of_firm (isFirm_of_class hc (by decide)) _
          have hcut : Cuts kind (c :: cs.take k) (cs.drop k ++ rest) := by
            refine ⟨c, cs.take k, rfl, ?_⟩
            rw [← List.append_assoc, List.take_append_drop, hl, htake]
          have hcs : c :: cs ++ rest = [] ++ ((c :: cs.take k) ++ (cs.drop k ++ rest)) := by
            rw [List.nil_append, List.cons_append, List.cons_append, ← List.append_assoc (cs.take k),
              List.take_append_drop]
          rw [List.length_cons] at hn
          have hdrop : (cs.drop k).length = cs.length - k := List.length_drop
          have hrest := ih (cs.drop k).length (by omega) (fun d hd => h d (.tail c (List.mem_of_mem_drop hd))) rfl
          rw [hcs, weight_of_cuts hg hcut, hrest, List.length_cons, htake, hdrop]
          omega

end

theorem weight_of_isAsciiBlank {c : Char} (h : Text.isAsciiBlank c) (cs : List Char) :
    weight (c :: cs) = weight cs := by
  rw [weight, ← weigh_map_bare, bare_tokensFrom_blank h, weigh_map_bare, weight]

theorem isRun_of_isBlank {c : Char} (h : Text.isBlank c) (hn : Text.isAsciiBlank c = false) (hv : c ≠ '\x0b') :
    isRun c := by
  have hall : ∀ n < 128, Text.isBlank (Char.ofNat n) → Text.isAsciiBlank (Char.ofNat n) = false →
      Char.ofNat n = '\x0b' := by decide
  by_cases hlt : c.toNat < 128
  · have he := hall c.toNat hlt
    rw [Char.ofNat_toNat] at he
    exact absurd (he h hn) hv
  · have hge : 0x80 ≤ c.toNat := Nat.le_of_not_lt hlt
    simp [isRun, isWordRest, isWordStart, hge]

theorem weight_of_isBlank {c : Char} (h : Text.isBlank c) (hn : Text.isAsciiBlank c = false) (cs : List Char) :
    weight (c :: cs) = weight cs + 1 := by
  by_cases hv : c = '\x0b'
  · subst hv
    have hg : gapLength .blanks ([] ++ (['\x0b'] ++ cs)) = ([] : List Char).length := gapLength_of_firm (by decide) cs
    have hcut : Cuts .mark ['\x0b'] cs := ⟨'\x0b', [], rfl, by simp [lexeme, isWordStart, Quote.ofChar?, single]⟩
    have hw := weight_of_cuts hg hcut
    rwa [List.length_singleton, Nat.add_comm] at hw
  · have hrun := isRun_of_isBlank h hn hv
    have hr : ∀ d, (cs.dropWhile isRun).head? = some d → isRun d = false := by
      intro d hd
      have hnot := List.head?_dropWhile_not isRun cs
      rwa [hd] at hnot
    have hall : ∀ d ∈ cs.takeWhile isRun, isRun d := List.all_eq_true.1 List.all_takeWhile
    have hone := weight_run hr (List.forall_mem_cons.2 ⟨hrun, hall⟩)
    have hrest := weight_run hr hall
    rw [List.cons_append, List.takeWhile_append_dropWhile, List.length_cons] at hone
    rw [List.takeWhile_append_dropWhile] at hrest
    omega

theorem weight_trimStart (cs : List Char) :
    weight (Text.trimStart cs) + (cs.takeWhile Text.isBlank).countP (!Text.isAsciiBlank ·) = weight cs := by
  induction cs with
  | nil => rfl
  | cons c cs ih =>
      by_cases hb : Text.isBlank c
      · rw [Text.trimStart, List.dropWhile_cons_of_pos hb, List.takeWhile_cons_of_pos hb, List.countP_cons]
        cases ha : Text.isAsciiBlank c with
        | true =>
            rw [weight_of_isAsciiBlank ha, ← ih, Text.trimStart]
            simp
        | false =>
            rw [weight_of_isBlank hb ha, ← ih, Text.trimStart]
            simp only [Bool.not_false, if_true]
            omega
      · rw [Text.trimStart, List.dropWhile_cons_of_neg hb, List.takeWhile_cons_of_neg hb]
        rfl

section

variable {start : Nat} {as bs : List Char}

/-- If a part of a token is lost, the tokens that are left have fewer characters. -/
theorem weight_lt_of_blank_end (hb : ∀ c ∈ bs, Text.isBlank c)
    (h : as.length < (written (tokensFrom start (as ++ bs))).toList.length) : weight as < weight (as ++ bs) := by
  have hn : bs ≠ [] := by
    rintro rfl
    obtain ⟨g, hcs, _⟩ := written_append_gap start (as ++ [])
    have hl := congrArg List.length hcs
    simp only [List.length_append, List.length_nil] at hl
    omega
  induction ht : tokensFrom start (as ++ bs) generalizing start as with
  | nil =>
      rw [ht] at h
      cases h
  | cons t ts ih =>
      rw [ht] at h
      obtain ⟨gap, kind, text, rest, hcs, hg, hc, rfl, htail⟩ := cuts_of_tokensFrom ht
      have hpos : 0 < text.length := by
        obtain ⟨c, cs, rfl, _⟩ := hc
        exact Nat.succ_pos _
      have hw : weight (as ++ bs) = text.length + weight rest := by
        rw [hcs] at hg ⊢
        exact weight_of_cuts hg hc
      have hgap : gapLength .blanks as = min as.length gap.length := by
        rw [gapLength_take (.inr (no_seam_of_blank hb)), hg]
      by_cases hle : gap.length + text.length ≤ as.length
      · have hpre : gap ++ text <+: as ++ bs := ⟨rest, by rw [hcs, List.append_assoc]⟩
        obtain ⟨more, hmore⟩ :=
          List.prefix_of_prefix_length_le hpre (List.prefix_append as bs) (by simpa using hle)
        have hrest : rest = more ++ bs := by
          apply (List.append_right_inj (gap ++ text)).1
          rw [List.append_assoc, ← hcs, ← hmore, List.append_assoc (gap ++ text)]
        subst hrest hmore
        have hcut : gapLength .blanks (gap ++ (text ++ more)) = gap.length := by
          rw [← List.append_assoc, hgap, Nat.min_eq_right (Nat.le_trans (Nat.le_add_right _ _) hle)]
        have hlen : more.length < (written ts).toList.length := by
          simp only [written, String.toList_append, String.toList_ofList, List.length_append] at h
          omega
        have hlt := ih (htail ▸ hlen) htail.symm
        rw [hw, List.append_assoc, weight_of_cuts hcut (hc.take hn)]
        omega
      · have hlight := weight_add_gapLength_le as
        rw [hw]
        omega

theorem weight_trimEnd_le (cs : List Char) : weight (Text.trimEnd cs) ≤ weight cs := by
  obtain ⟨blanks, hb, hall⟩ := Text.trimEnd_append_blanks cs
  by_cases h : (written (tokensFrom 0 (Text.trimEnd cs ++ blanks))).toList.length ≤ (Text.trimEnd cs).length
  · rw [weight, tokensFrom_of_blank_end hall h, ← hb, weight]
  · have hlt := weight_lt_of_blank_end hall (Nat.lt_of_not_le h)
    rw [← hb] at hlt
    exact Nat.le_of_lt hlt

end

theorem isAsciiBlank_of_gap {gap : List Char} (h : gapLength .blanks gap = gap.length) :
    ∀ c ∈ gap.takeWhile Text.isBlank, Text.isAsciiBlank c := by
  induction gap with
  | nil => simp
  | cons c gap ih =>
      by_cases hb : Text.isBlank c
      · have hne (d : Char) (hd : Text.isBlank d = false) : c ≠ d := by
          rintro rfl
          simp [hb] at hd
        rw [gapLength_of_ne (hne '/' (by decide)), if_neg (hne '#' (by decide))] at h
        by_cases hc : Text.isAsciiBlank c
        · rw [if_pos hc, List.length_cons] at h
          rw [List.takeWhile_cons_of_pos hb]
          exact List.forall_mem_cons.2 ⟨hc, ih (by omega)⟩
        · rw [if_neg hc] at h
          cases h
      · simp [hb]

theorem isAsciiBlank_front_iff {start : Nat} {cs : List Char} :
    (∀ c ∈ cs.takeWhile Text.isBlank, Text.isAsciiBlank c) ↔
      ∀ t, (tokensFrom start cs).head? = some t → Text.Kept t.gap.toList t.text.toList.head? := by
  cases h : tokensFrom start cs with
  | nil =>
      obtain ⟨g, hcs, hg⟩ := written_append_gap start cs
      rw [h, written, String.toList_empty, List.nil_append] at hcs
      subst hcs
      simpa using isAsciiBlank_of_gap hg
  | cons t ts =>
      obtain ⟨gap, kind, text, rest, rfl, hg, ⟨c, cs, rfl, _⟩, rfl, _⟩ := cuts_of_tokensFrom h
      have hgap : gapLength .blanks gap = gap.length := by
        rw [gapLength_take (.inl (Nat.le_of_eq hg)), hg, Nat.min_self]
      have hfront := isAsciiBlank_of_gap hgap
      simp only [List.head?_cons, Option.some.injEq, forall_eq', String.toList_ofList]
      by_cases hink : Text.HasInk gap
      · have hlen : ¬(gap.takeWhile Text.isBlank).length = gap.length := by
          intro he
          have hall := (List.takeWhile_prefix Text.isBlank).eq_of_length he
          exact Text.not_hasInk_iff.2 (hall ▸ List.all_eq_true.1 List.all_takeWhile) hink
        rw [List.takeWhile_append, if_neg hlen]
        exact ⟨fun _ => .inl hink, fun _ => hfront⟩
      · have hall := Text.not_hasInk_iff.1 hink
        rw [List.takeWhile_append_of_pos hall, List.forall_mem_append]
        have hself : gap.takeWhile Text.isBlank = gap := by simpa using hall
        rw [hself] at hfront
        by_cases hb : Text.isBlank c
        · have hzero := gapLength_drop .blanks (gap ++ (c :: cs ++ rest))
          rw [hg, List.drop_left, List.cons_append] at hzero
          have hc : ¬Text.isAsciiBlank c := by
            intro hc
            rw [gapLength_of_blank hc] at hzero
            cases hzero
          simp [Text.Kept, hb, hc, hink]
        · simpa [Text.Kept, hb, hink] using hfront

/-- What trimming leaves has the tokens of the text if and only if no token is cut by it. -/
theorem bare_trim_iff {start : Nat} {cs : List Char} :
    (tokensFrom 0 (Text.trimEnd (Text.trimStart cs))).map bare = (tokensFrom start cs).map bare ↔
      (written (tokensFrom start cs)).toList.length ≤ (Text.trimEnd cs).length ∧
        ∀ c ∈ (Text.trimEnd cs).takeWhile Text.isBlank, Text.isAsciiBlank c := by
  rw [Text.trimEnd_trimStart]
  obtain ⟨blanks, hcs, hall⟩ := Text.trimEnd_append_blanks cs
  have hend := weight_trimEnd_le cs
  generalize Text.trimEnd cs = front at hcs hend ⊢
  subst hcs
  constructor
  · intro h
    have hw : weight (Text.trimStart front) = weight (front ++ blanks) := by
      rw [weight, ← weigh_map_bare, h, weigh_map_bare, weigh_tokensFrom]
    have hstart := weight_trimStart front
    constructor
    · by_contra hn
      have hlt := weight_lt_of_blank_end hall (Nat.lt_of_not_le hn)
      omega
    · intro c hc
      have hzero : (front.takeWhile Text.isBlank).countP (!Text.isAsciiBlank ·) = 0 := by omega
      simpa using List.countP_eq_zero.1 hzero c hc
  · rintro ⟨hle, hfront⟩
    have hblanks := bareTokens_blanks hfront (Text.trimStart front)
    rw [Text.trimStart, List.takeWhile_append_dropWhile, ← Text.trimStart] at hblanks
    rw [← tokensFrom_of_blank_end hall hle, bare_tokensFrom start 0]
    exact hblanks.symm

end Lexer

end PhpTranspiler
