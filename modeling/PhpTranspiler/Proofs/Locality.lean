import PhpTranspiler.Proofs.Recognition

namespace PhpTranspiler.Pattern

open Nesting

/-- Of each form of bracket, the tokens close what is open before them and what they open, and the last
token ends a statement. -/
structure Complete (ts : List Token) : Prop where
  level : ∀ b, ∃ depth, level? b depth ts = some 0
  last : ∀ t, ts.getLast? = some t → t.kind = .semicolon ∨ t.kind = .closing .curly

variable {t : Token} {ts us : List Token}

theorem Complete.of_append (h : Complete (ts ++ us)) : Complete us := by
  constructor
  · intro b
    obtain ⟨depth, hd⟩ := h.level b
    rw [level?_append] at hd
    obtain ⟨d, _, hu⟩ := Option.bind_eq_some_iff.1 hd
    exact ⟨d, hu⟩
  · intro t ht
    apply h.last
    simp [ht]

theorem Complete.drop (h : Complete ts) (n : Nat) : Complete (ts.drop n) := by
  rw [← List.take_append_drop n ts] at h
  exact h.of_append

theorem Complete.tail (h : Complete (t :: ts)) : Complete ts := h.drop 1

theorem Complete.ne_nil (h : Complete (t :: ts)) (hs : t.kind ≠ .semicolon) (hc : t.kind ≠ .closing .curly) :
    ts ≠ [] := by
  rintro rfl
  rcases h.last t rfl with hk | hk
  · exact hs hk
  · exact hc hk

theorem Complete.opened_le (h : Complete ts) (b : Bracket) : opened b ts ≤ closed b ts := by
  obtain ⟨depth, hd⟩ := h.level b
  have hc := closed_eq_of_level? hd
  omega

theorem Complete.openedAll_le (h : Complete ts) : openedAll ts ≤ closedAll ts :=
  Nat.add_le_add (Nat.add_le_add (h.opened_le .round) (h.opened_le .curly)) (h.opened_le .square)

theorem Complete.enclosed?_append {b : Bracket} (h : Complete (t :: ts)) (hk : t.kind = .opening b)
    (us : List Token) :
    ∃ inside close rest, enclosed? b 0 ts = some (inside, close, rest) ∧ close.kind = .closing b ∧
      Complete (close :: rest) ∧ enclosed? b 0 (ts ++ us) = some (inside, close, rest ++ us) := by
  have hlt : 0 + opened b ts < closed b ts := by
    have hle := h.opened_le b
    simp only [opened_cons, closed_cons, hk, ↓reduceIte, reduceCtorEq] at hle
    omega
  obtain ⟨inside, close, rest, he⟩ := exists_enclosed? hlt
  obtain ⟨rfl, hc, _⟩ := enclosed?_eq_some_iff.1 he
  exact ⟨inside, close, rest, he, hc, h.tail.of_append, Nesting.enclosed?_append he us⟩

variable (us)

theorem value?_append (h : Complete ts) (hn : ts ≠ []) (name : String) (skipped : Nat) :
    value? name skipped (ts ++ us) = value? name skipped ts := by
  match ts with
  | [] => exact absurd rfl hn
  | [t] =>
      have hk : t.kind ≠ .equals := by rcases h.last t rfl with hk | hk <;> simp [hk]
      rcases us with _ | ⟨u, _ | ⟨v, us⟩⟩
      · rfl
      · rfl
      · simp [value?, hk]
  | [t, u] =>
      have hk : u.kind ≠ .quoted .double true := by rcases h.last u rfl with hk | hk <;> simp [hk]
      cases us with
      | nil => rfl
      | cons v us => simp [value?, hk]
  | t :: u :: v :: ts => rfl

theorem assignment?_append (h : Complete (t :: ts)) : assignment? t (ts ++ us) = assignment? t ts := by
  cases hk : t.kind with
  | «variable» =>
      have hn := h.ne_nil (by simp [hk]) (by simp [hk])
      simpa only [assignment?, hk] using value?_append us h.tail hn t.name 0
  | word =>
      obtain ⟨name, ts, rfl⟩ := List.exists_cons_of_ne_nil (h.ne_nil (by simp [hk]) (by simp [hk]))
      simp only [List.cons_append, assignment?, hk]
      split
      · rename_i hv
        have hn := h.tail.ne_nil (by simp [hv.2]) (by simp [hv.2])
        exact value?_append us h.tail.tail hn name.text 1
      · rfl
  | _ => simp [assignment?, hk]

theorem call?_append (h : Complete (t :: ts)) : call? t (ts ++ us) = call? t ts := by
  by_cases hk : t.kind = .word
  · obtain ⟨paren, ts, rfl⟩ := List.exists_cons_of_ne_nil (h.ne_nil (by simp [hk]) (by simp [hk]))
    simp only [List.cons_append, call?]
    split
    · rename_i hc
      obtain ⟨inside, close, rest, he, hclose, hrest, ha⟩ := h.tail.enclosed?_append hc.2.2 us
      obtain ⟨semi, rest, rfl⟩ := List.exists_cons_of_ne_nil
        (hrest.ne_nil (by simp [hclose]) (by simp [hclose]))
      rw [he, ha]
      rfl
    · rfl
  · cases ts with
    | nil => cases us <;> simp [call?, hk]
    | cons paren ts => simp [call?, hk]

theorem function?_of_brace {name paren close brace : Token} {inside rest : List Token}
    (he : enclosed? .round 0 ts = some (inside, close, brace :: rest)) (hb : brace.kind ≠ .opening .curly) :
    function? t (name :: paren :: ts) = none := by
  simp only [function?, he, if_neg hb]
  split
  · split <;> rfl
  · rfl

theorem function?_of_word (hk : t.isWord "function" = false) (ts : List Token) : function? t ts = none := by
  match ts with
  | [] | [_] => rfl
  | name :: paren :: ts => simp [function?, hk]

theorem function?_of_name {name : Token} (hk : name.kind ≠ .word) (ts : List Token) :
    function? t (name :: ts) = none := by
  cases ts with
  | nil => rfl
  | cons paren ts => simp [function?, hk]

theorem function?_append (h : Complete (t :: ts)) : function? t (ts ++ us) = function? t ts := by
  by_cases hw : t.isWord "function" = true
  · have hk := Token.kind_of_isWord hw
    obtain ⟨name, ts, rfl⟩ := List.exists_cons_of_ne_nil (h.ne_nil (by simp [hk]) (by simp [hk]))
    by_cases hname : name.kind = .word
    · obtain ⟨paren, ts, rfl⟩ := List.exists_cons_of_ne_nil
        (h.tail.ne_nil (by simp [hname]) (by simp [hname]))
      by_cases hparen : paren.kind = .opening .round
      · obtain ⟨inside, close, rest, he, hclose, hrest, ha⟩ := h.tail.tail.enclosed?_append hparen us
        obtain ⟨brace, rest, rfl⟩ := List.exists_cons_of_ne_nil
          (hrest.ne_nil (by simp [hclose]) (by simp [hclose]))
        by_cases hbrace : brace.kind = .opening .curly
        · obtain ⟨body, last, rest, he', _, _, ha'⟩ := hrest.tail.enclosed?_append hbrace us
          simp only [List.cons_append] at ha ⊢
          simp only [function?, he, ha, he', ha']
          cases parameters? inside <;> rfl
        · rw [List.cons_append, List.cons_append, function?_of_brace he hbrace, function?_of_brace ha hbrace]
      · simp [function?, hparen]
    · rw [List.cons_append, function?_of_name hname, function?_of_name hname]
  · rw [Bool.not_eq_true] at hw
    rw [function?_of_word hw, function?_of_word hw]

theorem match?_append (h : Complete (t :: ts)) (shape : Shape) :
    match? shape t (ts ++ us) = match? shape t ts := by
  cases shape with
  | assignment => exact assignment?_append us h
  | call => exact call?_append us h
  | function => exact function?_append us h

theorem recognize?_append (h : Complete (t :: ts)) : recognize? t (ts ++ us) = recognize? t ts := by
  have hc : classify (t :: (ts ++ us)) = classify (t :: ts) := by
    simp only [classify, match?_append us h]
  rw [recognize?, recognize?, hc]
  congr 1
  funext shape
  exact match?_append us h shape

theorem continues_append (hn : ts ≠ []) : continues (ts ++ us) = continues ts := by
  obtain ⟨t, ts, rfl⟩ := List.exists_cons_of_ne_nil hn
  rfl

/-- A chunk ends with the tokens at the latest, if all that is open closes among them. -/
theorem chunkTail_append {depth : Nat} (h : Complete ts) (hn : ts ≠ [])
    (hd : depth + openedAll ts ≤ closedAll ts) (hu : continues us = false) :
    chunkTail depth (ts ++ us) = chunkTail depth ts := by
  induction ts generalizing depth with
  | nil => exact absurd rfl hn
  | cons t ts ih =>
      rw [openedAll_cons, closedAll_cons] at hd
      rw [List.cons_append, chunkTail.eq_def, chunkTail.eq_def depth (t :: ts)]
      cases hk : t.kind with
      | opening b =>
          simp only [hk] at hd ⊢
          rw [ih h.tail (h.ne_nil (by simp [hk]) (by simp [hk])) (by omega)]
      | closing b =>
          simp only [hk] at hd ⊢
          cases depth with
          | zero => rfl
          | succ depth =>
              by_cases hts : ts = []
              · -- What follows is read here, to see whether the block goes on.
                subst hts
                have hb : b = .curly := by simpa [hk] using h.last t rfl
                have h0 : depth = 0 := by
                  rw [closedAll_nil] at hd
                  omega
                have hnil : continues [] = false := rfl
                simp [hb, h0, hu, hnil]
              · simp only [continues_append us hts]
                rw [ih h.tail hts (by omega)]
      | semicolon =>
          simp only [hk] at hd ⊢
          by_cases h0 : depth = 0
          · rw [if_pos h0, if_pos h0]
          · have hts : ts ≠ [] := by
              rintro rfl
              rw [closedAll_nil] at hd
              omega
            rw [if_neg h0, if_neg h0, ih h.tail hts (by omega)]
      | openTag | closeTag =>
          simp only [hk] at hd ⊢
          rw [ih h.tail (h.ne_nil (by simp [hk]) (by simp [hk])) (by omega)]
      | _ =>
          simp only [hk] at hd ⊢
          rw [ih h.tail (h.ne_nil (by simp [hk]) (by simp [hk])) (by omega)]

theorem chunk_append (h : Complete (t :: ts)) (hu : continues us = false) :
    chunk t (ts ++ us) = chunk t ts := by
  have hd := h.openedAll_le
  rw [openedAll_cons, closedAll_cons] at hd
  unfold chunk
  cases hk : t.kind with
  | opening b =>
      simp only [hk] at hd ⊢
      exact chunkTail_append us h.tail (h.ne_nil (by simp [hk]) (by simp [hk])) (by omega) hu
  | closing b | semicolon => rfl
  | _ =>
      simp only [hk] at hd ⊢
      exact chunkTail_append us h.tail (h.ne_nil (by simp [hk]) (by simp [hk])) (by omega) hu

theorem excerpt_append {more : Nat} (hn : more ≤ ts.length) :
    excerpt t (ts ++ us) more = excerpt t ts more := by
  rw [excerpt, excerpt, List.take_append_of_le_length hn]

theorem item_append {m : Match} (hn : m.more ≤ ts.length) (body : List Item) :
    m.item t (ts ++ us) body = m.item t ts body := by
  simp only [Match.item, excerpt_append us hn]

theorem chunkTail_le (depth : Nat) (ts : List Token) : chunkTail depth ts ≤ ts.length := by
  fun_induction chunkTail depth ts <;> simp_all

theorem chunk_le (t : Token) (ts : List Token) : chunk t ts ≤ ts.length := by
  unfold chunk
  split
  · exact chunkTail_le 1 ts
  · exact Nat.zero_le _
  · exact Nat.zero_le _
  · exact chunkTail_le 0 ts

theorem Spells.more_le {m : Match} (h : Spells t ts m) : m.more ≤ ts.length := by
  cases h with
  | assignment => simp
  | writtenOut => simp
  | call => simp
  | function =>
      simp only [List.length_append, List.length_cons]
      omega

/-- Behind the end of a statement, reading starts anew. -/
theorem items_append (h : Complete ts) (hu : continues us = false) :
    items (ts ++ us) = items ts ++ items us := by
  fun_induction items ts with
  | case1 => rfl
  | case2 t ts ht ih => rw [List.cons_append, items_of_tag ht, ih h.tail]
  | case3 t ts ht hm ih =>
      have ht' : t.isTag = false := by simpa using ht
      have hr : recognize? t (ts ++ us) = none := by rw [recognize?_append us h, hm]
      rw [List.cons_append, items_of_none ht' hr, chunk_append us h hu,
        List.drop_append_of_le_length (chunk_le t ts), ih (h.tail.drop _), unrecognized, unrecognized,
        chunk_append us h hu, excerpt_append us (chunk_le t ts)]
      rfl
  | case4 t ts ht m hm item hi ihb ih =>
      have ht' : t.isTag = false := by simpa using ht
      have hle := (recognize?_spells hm).more_le
      have hr : recognize? t (ts ++ us) = some m := by rw [recognize?_append us h, hm]
      rw [List.cons_append, items_of_ok ht' hr (by rw [item_append us hle, hi]),
        List.drop_append_of_le_length hle, ih (h.tail.drop _), List.cons_append]
  | case5 t ts ht m hm fault hf ihb ih =>
      have ht' : t.isTag = false := by simpa using ht
      have hle := (recognize?_spells hm).more_le
      have hr : recognize? t (ts ++ us) = some m := by rw [recognize?_append us h, hm]
      rw [List.cons_append, items_of_error ht' hr (by rw [item_append us hle, hf]), chunk_append us h hu,
        List.drop_append_of_le_length (chunk_le t ts), ih (h.tail.drop _), List.cons_append]

end PhpTranspiler.Pattern
