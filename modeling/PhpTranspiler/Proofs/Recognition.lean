import PhpTranspiler.Pattern
import PhpTranspiler.Proofs.Brackets

namespace PhpTranspiler

theorem Text.sameWord_comm (a b : String) : sameWord a b = sameWord b a := Bool.beq_comm

theorem Token.kind_of_isWord {t : Token} {word : String} (h : t.isWord word = true) : t.kind = .word := by
  simp only [isWord, Bool.and_eq_true, beq_iff_eq] at h
  exact h.1

theorem Token.isWord_of_sameWord {t : Token} {word other : String} (h : t.isWord word = true)
    (hne : Text.sameWord word other = false) : t.isWord other = false := by
  rw [Bool.eq_false_iff]
  intro ho
  simp only [isWord, Text.sameWord, Bool.and_eq_true, beq_iff_eq, beq_eq_false_iff_ne] at h ho hne
  exact hne (h.2.symm.trans ho.2)

namespace Pattern

open Nesting

inductive Spells : Token → List Token → Match → Prop
  | assignment {t equals literal semi : Token} {rest : List Token} (ht : t.kind = .variable)
      (he : equals.kind = .equals) (hl : literal.kind = .quoted .double true)
      (hs : semi.kind = .semicolon) :
      Spells t (equals :: literal :: semi :: rest) ⟨.assignment t.name literal, 3⟩
  | writtenOut {t name equals literal semi : Token} {rest : List Token} (ht : t.isWord "var")
      (hn : name.kind = .word) (he : equals.kind = .equals) (hl : literal.kind = .quoted .double true)
      (hs : semi.kind = .semicolon) :
      Spells t (name :: equals :: literal :: semi :: rest) ⟨.assignment name.text literal, 4⟩
  | call {t paren close semi : Token} {inside rest : List Token} (ht : t.kind = .word)
      (hk : isKeyword t.text = false) (hp : paren.kind = .opening .round) (hi : Balanced .round inside)
      (hc : close.kind = .closing .round) (hs : semi.kind = .semicolon) :
      Spells t (paren :: inside ++ close :: semi :: rest)
        ⟨.call t.text (inner inside close), inside.length + 3⟩
  | function {t name paren close brace last : Token} {inside body rest : List Token}
      {params : List String} (ht : t.isWord "function") (hn : name.kind = .word)
      (hp : paren.kind = .opening .round) (hi : Balanced .round inside)
      (hc : close.kind = .closing .round) (hps : parameters? inside = some params)
      (hb : brace.kind = .opening .curly) (hbody : Balanced .curly body)
      (hl : last.kind = .closing .curly) :
      Spells t (name :: paren :: inside ++ close :: brace :: body ++ last :: rest)
        ⟨.function name.text params body (inner body last), inside.length + body.length + 5⟩

theorem value?_eq_some {name : String} {skipped : Nat} {ts : List Token} {m : Match}
    (h : value? name skipped ts = some m) :
    ∃ equals literal semi rest, ts = equals :: literal :: semi :: rest ∧ equals.kind = .equals ∧
      literal.kind = .quoted .double true ∧ semi.kind = .semicolon ∧
      m = ⟨.assignment name literal, skipped + 3⟩ := by
  unfold value? at h
  split at h
  · rename_i equals literal semi rest
    split at h
    · rename_i hk
      cases h
      exact ⟨equals, literal, semi, rest, rfl, hk.1, hk.2.1, hk.2.2, rfl⟩
    · simp at h
  · simp at h

theorem assignment?_spells {t : Token} {ts : List Token} {m : Match} (h : assignment? t ts = some m) :
    Spells t ts m := by
  unfold assignment? at h
  split at h
  · rename_i hk
    obtain ⟨equals, literal, semi, rest, rfl, he, hl, hs, rfl⟩ := value?_eq_some h
    exact .assignment hk he hl hs
  · rename_i n ts hk
    split at h
    · rename_i hn
      obtain ⟨equals, literal, semi, rest, rfl, he, hl, hs, rfl⟩ := value?_eq_some h
      exact .writtenOut hn.1 hn.2 he hl hs
    · simp at h
  · simp at h

theorem call?_spells {t : Token} {ts : List Token} {m : Match} (h : call? t ts = some m) :
    Spells t ts m := by
  unfold call? at h
  split at h
  · rename_i paren ts
    split at h
    · rename_i ht
      split at h
      · rename_i inside close semi rest henc
        obtain ⟨rfl, hc, hi⟩ := enclosed?_eq_some_iff.1 henc
        split at h
        · rename_i hs
          cases h
          exact .call ht.1 (by simpa using ht.2.1) ht.2.2 hi hc hs
        · simp at h
      · simp at h
    · simp at h
  · simp at h

theorem function?_spells {t : Token} {ts : List Token} {m : Match} (h : function? t ts = some m) :
    Spells t ts m := by
  unfold function? at h
  split at h
  · rename_i name paren ts
    split at h
    · rename_i ht
      split at h
      · rename_i inside close brace rest henc
        obtain ⟨rfl, hc, hi⟩ := enclosed?_eq_some_iff.1 henc
        split at h
        · rename_i params body last rest hps hbody
          obtain ⟨rfl, hl, hb⟩ := enclosed?_eq_some_iff.1 hbody
          split at h
          · rename_i hbrace
            cases h
            have hf : Spells t (name :: paren :: inside ++ close :: brace :: body ++ last :: rest) _ :=
              .function ht.1 ht.2.1 ht.2.2 hi hc hps hbrace hb hl
            simpa using hf
          · simp at h
        · simp at h
      · simp at h
    · simp at h
  · simp at h

theorem match?_spells {shape : Shape} {t : Token} {ts : List Token} {m : Match}
    (h : match? shape t ts = some m) : Spells t ts m := by
  cases shape with
  | assignment => exact assignment?_spells h
  | call => exact call?_spells h
  | function => exact function?_spells h

theorem recognize?_spells {t : Token} {ts : List Token} {m : Match} (h : recognize? t ts = some m) :
    Spells t ts m := by
  obtain ⟨shape, _, hm⟩ := Option.bind_eq_some_iff.1 h
  exact match?_spells hm

section

variable {t : Token} {ts : List Token} {m : Match}

theorem recognize?_of_assignment? (h : assignment? t ts = some m) : recognize? t ts = some m := by
  have hc : classify (t :: ts) = some .assignment := by simp [classify, match?, h]
  rw [recognize?, hc]
  exact h

theorem recognize?_of_call? (ha : assignment? t ts = none) (h : call? t ts = some m) :
    recognize? t ts = some m := by
  have hc : classify (t :: ts) = some .call := by simp [classify, match?, ha, h]
  rw [recognize?, hc]
  exact h

theorem recognize?_of_function? (ha : assignment? t ts = none) (hcall : call? t ts = none)
    (h : function? t ts = some m) : recognize? t ts = some m := by
  have hc : classify (t :: ts) = some .function := by simp [classify, match?, ha, hcall, h]
  rw [recognize?, hc]
  exact h

theorem isKeyword_of_isWord {word : String} (h : t.isWord word = true) (hw : word ∈ keywords) :
    t.kind = .word ∧ isKeyword t.text = true := by
  simp only [Token.isWord, Bool.and_eq_true, beq_iff_eq] at h
  refine ⟨h.1, ?_⟩
  rw [isKeyword, List.any_eq_true]
  exact ⟨word, hw, by rw [Text.sameWord_comm, h.2]⟩

theorem isWord_of_isKeyword (h : isKeyword t.text = false) {word : String} (hw : word ∈ keywords) :
    t.isWord word = false := by
  rw [Bool.eq_false_iff]
  intro hk
  have hkey := (isKeyword_of_isWord hk hw).2
  simp [h] at hkey

theorem assignment?_of_word (hk : t.kind = .word) (hv : t.isWord "var" = false) (ts : List Token) :
    assignment? t ts = none := by
  cases ts with
  | nil => simp [assignment?, hk]
  | cons n ts => simp [assignment?, hk, hv]

theorem call?_of_keyword (hk : isKeyword t.text = true) (ts : List Token) : call? t ts = none := by
  cases ts with
  | nil => rfl
  | cons paren ts => simp [call?, hk]

theorem Spells.recognize?_eq (h : Spells t ts m) : recognize? t ts = some m := by
  cases h with
  | assignment ht he hl hs =>
      apply recognize?_of_assignment?
      simp [assignment?, value?, ht, he, hl, hs]
  | writtenOut ht hn he hl hs =>
      have hk := (isKeyword_of_isWord ht (by decide)).1
      apply recognize?_of_assignment?
      simp [assignment?, value?, hk, ht, hn, he, hl, hs]
  | @call paren close semi inside rest ht hk hp hi hc hs =>
      have henc : enclosed? .round 0 (inside ++ close :: semi :: rest) = some (inside, close, semi :: rest) :=
        enclosed?_eq_some_iff.2 ⟨rfl, hc, hi⟩
      apply recognize?_of_call?
      · exact assignment?_of_word ht (isWord_of_isKeyword hk (by decide)) _
      · simp [call?, ht, hk, hp, henc, hs]
  | @function name paren close brace last inside body rest params ht hn hp hi hc hps hb hbody hl =>
      obtain ⟨hk, hkey⟩ := isKeyword_of_isWord ht (by decide)
      have henc : enclosed? .round 0 (inside ++ close :: brace :: (body ++ last :: rest)) =
          some (inside, close, brace :: (body ++ last :: rest)) :=
        enclosed?_eq_some_iff.2 ⟨rfl, hc, hi⟩
      have hbody' : enclosed? .curly 0 (body ++ last :: rest) = some (body, last, rest) :=
        enclosed?_eq_some_iff.2 ⟨rfl, hl, hbody⟩
      apply recognize?_of_function?
      · exact assignment?_of_word hk (Token.isWord_of_sameWord ht (by decide)) _
      · exact call?_of_keyword hkey _
      · simp [function?, ht, hn, hp, henc, hps, hbody', hb]

/-- No two of the ways to spell a statement go together, so the order in which they are tried is no matter. -/
theorem recognize?_eq_some_iff : recognize? t ts = some m ↔ Spells t ts m :=
  ⟨recognize?_spells, Spells.recognize?_eq⟩

end

theorem parameter?_append {before : List Token} (hv : ∀ t ∈ before, t.kind ≠ .variable) (ts : List Token) :
    parameter? (before ++ ts) =
      if before.any fun t => t.kind = .mark ∧ t.text.toList.head? = some '.' then none else parameter? ts := by
  induction before with
  | nil => rfl
  | cons t before ih =>
      rw [List.cons_append, parameter?, if_neg (hv t (.head _)), ih fun u hu => hv u (.tail _ hu), List.any_cons]
      by_cases hp : t.kind = .mark ∧ t.text.toList.head? = some '.' <;> simp [hp]

theorem take_call (paren close semi : Token) (inside rest : List Token) :
    (paren :: inside ++ close :: semi :: rest).take (inside.length + 3) = paren :: inside ++ [close, semi] := by
  have he : paren :: inside ++ close :: semi :: rest = (paren :: inside ++ [close, semi]) ++ rest := by simp
  rw [he, List.take_left' (by simp)]

theorem take_function (name paren close brace last : Token) (inside body rest : List Token) :
    (name :: paren :: inside ++ close :: brace :: body ++ last :: rest).take (inside.length + body.length + 5) =
      name :: paren :: inside ++ close :: brace :: body ++ [last] := by
  have he : name :: paren :: inside ++ close :: brace :: body ++ last :: rest =
      (name :: paren :: inside ++ close :: brace :: body ++ [last]) ++ rest := by simp
  rw [he, List.take_left' (by simp; omega)]

/-- An assignment ends where an unreadable chunk in its place would. -/
theorem Spells.chunk_eq {t literal : Token} {ts : List Token} {name : String} {more : Nat}
    (h : Spells t ts ⟨.assignment name literal, more⟩) : chunk t ts = more := by
  cases h with
  | assignment ht he hl hs => simp [chunk, chunkTail, ht, he, hl, hs]
  | writtenOut ht hn he hl hs =>
      simp [chunk, chunkTail, Token.kind_of_isWord ht, hn, he, hl, hs]

theorem items_of_tag {t : Token} (ht : t.isTag = true) (ts : List Token) :
    items (t :: ts) = items ts := by
  rw [items, if_pos ht]

theorem items_of_none {t : Token} {ts : List Token} (ht : t.isTag = false)
    (h : recognize? t ts = none) :
    items (t :: ts) = .fault (unrecognized t ts) :: items (ts.drop (chunk t ts)) := by
  rw [items, if_neg (by simp [ht])]
  split
  · rfl
  · simp_all

theorem items_of_ok {t : Token} {ts : List Token} {m : Match} {item : Item} (ht : t.isTag = false)
    (h : recognize? t ts = some m) (hi : m.item t ts (items m.body) = .ok item) :
    items (t :: ts) = item :: items (ts.drop m.more) := by
  rw [items, if_neg (by simp [ht])]
  split
  · simp_all
  · rename_i m' hm
    cases h.symm.trans hm
    rw [hi]

theorem items_of_error {t : Token} {ts : List Token} {m : Match} {fault : Fault} (ht : t.isTag = false)
    (h : recognize? t ts = some m) (hf : m.item t ts (items m.body) = .error fault) :
    items (t :: ts) = .fault fault :: items (ts.drop (chunk t ts)) := by
  rw [items, if_neg (by simp [ht])]
  split
  · simp_all
  · rename_i m' hm
    cases h.symm.trans hm
    rw [hf]

section

variable {t : Token} {ts : List Token} {more : Nat}

theorem Spells.isTag_eq {m : Match} (h : Spells t ts m) : t.isTag = false := by
  cases h with
  | assignment hk | call hk => rw [Token.isTag, hk]; rfl
  | writtenOut hw | function hw => rw [Token.isTag, (isKeyword_of_isWord hw (by decide)).1]; rfl

theorem items_of_assignment {name value : String} {literal : Token}
    (h : Spells t ts ⟨.assignment name literal, more⟩) (hd : Quoted.decode? literal.text = some value) :
    items (t :: ts) = .assignment (excerpt t ts more) name (.text value) :: items (ts.drop more) :=
  items_of_ok h.isTag_eq h.recognize?_eq (by simp only [Match.item, hd])

theorem items_of_call {callee args : String} (h : Spells t ts ⟨.call callee args, more⟩) :
    items (t :: ts) = .call (excerpt t ts more) callee args :: items (ts.drop more) :=
  items_of_ok h.isTag_eq h.recognize?_eq rfl

theorem items_of_function {name text : String} {params : List String} {body : List Token}
    (h : Spells t ts ⟨.function name params body text, more⟩) :
    items (t :: ts) = .function (excerpt t ts more) name params text (items body) :: items (ts.drop more) :=
  items_of_ok h.isTag_eq h.recognize?_eq rfl

end

end Pattern

end PhpTranspiler
