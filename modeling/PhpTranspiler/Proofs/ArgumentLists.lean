import PhpTranspiler.Proofs.Fragment.Tokens
import PhpTranspiler.Proofs.Groups
import PhpTranspiler.Proofs.Integers
import PhpTranspiler.Proofs.Origin
import PhpTranspiler.Proofs.Tiling

namespace PhpTranspiler

open Token Lexer

namespace Script

theorem mapM_eq_error_iff {α β ε : Type} {f : α → Except ε β} {xs : List α} {e : ε} :
    xs.mapM f = .error e ↔
      ∃ before x after, xs = before ++ x :: after ∧ (∀ y ∈ before, ∃ b, f y = .ok b) ∧ f x = .error e := by
  constructor
  · intro h
    induction xs with
    | nil => cases h
    | cons x xs ih =>
        rw [List.mapM_cons] at h
        cases hx : f x with
        | error d =>
            simp only [hx, bind, Except.bind, Except.error.injEq] at h
            exact ⟨[], x, xs, rfl, by simp, hx.trans (congrArg _ h)⟩
        | ok b =>
            cases hxs : xs.mapM f with
            | ok bs => simp [hx, hxs, bind, Except.bind, pure, Except.pure] at h
            | error d =>
                simp only [hx, hxs, bind, Except.bind, Except.error.injEq] at h
                obtain ⟨before, y, after, rfl, hb, hy⟩ := ih (hxs.trans (congrArg _ h))
                exact ⟨x :: before, y, after, rfl, List.forall_mem_cons.2 ⟨⟨b, hx⟩, hb⟩, hy⟩
  · rintro ⟨before, x, after, rfl, hb, hx⟩
    induction before with
    | nil => simp [hx, bind, Except.bind]
    | cons y before ih =>
        obtain ⟨⟨b, hy⟩, hb⟩ := List.forall_mem_cons.1 hb
        rw [List.cons_append, List.mapM_cons, hy, ih hb]
        rfl

namespace Argument

/-- A number, or a minus and a number, and the numeral that they are together. -/
inductive Numeric : List Token → String → Prop
  | plain {t : Token} (h : t.kind = .number) : Numeric [t] t.text
  | negative {minus t : Token} (hm : minus.text = "-") (h : t.kind = .number) : Numeric [minus, t] ("-" ++ t.text)

inductive SpelledBy : List Token → Argument → Prop
  | variable {t : Token} (h : t.kind = .variable) : SpelledBy [t] (.variable t.name)
  | string {t : Token} {q : Quote} {s : String} (h : t.kind = .quoted q true) (hs : Quoted.decode? t.text = some s) :
      SpelledBy [t] (.literal ⟨.text s, quote s⟩)
  | number {group : List Token} {numeral : String} {x : Binary64} (h : Numeric group numeral)
      (hx : Numeral.read? numeral = some x) (hf : x.isFinite) : SpelledBy group (.literal ⟨.number x, numberText x⟩)
  | truth {t : Token} (h : t.isWord "true") : SpelledBy [t] (.literal ⟨.bool true, "true"⟩)
  | falsehood {t : Token} (h : t.isWord "false") : SpelledBy [t] (.literal ⟨.bool false, "false"⟩)
  | null {t : Token} (h : t.isWord "null") : SpelledBy [t] (.literal ⟨.null, "null"⟩)

/-- The tokens that are arguments with a comma between them, and the arguments in their order. -/
inductive Listed : List Token → List Argument → Prop
  | last {group : List Token} {arg : Argument} (h : SpelledBy group arg) : Listed group [arg]
  | more {group ts : List Token} {comma : Token} {arg : Argument} {args : List Argument} (h : SpelledBy group arg)
      (hc : comma.kind = .comma) (hr : Listed ts args) : Listed (group ++ comma :: ts) (arg :: args)

/-- Why a group of tokens of a text is no argument: it is a number out of range or it is something else, and then it is
named by the text from its first token to its last. -/
inductive Refused (raw : String) : List Token → Refusal → Prop
  | number {group : List Token} {numeral : String} (h : Numeric group numeral)
      (hx : ∀ x, Numeral.read? numeral = some x → x.isFinite = false) : Refused raw group (.number numeral)
  | empty : Refused raw [] (.argument "")
  | other {group : List Token} {span : Span} {text : String} (hn : ∀ numeral, ¬Numeric group numeral)
      (ha : ∀ arg, ¬SpelledBy group arg) (hs : Pattern.Spans group span) (ht : Text.StandsAt raw span text) :
      Refused raw group (.argument text)

theorem Numeric.ofTokens_eq {group : List Token} {numeral : String} (h : Numeric group numeral) :
    ofTokens group = (Literal.ofScalar (.number numeral)).map .literal := by
  cases h with
  | plain h => simp [ofTokens, scalar?, h]
  | negative hm h => simp [ofTokens, hm, h]

theorem SpelledBy.ne_nil {group : List Token} {arg : Argument} (h : SpelledBy group arg) : group ≠ [] := by
  cases h with
  | number h => cases h <;> simp
  | «variable» | string | truth | falsehood | null => simp

theorem ofTokens_of_scalar {t : Token} {s : Scalar} (hk : t.kind ≠ .variable) (hs : scalar? t = some s) :
    ofTokens [t] = (Literal.ofScalar s).map .literal := by
  simp only [ofTokens, if_neg hk, hs]

theorem scalar?_of_word {t : Token} (hk : t.kind = .word) :
    scalar? t = if t.isWord "true" then some (.bool true) else if t.isWord "false" then some (.bool false)
      else if t.isWord "null" then some .null else none := by
  simp only [scalar?, hk]

theorem isWord_eq_false {t : Token} {word other : String} (h : t.isWord word)
    (hn : Text.sameWord word other = false) : t.isWord other = false := by
  by_contra hc
  rw [Bool.not_eq_false] at hc
  simp only [isWord, Bool.and_eq_true, Text.sameWord, beq_iff_eq] at h hc
  rw [Text.sameWord, ← h.2, hc.2, beq_self_eq_true] at hn
  cases hn

theorem SpelledBy.ofTokens_eq {group : List Token} {arg : Argument} (h : SpelledBy group arg) :
    ofTokens group = .ok arg := by
  cases h with
  | «variable» h => simp [ofTokens, h]
  | @string t q s h hs =>
      have hs : scalar? t = some (.text s) := by simp only [scalar?, h, hs, Option.map_some]
      rw [ofTokens_of_scalar (by simp [h]) hs]
      rfl
  | number h hx hf =>
      rw [h.ofTokens_eq, Literal.ofScalar_number hx hf]
      rfl
  | truth h =>
      have hk := kind_of_isWord h
      rw [ofTokens_of_scalar (by simp [hk]) (by rw [scalar?_of_word hk, if_pos h])]
      rfl
  | falsehood h =>
      have hk := kind_of_isWord h
      have ht := isWord_eq_false h (by decide : Text.sameWord "false" "true" = false)
      rw [ofTokens_of_scalar (by simp [hk]) (by rw [scalar?_of_word hk, ht, if_neg (by simp), if_pos h])]
      rfl
  | null h =>
      have hk := kind_of_isWord h
      have ht := isWord_eq_false h (by decide : Text.sameWord "null" "true" = false)
      have hf := isWord_eq_false h (by decide : Text.sameWord "null" "false" = false)
      rw [ofTokens_of_scalar (by simp [hk])
        (by rw [scalar?_of_word hk, ht, hf, if_neg (by simp), if_neg (by simp), if_pos h])]
      rfl

theorem Numeric.spelledBy_or {group : List Token} {numeral : String} (h : Numeric group numeral) :
    (∃ arg, SpelledBy group arg) ∨ (Numeral.read? numeral).filter Binary64.isFinite = none := by
  cases hx : (Numeral.read? numeral).filter Binary64.isFinite with
  | none => exact .inr rfl
  | some x =>
      obtain ⟨hx, hf⟩ := Option.filter_eq_some_iff.1 hx
      exact .inl ⟨_, .number h hx hf⟩

theorem spelledBy_of_scalar? {t : Token} {s : Scalar} (hn : t.kind ≠ .number) (h : scalar? t = some s) :
    ∃ arg, SpelledBy [t] arg := by
  unfold scalar? at h
  split at h
  · rename_i hk
    obtain ⟨s, hd, _⟩ := Option.map_eq_some_iff.1 h
    exact ⟨_, .string hk hd⟩
  · rename_i hk
    exact absurd hk hn
  · split at h
    · rename_i hw
      exact ⟨_, .truth hw⟩
    split at h
    · rename_i hw
      exact ⟨_, .falsehood hw⟩
    split at h
    · rename_i hw
      exact ⟨_, .null hw⟩
    · cases h
  · cases h

/-- What has the form of an argument is one, or its number is out of range. Nothing else is an argument. -/
theorem ofTokens_cases (group : List Token) :
    (∃ arg, SpelledBy group arg) ∨
      (∃ numeral, Numeric group numeral ∧ (Numeral.read? numeral).filter Binary64.isFinite = none) ∨
        ofTokens group = .error (.argument (spelled group)) ∧ ∀ numeral, ¬Numeric group numeral := by
  match group with
  | [] => exact .inr (.inr ⟨rfl, fun numeral h => nomatch h⟩)
  | [t] =>
      by_cases hv : t.kind = .variable
      · exact .inl ⟨_, .variable hv⟩
      by_cases hn : t.kind = .number
      · have hnum : Numeric [t] t.text := .plain hn
        exact hnum.spelledBy_or.imp_right fun hx => .inl ⟨_, hnum, hx⟩
      cases hs : scalar? t with
      | none =>
          refine .inr (.inr ⟨by simp only [ofTokens, if_neg hv, hs], ?_⟩)
          rintro numeral ⟨h⟩
          exact hn h
      | some s => exact .inl (spelledBy_of_scalar? hn hs)
  | [minus, t] =>
      by_cases hn : minus.text = "-" ∧ t.kind = .number
      · have hnum : Numeric [minus, t] ("-" ++ t.text) := .negative hn.1 hn.2
        exact hnum.spelledBy_or.imp_right fun hx => .inl ⟨_, hnum, hx⟩
      · refine .inr (.inr ⟨by simp only [ofTokens, if_neg hn], ?_⟩)
        intro numeral h
        cases h with
        | negative hm h => exact hn ⟨hm, h⟩
  | t :: u :: v :: rest => exact .inr (.inr ⟨rfl, fun numeral h => nomatch h⟩)

theorem ofTokens_eq_ok_iff {group : List Token} {arg : Argument} : ofTokens group = .ok arg ↔ SpelledBy group arg := by
  constructor
  · intro h
    rcases ofTokens_cases group with ⟨other, ho⟩ | ⟨numeral, hn, hx⟩ | ⟨he, _⟩
    · rw [ho.ofTokens_eq] at h
      cases h
      exact ho
    · rw [hn.ofTokens_eq, Literal.ofScalar_of_none hx] at h
      cases h
    · rw [he] at h
      cases h
  · exact SpelledBy.ofTokens_eq

theorem filter_isFinite_eq_none_iff {x : Option Binary64} :
    x.filter Binary64.isFinite = none ↔ ∀ y, x = some y → y.isFinite = false := by
  cases x <;> simp

theorem ofTokens_eq_error_iff {raw : String} {group : List Token} {r : Refusal} (h : StandIn raw group) :
    ofTokens group = .error r ↔ Refused raw group r := by
  constructor
  · intro he
    have hno (arg : Argument) : ¬SpelledBy group arg := by
      intro hs
      rw [hs.ofTokens_eq] at he
      cases he
    rcases ofTokens_cases group with ⟨arg, hs⟩ | ⟨numeral, hn, hx⟩ | ⟨hr, hn⟩
    · exact absurd hs (hno arg)
    · rw [hn.ofTokens_eq, Literal.ofScalar_of_none hx] at he
      cases he
      exact .number hn (filter_isFinite_eq_none_iff.1 hx)
    · rw [hr] at he
      cases he
      cases group with
      | nil => exact .empty
      | cons t ts =>
          obtain ⟨last, hlast⟩ : ∃ last, (t :: ts).getLast? = some last :=
            ⟨_, List.getLast?_eq_some_getLast (by simp)⟩
          have hs := h.spelled
          rw [← h.getLast_stop hlast] at hs
          exact .other hn hno ⟨t, last, rfl, hlast, rfl⟩ hs
  · intro hr
    cases hr with
    | number hn hx => rw [hn.ofTokens_eq, Literal.ofScalar_of_none (filter_isFinite_eq_none_iff.2 hx)]; rfl
    | empty => rfl
    | other hn ha hs ht =>
        obtain ⟨first, last, hfirst, hlast, rfl⟩ := hs
        obtain ⟨ts, rfl⟩ : ∃ ts, group = first :: ts := ⟨_, (List.cons_head?_tail hfirst).symm⟩
        have hspelled := h.spelled
        rw [← h.getLast_stop hlast] at hspelled
        rcases ofTokens_cases (first :: ts) with ⟨arg, hs⟩ | ⟨numeral, hnum, _⟩ | ⟨he, _⟩
        · exact absurd hs (ha arg)
        · exact absurd hnum (hn numeral)
        · rw [he, ← hspelled.slice_eq, ← ht.slice_eq]

theorem listed_of_divided {ts : List Token} {gs : List (List Token)} {args : List Argument}
    (hd : Nesting.Divided ts gs) (h : List.Forall₂ SpelledBy gs args) : Listed ts args := by
  induction hd generalizing args with
  | last _ =>
      obtain ⟨arg, args, hs, hnil, rfl⟩ := List.forall₂_cons_left_iff.1 h
      rw [List.forall₂_nil_left_iff.1 hnil]
      exact .last hs
  | more _ _ hc _ ih =>
      obtain ⟨arg, args, hs, hr, rfl⟩ := List.forall₂_cons_left_iff.1 h
      exact .more hs hc (ih hr)

def MinusMarked (ts : List Token) : Prop := ∀ t ∈ ts, t.text = "-" → t.kind = .mark

theorem isAtom_of_spelledBy {group : List Token} {arg : Argument} (h : SpelledBy group arg)
    (hm : MinusMarked group) : ∀ t ∈ group, Nesting.isAtom t := by
  have hword {t : Token} {word : String} (h : t.isWord word) : Nesting.isAtom t := by
    simp [Nesting.isAtom, kind_of_isWord h]
  cases h with
  | «variable» h => simp [Nesting.isAtom, h]
  | string h _ => simp [Nesting.isAtom, h]
  | number h _ _ =>
      cases h with
      | plain h => simp [Nesting.isAtom, h]
      | negative ht h => simp [Nesting.isAtom, h, hm _ (.head _) ht]
  | truth h | falsehood h | null h => simpa using hword h

theorem Listed.groups {ts : List Token} {args : List Argument} (h : Listed ts args) (hm : MinusMarked ts) :
    List.Forall₂ SpelledBy (Nesting.groups 0 ts) args := by
  induction h with
  | last h =>
      rw [Nesting.groups_atoms (isAtom_of_spelledBy h hm)]
      exact .cons h .nil
  | @more group ts comma arg args h hc _ ih =>
      have hgroup : MinusMarked group := fun t ht => hm t (List.mem_append_left _ ht)
      have hrest : MinusMarked ts := fun t ht => hm t (List.mem_append_right _ (List.mem_cons_of_mem _ ht))
      rw [Nesting.groups_comma (isAtom_of_spelledBy h hgroup) hc]
      exact .cons h (ih hrest)

theorem Listed.ne_nil {ts : List Token} {args : List Argument} (h : Listed ts args) : ts ≠ [] := by
  cases h with
  | last h => exact h.ne_nil
  | more => simp

end Argument

theorem minusMarked_tokensFrom (start : Nat) (cs : List Char) : Argument.MinusMarked (tokensFrom start cs) := by
  intro t ht hm
  fun_induction tokensFrom start cs with
  | case1 => cases ht
  | case2 start cs gap c rest hc kind n hl before text place ih =>
      rcases List.mem_cons.1 ht with rfl | ht
      · have hminus : c = '-' := by
          have hlist := congrArg String.toList hm
          simp only [text, String.toList_ofList] at hlist
          exact (List.cons_eq_cons.1 hlist).1
        rw [hminus] at hl
        exact (congrArg Prod.fst hl).symm
      · exact ih ht

theorem standIn_of_divided {raw : String} {groups : List (List Token)} (h : Nesting.Divided (tokenize raw) groups) :
    ∀ group ∈ groups, StandIn raw group := by
  intro group hg
  obtain ⟨front, back, he⟩ := h.isInfix group hg
  have hs := standIn_tokenize raw
  rw [← he, List.append_assoc] at hs
  exact hs.append.2.append.1

theorem arguments_of_nil {raw : String} (h : tokenize raw = []) : arguments raw = .ok [] := by
  simp only [arguments, h, List.isEmpty_nil, if_true]

theorem arguments_of_ne_nil {raw : String} (h : tokenize raw ≠ []) :
    arguments raw = (Nesting.groups 0 (tokenize raw)).mapM Argument.ofTokens := by
  have he : (tokenize raw).isEmpty = false := List.isEmpty_eq_false_iff.2 h
  simp only [arguments, he]
  rfl

/-- A text is a list of arguments if it has no tokens or those of arguments with commas between them. Otherwise the
first of its groups that is no argument is refused. -/
theorem arguments_scalar (raw : String) :
    (∀ args, arguments raw = .ok args ↔
      tokenize raw = [] ∧ args = [] ∨ Argument.Listed (tokenize raw) args) ∧
    ∀ r, arguments raw = .error r ↔
      tokenize raw ≠ [] ∧ ∃ before group after, Nesting.Divided (tokenize raw) (before ++ group :: after) ∧
        (∀ g ∈ before, ∃ arg, Argument.SpelledBy g arg) ∧ Argument.Refused raw group r := by
  by_cases hn : tokenize raw = []
  · have he := arguments_of_nil hn
    constructor
    · intro args
      rw [he, hn, Except.ok.injEq]
      constructor
      · rintro rfl
        exact .inl ⟨rfl, rfl⟩
      · rintro (⟨_, rfl⟩ | hl)
        · rfl
        · exact absurd rfl hl.ne_nil
    · intro r
      simp [he, hn]
  rw [arguments_of_ne_nil hn]
  constructor
  · intro args
    rw [mapM_eq_ok_iff]
    simp only [Argument.ofTokens_eq_ok_iff]
    constructor
    · intro h
      exact .inr (Argument.listed_of_divided (Nesting.divided_groups _) h)
    · rintro (⟨he, _⟩ | hl)
      · exact absurd he hn
      · exact hl.groups (minusMarked_tokensFrom 0 raw.toList)
  · intro r
    rw [mapM_eq_error_iff]
    simp only [Argument.ofTokens_eq_ok_iff]
    constructor
    · rintro ⟨before, group, after, hg, hb, he⟩
      have hd := Nesting.divided_iff.2 hg
      exact ⟨hn, before, group, after, hd, hb,
        (Argument.ofTokens_eq_error_iff (standIn_of_divided hd group (by simp))).1 he⟩
    · rintro ⟨_, before, group, after, hd, hb, hr⟩
      exact ⟨before, group, after, Nesting.divided_iff.1 hd, hb,
        (Argument.ofTokens_eq_error_iff (standIn_of_divided hd group (by simp))).2 hr⟩

end Script

end PhpTranspiler
