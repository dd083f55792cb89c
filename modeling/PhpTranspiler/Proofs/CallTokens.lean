import PhpTranspiler.Proofs.Names
import PhpTranspiler.Proofs.Interpolation
import PhpTranspiler.Proofs.Spacing
import PhpTranspiler.Proofs.Trimming

namespace PhpTranspiler

open Script Token Lexer Nesting

theorem Item.Within.uncons {item other : Item} {items : List Item} (h : Within (item :: items) other) :
    item = other ∨ Within item.body other ∨ Within items other := by
  cases h with
  | here hm =>
      rcases List.mem_cons.1 hm with rfl | hm
      · exact .inl rfl
      · exact .inr (.inr (.here hm))
  | inside hm hw =>
      rcases List.mem_cons.1 hm with rfl | hm
      · exact .inr (.inl hw)
      · exact .inr (.inr (.inside hm hw))

theorem Item.not_within_nil {other : Item} : ¬Within [] other := by
  intro h
  cases h <;> contradiction

theorem Lexer.text_ne_nil {start : Nat} {cs : List Char} {t : Token} (ht : t ∈ tokensFrom start cs) :
    t.text.toList ≠ [] := by
  intro hn
  have hlt := start_lt_stop ht
  rw [stop, ← Text.size_toList, hn, Text.size_nil] at hlt
  omega

theorem Token.getLast?_written_concat (ts : List Token) {t : Token} (h : t.text.toList ≠ []) :
    (written (ts ++ [t])).toList.getLast? = t.text.toList.getLast? := by
  obtain ⟨c, hc⟩ : ∃ c, t.text.toList.getLast? = some c := ⟨_, List.getLast?_eq_some_getLast h⟩
  simp [written_append, written, hc]

namespace Pattern

/-- The tokens between two parentheses neither start nor end with a blank, unless a comment stands between the blank
and the parenthesis. -/
structure Edged (inside : List Token) (close : Token) : Prop where
  first : ∀ t, inside.head? = some t → Text.Kept t.gap.toList t.text.toList.head?
  last : ∀ t, inside.getLast? = some t → Text.Kept close.gap.toList t.text.toList.getLast?

/-- The text inside a bracket has the tokens that stand there if and only if trimming takes nothing off them. -/
theorem bare_tokenize_inner_iff {inside rest : List Token} {close : Token} (h : Lexed (inside ++ close :: rest)) :
    (tokenize (inner inside close)).map bare = inside.map bare ↔ Edged inside close := by
  obtain ⟨start, ht⟩ := h.exists_tokensFrom
  have hlast : Text.Kept close.gap.toList (written inside).toList.getLast? ↔
      ∀ t, inside.getLast? = some t → Text.Kept close.gap.toList t.text.toList.getLast? := by
    rcases List.eq_nil_or_concat inside with rfl | ⟨front, t, rfl⟩
    · simp [written, Text.Kept]
    · have hm : t ∈ tokensFrom start ((written (front.concat t)).toList ++ close.gap.toList) := by
        rw [ht]
        simp
      rw [List.concat_eq_append, getLast?_written_concat front (text_ne_nil hm)]
      simp
  -- If no token is lost at the end, the text up to its last ink has the same tokens, and what it starts with is seen in
  -- the first of them.
  have hfirst (hend : Text.Kept close.gap.toList (written inside).toList.getLast?) :
      (∀ c ∈ (Text.trimEnd ((written inside).toList ++ close.gap.toList)).takeWhile Text.isBlank,
          Text.isAsciiBlank c) ↔
        ∀ t, inside.head? = some t → Text.Kept t.gap.toList t.text.toList.head? := by
    have hle := (Text.length_le_trimEnd_append _ _).2 hend
    have hfront := @isAsciiBlank_front_iff start (Text.trimEnd ((written inside).toList ++ close.gap.toList))
    rwa [tokensFrom_trimEnd_of_le (by rwa [ht]), ht] at hfront
  have htrim := @bare_trim_iff start ((written inside).toList ++ close.gap.toList)
  rw [ht, Text.length_le_trimEnd_append] at htrim
  rw [tokenize, inner, Text.trim, String.toList_ofList, String.toList_append, htrim]
  constructor
  · rintro ⟨hend, hfront⟩
    exact ⟨(hfirst hend).1 hfront, hlast.1 hend⟩
  · rintro ⟨hfront, hend⟩
    exact ⟨hlast.2 hend, (hfirst (hlast.2 hend)).2 hfront⟩

/-- A call that is read from a block of the tokens, with `inside` between its parentheses. -/
inductive CallFrom (source : String) (ts : List Token) (place : Excerpt) (callee args : String) :
    List Token → Token → Prop
  | intro {t paren close semi : Token} {inside : List Token} (ht : t.kind = .word) (hn : t.text = callee)
      (hp : paren.kind = .opening .round) (hi : Balanced .round inside) (hc : close.kind = .closing .round)
      (hs : semi.kind = .semicolon) (hm : Marks source (t :: paren :: inside ++ [close, semi]) place)
      (ha : args = inner inside close) (hb : t :: paren :: inside ++ [close, semi] <:+: ts) :
      CallFrom source ts place callee args inside close

section

variable {source callee args : String} {place : Excerpt} {close t : Token} {inside ts us : List Token} {m : Match}

theorem CallFrom.mono (h : CallFrom source ts place callee args inside close) (hs : ts <:+: us) :
    CallFrom source us place callee args inside close := by
  obtain ⟨ht, hn, hp, hi, hc, hsemi, hm, ha, hb⟩ := h
  exact .intro ht hn hp hi hc hsemi hm ha (hb.trans hs)

theorem CallFrom.args_eq (h : CallFrom source ts place callee args inside close) : args = inner inside close := by
  cases h with
  | intro _ _ _ _ _ _ _ ha _ => exact ha

theorem CallFrom.lexed (h : CallFrom source ts place callee args inside close) (hl : Lexed ts) :
    ∃ rest, Lexed (inside ++ close :: rest) := by
  obtain ⟨_, _, _, _, _, _, _, _, before, after, rfl⟩ := h
  rw [List.append_assoc] at hl
  have hd := hl.append.2.drop 2
  simp only [List.cons_append, List.append_assoc, List.drop_succ_cons, List.drop_zero] at hd
  exact ⟨_, hd⟩

theorem Spells.body_infix (h : Spells t ts m) : m.body <:+: ts := by
  cases h with
  | assignment | writtenOut | call => exact List.nil_infix
  | @function name paren close brace last inside body rest params =>
      exact ⟨name :: paren :: inside ++ [close, brace], last :: rest, by simp [Match.body]⟩

theorem Spells.callFrom (h : Spells t ts m) (hin : StandIn source (t :: ts)) {xs : List Item}
    (hi : m.item t ts xs = .ok (.call place callee args)) :
    ∃ inside close, CallFrom source (t :: ts) place callee args inside close := by
  cases h with
  | assignment | writtenOut =>
      simp only [Match.item] at hi
      split at hi <;> cases hi
  | function => cases hi
  | @call paren close semi inside rest ht hk hp hbal hc hs =>
      cases hi
      have htake : (paren :: inside ++ close :: semi :: rest).take (inside.length + 3) =
          paren :: inside ++ [close, semi] := by
        rw [show paren :: inside ++ close :: semi :: rest = (paren :: inside ++ [close, semi]) ++ rest by simp]
        exact List.take_left' (by simp)
      have hm := excerpt_marks hin (inside.length + 3)
      rw [htake] at hm
      exact ⟨inside, close, .intro ht rfl hp hbal hc hs hm rfl ⟨[], rest, by simp⟩⟩

theorem body_of_item {xs : List Item} {item : Item} (h : m.item t ts xs = .ok item) :
    item.body = xs ∨ item.body = [] := by
  obtain ⟨form, more⟩ := m
  cases form with
  | assignment name literal =>
      simp only [Match.item] at h
      split at h
      · cases h
        exact .inr rfl
      · cases h
  | call callee args =>
      cases h
      exact .inr rfl
  | function name params body text =>
      cases h
      exact .inl rfl

theorem callFrom_of_within (hin : StandIn source ts) (h : Item.Within (items ts) (.call place callee args)) :
    ∃ inside close, CallFrom source ts place callee args inside close := by
  have lift {us vs : List Token} (hs : us <:+: vs)
      (hc : ∃ inside close, CallFrom source us place callee args inside close) :
      ∃ inside close, CallFrom source vs place callee args inside close := by
    obtain ⟨inside, close, hc⟩ := hc
    exact ⟨inside, close, hc.mono hs⟩
  have behind (t : Token) (ts : List Token) (n : Nat) : ts.drop n <:+: t :: ts :=
    ((List.drop_suffix n ts).trans (List.suffix_cons t ts)).isInfix
  fun_induction items ts with
  | case1 => exact absurd h Item.not_within_nil
  | case2 t ts _ ih => exact lift (behind t ts 0) (ih hin.tail h)
  | case3 t ts _ _ ih =>
      rcases h.uncons with he | hw | hw
      · cases he
      · exact absurd hw Item.not_within_nil
      · exact lift (behind t ts _) (ih (hin.tail.drop _) hw)
  | case4 t ts _ m hm item hi ihb ih =>
      have hs := recognize?_spells hm
      rcases h.uncons with rfl | hw | hw
      · exact hs.callFrom hin hi
      · rcases body_of_item hi with hb | hb
        · rw [hb] at hw
          exact lift (hs.body_infix.trans (behind t ts 0)) (ihb (hs.standIn_body hin.tail) hw)
        · rw [hb] at hw
          exact absurd hw Item.not_within_nil
      · exact lift (behind t ts _) (ih (hin.tail.drop _) hw)
  | case5 t ts _ m hm fault hf ihb ih =>
      rcases h.uncons with he | hw | hw
      · cases he
      · exact absurd hw Item.not_within_nil
      · exact lift (behind t ts _) (ih (hin.tail.drop _) hw)

/-- A call at any depth is read from tokens of the source. Its arguments are lexed again from the text between the
parentheses, which gives the tokens that stand there if and only if trimming takes nothing off them, and then the
arguments are those that these tokens spell. -/
theorem scan_call_tokens (h : Item.Within (scan source) (.call place callee args)) :
    (∃ inside close, CallFrom source (tokenize source) place callee args inside close) ∧
      ∀ inside close, CallFrom source (tokenize source) place callee args inside close →
        ((tokenize args).map bare = inside.map bare ↔ Edged inside close) ∧
          (Edged inside close → Concur (arguments args) (argumentsOf inside) ∧
            ∀ as, arguments args = .ok as → ∀ name, .variable name ∈ as →
              ∃ t ∈ inside, t.kind = .variable ∧ name = t.name) := by
  refine ⟨callFrom_of_within (standIn_tokenize source) h, fun inside close hc => ?_⟩
  obtain ⟨rest, hl⟩ := hc.lexed (lexed_tokenize source)
  have hiff := bare_tokenize_inner_iff hl
  rw [← hc.args_eq] at hiff
  refine ⟨hiff, fun he => ?_⟩
  have hbare := hiff.2 he
  constructor
  · rw [arguments_eq_argumentsOf]
    exact argumentsOf_respaced hbare
  · intro as has name hm
    rcases arguments_eq_ok has _ hm with ⟨t, ht, hk, hv⟩ | ⟨s, l, hv, _⟩
    · obtain ⟨u, hu, hkind, htext⟩ := mem_of_bare hbare ht
      cases hv
      exact ⟨u, hu, hkind.trans hk, by rw [Token.name, Token.name, htext]⟩
    · cases hv

end

def shielded : String := "function f() \x7b g($x\u00a0/**/); \x7d"

def shieldedCall : List Token :=
  [⟨" ", 15, .word, "g"⟩, ⟨"", 16, .opening .round, "("⟩, ⟨"", 17, .variable, "$x\u00a0"⟩,
    ⟨"/**/", 25, .closing .round, ")"⟩, ⟨"", 26, .semicolon, ";"⟩]

theorem tokenize_shielded :
    tokenize shielded = ⟨"", 0, .word, "function"⟩ :: ⟨" ", 9, .word, "f"⟩ :: ⟨"", 10, .opening .round, "("⟩ ::
      [] ++ ⟨"", 11, .closing .round, ")"⟩ :: ⟨" ", 13, .opening .curly, "\x7b"⟩ :: shieldedCall ++
        [⟨" ", 28, .closing .curly, "\x7d"⟩] := by
  cbv

theorem callFrom_shielded :
    CallFrom shielded (tokenize shielded) ⟨⟨15, 27⟩, "g($x\u00a0/**/);"⟩ "g" "$x\u00a0/**/"
      [⟨"", 17, .variable, "$x\u00a0"⟩] ⟨"/**/", 25, .closing .round, ")"⟩ := by
  rw [tokenize_shielded]
  exact .intro rfl rfl rfl rfl rfl rfl
    ⟨⟨_, _, rfl, rfl, rfl⟩, "function f() \x7b ", " \x7d", by decide, by decide⟩ (by decide)
    ⟨[_, _, _, _, _], [_], rfl⟩

theorem within_shielded :
    Item.Within (scan shielded) (.call ⟨⟨15, 27⟩, "g($x\u00a0/**/);"⟩ "g" "$x\u00a0/**/") := by
  have hf := @Spells.function ⟨"", 0, .word, "function"⟩ ⟨" ", 9, .word, "f"⟩ ⟨"", 10, .opening .round, "("⟩
    ⟨"", 11, .closing .round, ")"⟩ ⟨" ", 13, .opening .curly, "\x7b"⟩ ⟨" ", 28, .closing .curly, "\x7d"⟩ []
    shieldedCall [] [] (by decide) rfl rfl rfl rfl rfl rfl rfl rfl
  have hc : Spells ⟨" ", 15, .word, "g"⟩ shieldedCall.tail ⟨.call "g" "$x\u00a0/**/", 4⟩ :=
    @Spells.call _ ⟨"", 16, .opening .round, "("⟩ ⟨"/**/", 25, .closing .round, ")"⟩ ⟨"", 26, .semicolon, ";"⟩
      [⟨"", 17, .variable, "$x\u00a0"⟩] [] rfl (by decide) rfl rfl rfl rfl
  have hcall : .call ⟨⟨15, 27⟩, "g($x\u00a0/**/);"⟩ "g" "$x\u00a0/**/" ∈ items shieldedCall :=
    List.mem_of_head? (congrArg List.head? (items_of_call hc))
  rw [scan, tokenize_shielded]
  exact .inside (List.mem_of_head? (congrArg List.head? (items_of_function hf))) (.here hcall)

theorem scan_call_tokens_shielded :
    (tokenize "$x\u00a0/**/").map bare = [⟨"", 0, .variable, "$x\u00a0"⟩] ∧
      arguments "$x\u00a0/**/" = .ok [.variable "x\u00a0"] := by
  obtain ⟨hiff, harguments⟩ := (scan_call_tokens within_shielded).2 _ _ callFrom_shielded
  have he : Edged [⟨"", 17, .variable, "$x\u00a0"⟩] ⟨"/**/", 25, .closing .round, ")"⟩ := by
    constructor
    · intro t ht
      cases ht
      right
      intro c hc
      cases hc
      rfl
    · intro t ht
      exact .inl ⟨'/', by decide, by decide⟩
  have hname : Token.name ⟨"", 17, .variable, "$x\u00a0"⟩ = "x\u00a0" := by decide
  refine ⟨hiff.2 he, ?_⟩
  rw [← hname]
  exact (harguments he).1.eq_ok

def bared : String := "echo($x\u00a0);"

def baredCall : List Token :=
  [⟨"", 0, .word, "echo"⟩, ⟨"", 4, .opening .round, "("⟩, ⟨"", 5, .variable, "$x\u00a0"⟩,
    ⟨"", 9, .closing .round, ")"⟩, ⟨"", 10, .semicolon, ";"⟩]

theorem within_bared : Item.Within (items baredCall) (.call ⟨⟨0, 11⟩, bared⟩ "echo" "$x") := by
  have hc : Spells ⟨"", 0, .word, "echo"⟩ baredCall.tail ⟨.call "echo" "$x", 4⟩ :=
    @Spells.call _ ⟨"", 4, .opening .round, "("⟩ ⟨"", 9, .closing .round, ")"⟩ ⟨"", 10, .semicolon, ";"⟩
      [⟨"", 5, .variable, "$x\u00a0"⟩] [] rfl (by decide) rfl rfl rfl rfl
  exact .here (List.mem_of_head? (congrArg List.head? (items_of_call hc)))

theorem scan_call_tokens_bared :
    Item.Within (scan bared) (.call ⟨⟨0, 11⟩, bared⟩ "echo" "$x") ∧
      CallFrom bared (tokenize bared) ⟨⟨0, 11⟩, bared⟩ "echo" "$x" [⟨"", 5, .variable, "$x\u00a0"⟩]
        ⟨"", 9, .closing .round, ")"⟩ ∧
      (tokenize "$x").map bare ≠ [⟨"", 0, .variable, "$x\u00a0"⟩] ∧ arguments "$x" = .ok [.variable "x"] := by
  have hs : tokenize bared = baredCall := by cbv
  have hx : (tokenize "$x").map bare = [⟨"", 0, .variable, "$x"⟩] := by cbv
  rw [scan, hs, hx]
  refine ⟨within_bared, ?_, by decide, by cbv⟩
  exact .intro rfl rfl rfl rfl rfl rfl ⟨⟨_, _, rfl, rfl, rfl⟩, "", "", by decide, by decide⟩ (by decide)
    ⟨[], [], rfl⟩

end Pattern

end PhpTranspiler
