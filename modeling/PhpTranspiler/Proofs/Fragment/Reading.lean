import PhpTranspiler.Proofs.Fragment.Meaning

namespace PhpTranspiler

namespace Fragment

open Token Lexer Nesting

theorem isAtom_arguments (args : List Argument) : ∀ group ∈ args.map Argument.tokens, ∀ t ∈ group, isAtom t :=
  Script.isAtom_of_spelled fun a _ => a.spelled

theorem neutral_parameters (params : List Name) (b : Bracket) : Neutral b (parameterTokens params) := by
  apply neutral_separated
  simp only [List.mem_map]
  rintro _ ⟨p, _, rfl⟩
  simp [isAtom, ofText]

mutual

theorem Statement.neutral : (s : Statement) → Neutral .curly s.tokens
  | .assignment name value => neutral_of_forall (by simp [tokens, ofText])
  | .echo arg => neutral_callOf "echo" (isAtom_arguments [arg])
  | .print arg => neutral_callOf "print" (isAtom_arguments [arg])
  | .call c => neutral_callOf c.callee.text (isAtom_arguments c.args)
  | .function name params body =>
      neutral_functionOf name.text (neutral_parameters params .curly) (Statement.neutralAll body)

theorem Statement.neutralAll : (block : List Statement) → Neutral .curly (Statement.tokensAll block)
  | [] => fun _ => rfl
  | s :: block => s.neutral.append (Statement.neutralAll block)

end

theorem ink_of_any {cs : List Char} (h : cs.any Text.isBlank = false) : ∀ c ∈ cs, Text.isBlank c = false := by
  simpa using h

theorem clean_of_ink {kind : Kind} {text : String} (h : ∀ c ∈ text.toList, Text.isBlank c = false) :
    (ofText kind text).Clean := by
  refine .inr fun c hc hb => ?_
  simp [h c hc] at hb

theorem clean_of_any {kind : Kind} {text : String} (h : text.toList.any Text.isBlank = false) :
    (ofText kind text).Clean := clean_of_ink (ink_of_any h)

theorem isBlank_of_isWordRest {c : Char} (h : isWordRest c) (hc : c.toNat < 128) : Text.isBlank c = false := by
  rw [Bool.eq_false_iff]
  intro hb
  simp only [Text.isBlank, Bool.or_eq_true, Bool.and_eq_true, decide_eq_true_eq, beq_iff_eq] at hb
  simp only [isWordRest, isWordStart, Char.isAlpha, Char.isUpper, Char.isLower, Char.isDigit, Bool.or_eq_true,
    Bool.and_eq_true, decide_eq_true_eq, beq_iff_eq, UInt32.le_iff_toNat_le, ge_iff_le] at h
  have hv : c.toNat = c.val.toNat := rfl
  have h0 : ('0' : Char).val.toNat = 48 := rfl
  have hA : ('A' : Char).val.toNat = 65 := rfl
  have ha : ('a' : Char).val.toNat = 97 := rfl
  rcases h with (((h | h) | rfl) | h) | h
  · omega
  · omega
  · revert hb
    decide
  · omega
  · omega

theorem Name.ink (n : Name) : ∀ c ∈ n.text.toList, Text.isBlank c = false := fun c hc =>
  isBlank_of_isWordRest (n.isWord.isWordRest c hc) (n.isAscii c hc)

theorem Name.ink_variable (n : Name) : ∀ c ∈ n.variable.toList, Text.isBlank c = false := by
  have he : n.variable.toList = '$' :: n.text.toList := by simp [Name.variable]
  rw [he]
  exact List.forall_mem_cons.2 ⟨by decide, n.ink⟩

theorem ink_repr (n : Nat) : ∀ c ∈ n.repr.toList, Text.isBlank c = false := by
  rw [Nat.repr_eq_ofList_toDigits, String.toList_ofList]
  intro c hc
  have hd : c.isDigit := Digits.isDigit_toDigits c hc
  rw [Bool.eq_false_iff]
  intro hb
  simp [Text.not_isDigit_of_isBlank hb] at hd

theorem Argument.ink (a : Argument) : ∀ t ∈ a.tokens,
    (∃ value : Plain, t = ofText (.quoted .double true) value.quoted) ∨
      t.text.toList ≠ [] ∧ ∀ c ∈ t.text.toList, Text.isBlank c = false := by
  match a with
  | .variable name => exact List.forall_mem_singleton.2 (.inr ⟨by simp [ofText, Name.variable], name.ink_variable⟩)
  | .text value => exact List.forall_mem_singleton.2 (.inl ⟨value, rfl⟩)
  | .integer ⟨.ofNat n, _⟩ => exact List.forall_mem_singleton.2 (.inr ⟨by simp [ofText], ink_repr n⟩)
  | .integer ⟨.negSucc n, _⟩ =>
      refine List.forall_mem_cons.2 ⟨.inr ⟨by decide, ink_of_any (by decide)⟩, ?_⟩
      refine List.forall_mem_singleton.2 (.inr ⟨?_, ink_repr (n + 1)⟩)
      simp [ofText]
  | .bool true | .bool false | .null => exact List.forall_mem_singleton.2 (.inr ⟨by decide, ink_of_any (by decide)⟩)

theorem clean_quoted (text : String) : (ofText (.quoted .double true) text).Clean := .inl ⟨_, _, rfl⟩

theorem Argument.clean (a : Argument) : ∀ t ∈ a.tokens, t.Clean := by
  intro t ht
  rcases a.ink t ht with ⟨value, rfl⟩ | ⟨_, h⟩
  · exact clean_quoted value.quoted
  · exact clean_of_ink h

theorem clean_arguments (args : List Argument) : ∀ group ∈ args.map Argument.tokens, ∀ t ∈ group, t.Clean := by
  simp only [List.mem_map]
  rintro _ ⟨a, _, rfl⟩
  exact a.clean

theorem clean_call {name : String} (hn : ∀ c ∈ name.toList, Text.isBlank c = false) (args : List Argument) :
    ∀ t ∈ callTokens name args, t.Clean := by
  have ha : ∀ t ∈ separated (args.map Argument.tokens), t.Clean := clean_separated (clean_arguments args)
  have hw : (ofText .word name).Clean := clean_of_ink hn
  have hm : (ofText (.opening .round) "(").Clean ∧ (ofText (.closing .round) ")").Clean ∧
      (ofText .semicolon ";").Clean :=
    ⟨clean_of_any (by decide), clean_of_any (by decide), clean_of_any (by decide)⟩
  simp only [callTokens, List.cons_append, List.forall_mem_cons, List.forall_mem_append]
  exact ⟨hw, hm.1, ha, hm.2.1, hm.2.2, by simp⟩

mutual

theorem Statement.clean : (s : Statement) → ∀ t ∈ s.tokens, t.Clean
  | .assignment name value => by
      have he : (ofText .equals "=").Clean := clean_of_any (by decide)
      have hs : (ofText .semicolon ";").Clean := clean_of_any (by decide)
      simp only [tokens, List.forall_mem_cons]
      exact ⟨clean_of_ink name.ink_variable, he, clean_quoted value.quoted, hs, by simp⟩
  | .echo arg => clean_call (ink_of_any (by decide)) [arg]
  | .print arg => clean_call (ink_of_any (by decide)) [arg]
  | .call c => clean_call c.callee.ink c.args
  | .function name params body => by
      have hp : ∀ t ∈ parameterTokens params, t.Clean := by
        apply clean_separated
        simp only [List.mem_map]
        rintro _ ⟨p, _, rfl⟩
        simpa using clean_of_ink p.ink_variable
      have hf : (ofText .word "function").Clean := clean_of_any (by decide)
      have hr : (ofText (.opening .round) "(").Clean ∧ (ofText (.closing .round) ")").Clean :=
        ⟨clean_of_any (by decide), clean_of_any (by decide)⟩
      have hc : (ofText (.opening .curly) "\x7b").Clean ∧ (ofText (.closing .curly) "\x7d").Clean :=
        ⟨clean_of_any (by decide), clean_of_any (by decide)⟩
      simp only [tokens, List.cons_append, List.append_assoc, List.forall_mem_cons, List.forall_mem_append]
      exact ⟨hf, clean_of_ink name.ink, hr.1, hp, hr.2, hc.1, Statement.cleanAll body, hc.2, by simp⟩

theorem Statement.cleanAll : (block : List Statement) → ∀ t ∈ Statement.tokensAll block, t.Clean
  | [] => by simp [Statement.tokensAll]
  | s :: block => List.forall_mem_append.2 ⟨s.clean, Statement.cleanAll block⟩

end

open Pattern

theorem items_of_callTokens {name : String} {args : List Argument} {ts more : List Token}
    (hk : isKeyword name = false) (h : ts.map bare = callTokens name args ++ more) (hr : Readable ts) :
    ∃ place raw us, items ts = .call place name raw :: items us ∧ Lists raw args ∧ us.map bare = more ∧
      Readable us := by
  obtain ⟨place, raw, before, us, rfl, hi, hl, hus⟩ :=
    items_of_callOf h hk hr.lexed (isAtom_arguments args) (clean_arguments args)
  exact ⟨place, raw, us, hi, hl, hus, hr.append.2⟩

theorem parameters?_tokens (params : List Name) :
    parameters? (parameterTokens params) = some (params.map Name.text) := by
  cases params with
  | nil => rfl
  | cons p params =>
      have hatoms : ∀ group ∈ (p :: params).map fun p => [ofText .variable p.variable], ∀ t ∈ group, isAtom t := by
        simp only [List.mem_map]
        rintro _ ⟨p, _, rfl⟩
        simp [isAtom, ofText]
      have hm (ps : List Name) : (ps.map fun p => [ofText .variable p.variable]).mapM parameter? =
          some (ps.map Name.text) := by
        induction ps with
        | nil => rfl
        | cons p ps ih =>
            have hp : parameter? [ofText .variable p.variable] = some p.text :=
              congrArg some (p.name_variable .variable)
            rw [List.map_cons, List.mapM_cons, hp, ih]
            rfl
      have hn : (parameterTokens (p :: params)).isEmpty = false := by
        rw [List.isEmpty_eq_false_iff]
        exact separated_ne_nil (by simp) _
      rw [parameters?, hn, parameterTokens, groups_separated hatoms (by simp)]
      exact hm (p :: params)

theorem Call.isKeyword_eq (c : Call) : isKeyword c.callee.text = false := by
  rw [isKeyword, List.any_eq_false]
  intro word hw
  rw [c.isCallable word (List.mem_cons_of_mem _ (List.mem_cons_of_mem _ hw))]
  simp

mutual

/-- A statement is read whole, whatever follows it. -/
theorem Statement.items_tokens : (s : Statement) → {ts more : List Token} → ts.map bare = s.tokens ++ more →
    Readable ts → ∃ item us, items ts = item :: items us ∧ Denotes item s ∧ us.map bare = more ∧ Readable us
  | .assignment name value, ts, more, h, hr => by
      obtain ⟨t, ts, rfl, ht, h⟩ := List.map_eq_cons_iff.1 h
      obtain ⟨equals, ts, rfl, he, h⟩ := List.map_eq_cons_iff.1 h
      obtain ⟨literal, ts, rfl, hl, h⟩ := List.map_eq_cons_iff.1 h
      obtain ⟨semi, us, rfl, hs, h⟩ := List.map_eq_cons_iff.1 h
      have hspells : Spells t (equals :: literal :: semi :: us) _ :=
        .assignment (bare_eq_ofText ht).1 (bare_eq_ofText he).1 (bare_eq_ofText hl).1 (bare_eq_ofText hs).1
      have hd : Quoted.decode? literal.text = some value.text := by
        rw [(bare_eq_ofText hl).2, value.decode?_quoted]
      have hn : t.name = name.text := by
        rw [Token.name, (bare_eq_ofText ht).2]
        exact name.name_variable .variable
      have hitems := items_of_assignment hspells hd
      rw [hn] at hitems
      exact ⟨_, us, hitems, .assignment, h, hr.drop 4⟩
  | .echo arg, ts, more, h, hr => by
      obtain ⟨place, raw, us, hi, hl, hus, hr⟩ := items_of_callTokens (by decide) h hr
      exact ⟨_, us, hi, .echo hl, hus, hr⟩
  | .print arg, ts, more, h, hr => by
      obtain ⟨place, raw, us, hi, hl, hus, hr⟩ := items_of_callTokens (by decide) h hr
      exact ⟨_, us, hi, .print hl, hus, hr⟩
  | .call c, ts, more, h, hr => by
      obtain ⟨place, raw, us, hi, hl, hus, hr⟩ := items_of_callTokens c.isKeyword_eq h hr
      exact ⟨_, us, hi, .call hl, hus, hr⟩
  | .function name params body, ts, more, h, hr => by
      obtain ⟨place, text, before, block, last, us, rfl, hi, hbody, hus⟩ :=
        items_of_functionOf h (neutral_parameters params .round) (parameters?_tokens params)
          (Statement.neutralAll body)
      have hd := Statement.items_tokensAll body hbody hr.append.1.append.2
      exact ⟨_, us, hi, .function hd, hus, hr.append.2.tail⟩

theorem Statement.items_tokensAll : (block : List Statement) → {ts : List Token} →
    ts.map bare = Statement.tokensAll block → Readable ts → DenotesAll (items ts) block
  | [], ts, h, _ => by
      obtain rfl : ts = [] := by simpa [Statement.tokensAll] using h
      rw [items]
      exact .nil
  | s :: block, ts, h, hr => by
      obtain ⟨item, us, hi, hd, hus, hr⟩ := s.items_tokens h hr
      rw [hi]
      exact .cons hd (Statement.items_tokensAll block hus hr)

end

theorem Style.denotes_scan (style : Style) (block : List Statement) :
    DenotesAll (Source.plain (style.source block)).pulled block := by
  have hb : (tokenize (style.source block)).map bare = _ := style.bareTokens_source block
  have hc : ∀ t ∈ tokenize (style.source block), t.Clean := by
    apply clean_of_bare hb
    rw [List.forall_mem_append]
    refine ⟨?_, Statement.cleanAll block⟩
    intro t ht
    split at ht
    · rw [List.mem_singleton.1 ht]
      exact clean_of_any (by decide)
    · cases ht
  have hr : Readable (tokenize (style.source block)) := ⟨lexed_tokenize _, hc⟩
  rw [Source.pulled_of_clean hc, scan]
  generalize tokenize (style.source block) = ts at hb hr
  split at hb
  · obtain ⟨t, ts, rfl, ht, hb⟩ := List.map_eq_cons_iff.1 hb
    have htag : t.isTag := by rw [isTag, (bare_eq_ofText ht).1]; rfl
    rw [items_of_tag htag]
    exact Statement.items_tokensAll block hb hr.tail
  · exact Statement.items_tokensAll block hb hr

end Fragment

end PhpTranspiler
