import PhpTranspiler.Proofs.Indexed.Quoted
import PhpTranspiler.Proofs.Origin

namespace PhpTranspiler.Indexed

namespace Spot

def text (source : String) (s : Spot) : Except Trap String := cut source s.span.start s.span.stop

def name? (source : String) (s : Spot) : Except Trap (Option String) :=
  if s.kind = .variable then do return some (← cut source (s.span.start + 1) s.span.stop) else return none

def isTag (s : Spot) : Bool := s.kind == .openTag || s.kind == .closeTag

def isWord (source : String) (s : Spot) (word : String) : Except Trap Bool :=
  if s.kind = .word then do return Text.sameWord (← s.text source) word else return false

end Spot

def closer (b : Bracket) : Nat → Nat → List Spot → Except Trap (Option Nat)
  | _, _, [] => return none
  | depth, i, s :: ss =>
    if s.kind = .opening b then closer b (depth + 1) (i + 1) ss
    else if s.kind = .closing b then do
      let depth ← minus depth 1
      if depth = 0 then return some i else closer b depth (i + 1) ss
    else closer b depth (i + 1) ss

def matching (ss : List Spot) (i : Nat) : Except Trap (Option Nat) :=
  match ss[i]?.map Spot.kind with
  | some (.opening b) => closer b 0 i (ss.drop i)
  | _ => return none

/-- The groups between the commas outside brackets. The last comma stands before `start`, and `i` is the index of the
first of the spots that are left. -/
def groupsFrom (ss : List Spot) : Nat → Nat → Nat → List Spot → Except Trap (List (List Spot))
  | start, _, _, [] => do return [← stretch ss start ss.length]
  | start, i, depth, s :: rest =>
    match s.kind with
    | .opening _ => groupsFrom ss start (i + 1) (depth + 1) rest
    | .closing _ => groupsFrom ss start (i + 1) (depth - 1) rest
    | .comma =>
      if depth = 0 then do
        let group ← stretch ss start i
        return group :: (← groupsFrom ss (i + 1) (i + 1) depth rest)
      else groupsFrom ss start (i + 1) depth rest
    | _ => groupsFrom ss start (i + 1) depth rest

def groups (ss : List Spot) : Except Trap (List (List Spot)) := groupsFrom ss 0 0 0 ss

def innerText (source : String) (ss : List Spot) (opening closing : Nat) : Except Trap String := do
  return Text.trim (← cut source (← element ss opening).span.stop (← element ss closing).span.start)

theorem mapM_ok {α β : Type} {f : α → Except Trap β} {g : α → β} {xs : List α} (h : ∀ x ∈ xs, f x = .ok (g x)) :
    xs.mapM f = .ok (xs.map g) := by
  induction xs with
  | nil => rfl
  | cons x xs ih =>
      rw [List.mapM_cons, h x (.head _), ok_bind, ih fun y hy => h y (.tail _ hy), ok_bind]
      rfl

theorem anyM_ok {α : Type} {f : α → Except Trap Bool} {g : α → Bool} {xs : List α} (h : ∀ x ∈ xs, f x = .ok (g x)) :
    xs.anyM f = .ok (xs.any g) := by
  induction xs with
  | nil => rfl
  | cons x xs ih =>
      rw [List.anyM, h x (.head _), ok_bind, ih fun y hy => h y (.tail _ hy), List.any_cons]
      cases g x <;> rfl

theorem anyM_map {α β : Type} (f : β → Except Trap Bool) (k : α → β) (xs : List α) :
    (xs.map k).anyM f = xs.anyM (f ∘ k) := by
  induction xs with
  | nil => rfl
  | cons x xs ih =>
      rw [List.map_cons, List.anyM, List.anyM, ih]
      rfl

/-- Tokens of a stretch of `source`, whose variables start with their sigil. -/
structure Legible (source : String) (ts : List Token) : Prop where
  standIn : Token.StandIn source ts
  sigil : ∀ t ∈ ts, t.kind = .variable → t.text.toList.head? = some '$'

theorem sigil_of_lexeme {c : Char} {cs : List Char} {n : Nat} (h : Lexer.lexeme c cs = (.variable, n)) : c = '$' := by
  have hs : Lexer.single c ≠ .variable := by
    unfold Lexer.single
    split <;> simp
  unfold Lexer.lexeme at h
  repeat' split at h
  all_goals simp_all

theorem legible_tokenize (source : String) : Legible source (Lexer.tokenize source) := by
  refine ⟨Lexer.standIn_tokenize source, ?_⟩
  rw [Lexer.tokenize]
  generalize source.toList = cs
  generalize 0 = start
  fun_induction Lexer.tokensFrom start cs with
  | case1 => simp
  | case2 start cs gap c rest hc kind n hl before text place ih =>
      intro t ht hk
      rcases List.mem_cons.1 ht with rfl | ht
      · simp only at hk
        subst hk
        simp [text, sigil_of_lexeme hl]
      · exact ih t ht hk

section

variable {source : String} {t : Token} {ts us : List Token}

theorem Legible.append (h : Legible source (ts ++ us)) : Legible source ts ∧ Legible source us :=
  ⟨⟨h.standIn.append.1, fun t ht => h.sigil t (List.mem_append_left us ht)⟩,
    ⟨h.standIn.append.2, fun t ht => h.sigil t (List.mem_append_right ts ht)⟩⟩

theorem Legible.drop (h : Legible source ts) (n : Nat) : Legible source (ts.drop n) := by
  rw [← List.take_append_drop n ts] at h
  exact h.append.2

theorem Legible.text (h : Legible source ts) (ht : t ∈ ts) : (Spot.ofToken t).text source = .ok t.text :=
  cut_of_standsAt (h.standIn.standsAt ht)

theorem Legible.isWord (h : Legible source ts) (ht : t ∈ ts) (word : String) :
    (Spot.ofToken t).isWord source word = .ok (t.isWord word) := by
  rw [Spot.isWord, Token.isWord, h.text ht]
  by_cases hk : t.kind = .word
  · rw [Spot.kind_ofToken, if_pos hk, hk]
    rfl
  · rw [Spot.kind_ofToken, if_neg hk, beq_eq_false_iff_ne.2 hk]
    rfl

theorem Legible.name? (h : Legible source ts) (ht : t ∈ ts) (hk : t.kind = .variable) :
    (Spot.ofToken t).name? source = .ok (some t.name) := by
  obtain ⟨cs, hcs⟩ := List.head?_eq_some_iff.1 (h.sigil t ht hk)
  have hspan := h.standIn.standsAt ht
  have hw : t.text = "$" ++ t.name ++ "" := by
    apply String.toList_injective
    simp [Token.name, hcs]
  have hn := cut_of_standsAt (hspan.within "$" "" hw rfl)
  have hstop : t.span.start + "$".utf8ByteSize + t.name.utf8ByteSize = t.span.stop := by
    rw [hspan.span_eq, hw]
    simp only [String.utf8ByteSize_append, String.utf8ByteSize_empty]
    omega
  rw [hstop] at hn
  rw [Spot.name?, Spot.kind_ofToken, if_pos hk]
  exact congrArg (Except.map some) hn

theorem map_ofToken_get (ts : List Token) (i : Nat) : (ts.map Spot.ofToken)[i]? = ts[i]?.map Spot.ofToken :=
  List.getElem?_map

theorem closer_eq (b : Bracket) (depth i : Nat) (ts : List Token) :
    closer b (depth + 1) i (ts.map Spot.ofToken) =
      .ok ((Nesting.enclosed? b depth ts).map fun found => i + found.1.length) := by
  -- `more` puts one token in front of what is inside.
  have hmap {more : List Token × Token × List Token → List Token × Token × List Token}
      (hmore : ∀ x, (more x).1.length = x.1.length + 1) (found : Option (List Token × Token × List Token)) (i : Nat) :
      (found.map more).map (fun found => i + found.1.length) = found.map fun found => i + 1 + found.1.length := by
    rw [Option.map_map]
    congr 1
    funext x
    rw [Function.comp_apply, hmore]
    omega
  fun_induction Nesting.enclosed? b depth ts generalizing i with
  | case1 => rfl
  | case2 depth t ts hk ih =>
      rw [List.map_cons, closer, Spot.kind_ofToken, if_pos hk, ih, hmap fun _ => rfl]
  | case3 t ts ho hk =>
      rw [List.map_cons, closer, Spot.kind_ofToken, if_neg ho, if_pos hk]
      rfl
  | case4 t ts ho hk depth ih =>
      rw [List.map_cons, closer, Spot.kind_ofToken, if_neg ho, if_pos hk, minus_of_le (by omega), ok_bind,
        Nat.add_sub_cancel, if_neg (by omega), ih, hmap fun _ => rfl]
  | case5 depth t ts ho hk ih =>
      rw [List.map_cons, closer, Spot.kind_ofToken, if_neg ho, if_neg hk, ih, hmap fun _ => rfl]

theorem matching_eq {b : Bracket} {before after : List Token} (hts : ts = before ++ t :: after)
    (hk : t.kind = .opening b) :
    matching (ts.map Spot.ofToken) before.length =
      .ok ((Nesting.enclosed? b 0 after).map fun found => before.length + 1 + found.1.length) := by
  subst hts
  have hget : ((before ++ t :: after).map Spot.ofToken)[before.length]? = some (Spot.ofToken t) := by
    rw [map_ofToken_get, List.getElem?_append_right (Nat.le_refl _), Nat.sub_self]
    rfl
  rw [matching, hget, Option.map_some, Spot.kind_ofToken, hk, ← List.map_drop, List.drop_left, List.map_cons]
  simp only [closer, Spot.kind_ofToken, hk, if_true, closer_eq]

def preceded (part : List Token) : List (List Token) → List (List Token)
  | [] => [part]
  | group :: groups => (part ++ group) :: groups

theorem preceded_onto (part : List Token) (t : Token) (gs : List (List Token)) :
    preceded part (Nesting.onto t gs) = preceded (part ++ [t]) gs := by
  cases gs with
  | nil => rfl
  | cons group gs => simp [Nesting.onto, preceded]

theorem stretch_map {before part after : List Token} (h : ts = before ++ part ++ after) :
    stretch (ts.map Spot.ofToken) before.length (before.length + part.length) = .ok (part.map Spot.ofToken) := by
  have hm : ts.map Spot.ofToken = before.map Spot.ofToken ++ part.map Spot.ofToken ++ after.map Spot.ofToken := by
    rw [h, List.map_append, List.map_append]
  simpa using stretch_eq hm

theorem groups_infix (depth : Nat) (ts : List Token) :
    ∃ group gs, Nesting.groups depth ts = group :: gs ∧ group <+: ts ∧ ∀ g ∈ gs, g <:+: ts := by
  have honto {t : Token} {ts : List Token} {gs : List (List Token)}
      (h : ∃ group more, gs = group :: more ∧ group <+: ts ∧ ∀ g ∈ more, g <:+: ts) :
      ∃ group more, Nesting.onto t gs = group :: more ∧ group <+: t :: ts ∧ ∀ g ∈ more, g <:+: t :: ts := by
    obtain ⟨group, more, rfl, hg, hm⟩ := h
    refine ⟨t :: group, more, rfl, List.cons_prefix_cons.2 ⟨rfl, hg⟩, ?_⟩
    exact fun g hg => (hm g hg).trans (List.suffix_cons t ts).isInfix
  fun_induction Nesting.groups depth ts with
  | case1 => exact ⟨[], [], rfl, List.prefix_rfl, by simp⟩
  | case4 t ts hk ih =>
      obtain ⟨group, more, hgs, hg, hm⟩ := ih
      refine ⟨[], _, rfl, List.nil_prefix, ?_⟩
      rw [hgs]
      intro g hmem
      refine List.IsInfix.trans ?_ (List.suffix_cons t ts).isInfix
      rcases List.mem_cons.1 hmem with rfl | hmem
      · exact hg.isInfix
      · exact hm g hmem
  | case2 depth t ts b hk ih | case3 depth t ts b hk ih | case5 depth t ts hk hd ih | case6 depth t ts h1 h2 h3 ih =>
      exact honto ih

theorem groupsFrom_eq {before part rest : List Token} (depth : Nat) (hts : ts = before ++ part ++ rest) :
    groupsFrom (ts.map Spot.ofToken) before.length (before.length + part.length) depth (rest.map Spot.ofToken) =
      .ok ((preceded part (Nesting.groups depth rest)).map (List.map Spot.ofToken)) := by
  -- a token that does not end the group is one more of the part before the rest
  have hgrow {before part rest : List Token} {t : Token} (hts : ts = before ++ part ++ t :: rest) :
      ts = before ++ (part ++ [t]) ++ rest := by simp [hts]
  have hlen (before part : List Token) (t : Token) :
      before.length + part.length + 1 = before.length + (part ++ [t]).length := by
    rw [List.length_append, List.length_singleton, Nat.add_assoc]
  fun_induction Nesting.groups depth rest generalizing before part with
  | case1 =>
      have hs := stretch_map hts
      have hl : (ts.map Spot.ofToken).length = before.length + part.length := by simp [hts]
      rw [List.map_nil, groupsFrom, hl, hs]
      simp [preceded]
  | case2 depth t rest b hk ih =>
      simp only [List.map_cons, groupsFrom, Spot.kind_ofToken, hk, preceded_onto]
      rw [hlen, ih (hgrow hts)]
  | case3 depth t rest b hk ih =>
      simp only [List.map_cons, groupsFrom, Spot.kind_ofToken, hk, preceded_onto]
      rw [hlen, ih (hgrow hts)]
  | case4 t rest hk ih =>
      have hnext : ts = (before ++ part ++ [t]) ++ [] ++ rest := by simp [hts]
      have hi : before.length + part.length + 1 = (before ++ part ++ [t]).length := by simp [Nat.add_assoc]
      simp only [List.map_cons, groupsFrom, Spot.kind_ofToken, hk, if_true]
      have hr := ih hnext
      rw [List.length_nil, Nat.add_zero, ← hi] at hr
      rw [stretch_map hts, ok_bind, hr]
      obtain ⟨group, gs, hg, -⟩ := groups_infix 0 rest
      simp [preceded, hg]
  | case5 depth t rest hk hd ih =>
      simp only [List.map_cons, groupsFrom, Spot.kind_ofToken, hk, if_neg hd, preceded_onto]
      rw [hlen, ih (hgrow hts)]
  | case6 depth t rest h1 h2 h3 ih =>
      rw [List.map_cons, preceded_onto, groupsFrom]
      split
      · rename_i b hk
        exact absurd hk (h1 b)
      · rename_i b hk
        exact absurd hk (h2 b)
      · rename_i hk
        exact absurd hk h3
      · rw [hlen, ih (hgrow hts)]

theorem groups_eq (ts : List Token) :
    groups (ts.map Spot.ofToken) = .ok ((Nesting.groups 0 ts).map (List.map Spot.ofToken)) := by
  have h := groupsFrom_eq 0 (show ts = [] ++ [] ++ ts from rfl)
  obtain ⟨group, gs, hg, -⟩ := groups_infix 0 ts
  rw [hg] at h ⊢
  exact h

theorem standsAt_between {source : String} {inside after : List Token} {opening closing : Token}
    (h : Token.StandIn source (opening :: inside ++ closing :: after)) :
    Text.StandsAt source ⟨opening.stop, closing.start⟩ (Token.written inside ++ closing.gap) := by
  obtain ⟨before, behind, rfl, hstart, hp⟩ := h
  have hc := hp.append.2.1
  refine ⟨before ++ opening.gap ++ opening.text, closing.text ++ Token.written after ++ behind, ?_, ?_⟩
  · simp [Token.written, Token.written_append, String.append_assoc]
  · rw [hc]
    simp only [Token.stop, hstart, String.utf8ByteSize_append, Nat.add_assoc]

theorem innerText_eq {source : String} {before inside after : List Token} {opening closing : Token}
    (h : Legible source ts) (hts : ts = before ++ opening :: inside ++ closing :: after) :
    innerText source (ts.map Spot.ofToken) before.length (before.length + 1 + inside.length) =
      .ok (Pattern.inner inside closing) := by
  subst hts
  have hopen : element ((before ++ opening :: inside ++ closing :: after).map Spot.ofToken) before.length =
      .ok (Spot.ofToken opening) := by
    apply element_of_get
    simp
  have hclose : element ((before ++ opening :: inside ++ closing :: after).map Spot.ofToken)
      (before.length + 1 + inside.length) = .ok (Spot.ofToken closing) := by
    apply element_of_get
    rw [map_ofToken_get, List.getElem?_append_right (by simp; omega)]
    simp [Nat.add_assoc, Nat.add_comm 1]
  have hs : Token.StandIn source (opening :: inside ++ closing :: after) := by
    have ha := h.standIn
    rw [List.append_assoc] at ha
    exact ha.append.2
  rw [innerText, hopen, ok_bind, hclose, ok_bind, Spot.ofToken, Spot.ofToken]
  exact congrArg (Except.map Text.trim) (cut_of_standsAt (standsAt_between hs))

end

end PhpTranspiler.Indexed
