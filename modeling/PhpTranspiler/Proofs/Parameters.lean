import PhpTranspiler.Proofs.Groups
import PhpTranspiler.Proofs.Partners

namespace PhpTranspiler

open Token Nesting

/-- A point, or one of the three in front of a variable that takes all further arguments. -/
def Token.IsPoint (t : Token) : Prop := t.kind = .mark ∧ t.text = "."

instance (t : Token) : Decidable t.IsPoint := inferInstanceAs (Decidable (_ ∧ _))

namespace Lexer

theorem length_of_lexeme_mark {c : Char} {cs : List Char} {n : Nat} (h : lexeme c cs = (.mark, n)) : n = 0 := by
  unfold lexeme at h
  repeat' split at h
  all_goals simp_all

theorem isPoint_of_mem {start : Nat} {cs : List Char} {t : Token} (ht : t ∈ tokensFrom start cs)
    (hk : t.kind = .mark) (hp : t.text.toList.head? = some '.') : t.IsPoint := by
  fun_induction tokensFrom start cs with
  | case1 => simp at ht
  | case2 start cs gap c rest hc kind n hl before text place ih =>
      rcases List.mem_cons.1 ht with rfl | ht
      · obtain rfl : kind = .mark := hk
        obtain rfl := length_of_lexeme_mark hl
        obtain rfl : c = '.' := by simpa [text] using hp
        exact ⟨rfl, by simp [text]⟩
      · exact ih ht

end Lexer

theorem WellNested.foldl_stepDepth {ts : List Token} (h : WellNested ts) (depth : Nat) :
    ts.foldl stepDepth depth = depth := by
  induction h generalizing depth with
  | nil => rfl
  | @plain t ts ht _ ih =>
      have hstep : stepDepth depth t = depth := by
        unfold stepDepth
        split
        · exact absurd ‹_› (ht _).1
        · exact absurd ‹_› (ht _).2
        · rfl
      rw [List.foldl_cons, hstep, ih]
  | @enclosed t u inside rest b ht _ hu _ ihi ihr =>
      have hopen : stepDepth depth t = depth + 1 := by simp [stepDepth, ht]
      have hclose : stepDepth (depth + 1) u = depth := by simp [stepDepth, hu]
      rw [List.foldl_append, List.foldl_cons, List.foldl_cons, hopen, ihi, hclose, ihr]

namespace Nesting

theorem wholeAt_append {depth : Nat} {ts us : List Token} (ht : WholeAt depth ts)
    (hu : WholeAt (ts.foldl stepDepth depth) us) : WholeAt depth (ts ++ us) := by
  induction ts generalizing depth with
  | nil => exact hu
  | cons t ts ih =>
      obtain ⟨hn, ht⟩ := wholeAt_cons.1 ht
      exact wholeAt_cons.2 ⟨hn, ih ht hu⟩

theorem whole_iff_groups {ts : List Token} : Whole ts ↔ groups 0 ts = [ts] := by
  constructor
  · intro h
    exact groups_of_wholeAt (whole_iff.1 h)
  · intro h
    have hd : Divided ts [ts] := divided_iff.2 h
    generalize hgs : [ts] = gs at hd
    cases hd with
    | last h => exact h
    | more _ _ _ hr =>
        obtain ⟨_, rfl⟩ := List.cons_eq_cons.1 hgs
        cases hr

instance (ts : List Token) : Decidable (Whole ts) := decidable_of_iff _ whole_iff_groups.symm

inductive Joined : List (List Token) → List Token → Prop
  | none : Joined [] []
  | last (group : List Token) : Joined [group] group
  | more {group next ts : List Token} {gs : List (List Token)} {comma : Token} (hc : comma.kind = .comma)
      (hr : Joined (next :: gs) ts) : Joined (group :: next :: gs) (group ++ comma :: ts)

section

variable {group ts : List Token} {gs : List (List Token)}

theorem Joined.wellNested (h : Joined gs ts) (hg : ∀ group ∈ gs, WellNested group) : WellNested ts := by
  induction h with
  | none => exact .nil
  | last group => exact hg group (.head _)
  | more hc _ ih =>
      obtain ⟨hfirst, hrest⟩ := List.forall_mem_cons.1 hg
      exact hfirst.append (.plain (by simp [hc]) (ih hrest))

theorem Joined.subset (h : Joined gs ts) : ∀ group ∈ gs, group ⊆ ts := by
  induction h with
  | none => simp
  | last group => simp
  | @more group next ts gs comma _ _ ih =>
      refine List.forall_mem_cons.2 ⟨List.subset_append_left _ _, fun g hg t ht => ?_⟩
      exact List.mem_append_right _ (List.mem_cons_of_mem comma (ih g hg ht))

theorem Joined.divided (h : Joined (group :: gs) ts) (hg : ∀ g ∈ group :: gs, WellNested g ∧ Whole g) :
    Divided ts (group :: gs) := by
  generalize hgs : group :: gs = all at h
  induction h generalizing group gs with
  | none => cases hgs
  | last =>
      cases hgs
      exact .last (hg _ (.head _)).2
  | more hc _ ih =>
      cases hgs
      obtain ⟨⟨hn, hw⟩, hrest⟩ := List.forall_mem_cons.1 hg
      exact .more hw (shut_iff.2 (hn.foldl_stepDepth 0)) hc (ih hrest rfl)

theorem Joined.ne_nil (h : Joined (group :: gs) ts) (hone : group :: gs ≠ [[]]) : ts ≠ [] := by
  cases h with
  | last =>
      rintro rfl
      exact hone rfl
  | more => simp

end

end Nesting

namespace Pattern

/-- The tokens of a parameter: its type, which may be missing, the variable, and its default, which may be missing. -/
inductive Parameter : List Token → String → Prop
  | intro {hint default : List Token} {v : Token} (hh : WellNested hint) (hw : Whole hint)
      (hn : ∀ t ∈ hint, t.kind ≠ .variable ∧ ¬t.IsPoint) (hv : v.kind = .variable) (hd : WellNested default)
      (hdw : Whole default) : Parameter (hint ++ v :: default) v.name

/-- The tokens are no parameter: they have no variable, or a point in front of the first one. -/
inductive Nameless : List Token → Prop
  | missing {group : List Token} (h : ∀ t ∈ group, t.kind ≠ .variable) : Nameless group
  | variadic {before after : List Token} {v point : Token} (hb : ∀ t ∈ before, t.kind ≠ .variable)
      (hm : point ∈ before) (hp : point.IsPoint) (hv : v.kind = .variable) : Nameless (before ++ v :: after)

/-- The tokens of `function name(gs) { body }`. One group without tokens is no group. -/
inductive Declaration (name : String) (gs : List (List Token)) (body : List Token) : List Token → Prop
  | intro {t f paren close brace last : Token} {inside : List Token} (ht : t.isWord "function")
      (hf : f.kind = .word) (hname : f.text = name) (hp : paren.kind = .opening .round) (hj : Joined gs inside)
      (hone : gs ≠ [[]]) (hc : close.kind = .closing .round) (hb : brace.kind = .opening .curly)
      (hbody : WellNested body) (hl : last.kind = .closing .curly) :
      Declaration name gs body (t :: f :: paren :: inside ++ close :: brace :: body ++ [last])

section

variable {group : List Token} {gs : List (List Token)} {p : String}

theorem Parameter.wellNested (h : Parameter group p) : WellNested group := by
  cases h with
  | intro hh hw hn hv hd hdw => exact hh.append (.plain (by simp [hv]) hd)

theorem Parameter.whole (h : Parameter group p) : Whole group := by
  cases h with
  | @intro hint default v hh hw hn hv hd hdw =>
      have hstep : stepDepth 0 v = 0 := by simp [stepDepth, hv]
      rw [whole_iff] at hw hdw ⊢
      apply wholeAt_append hw
      rw [hh.foldl_stepDepth, wholeAt_cons, hstep]
      exact ⟨by simp [hv], hdw⟩

theorem Parameter.parameter?_eq {source : String} (h : Parameter group p)
    (hin : ∀ t ∈ group, t ∈ Lexer.tokenize source) : parameter? group = some p := by
  cases h with
  | @intro hint default v hh hw hn hv hd hdw =>
      rw [parameter?_append fun t ht => (hn t ht).1, parameter?, if_pos hv, if_neg]
      rw [Bool.not_eq_true, List.any_eq_false]
      intro t ht hp
      obtain ⟨hk, hc⟩ := of_decide_eq_true hp
      exact (hn t ht).2 (Lexer.isPoint_of_mem (hin t (List.mem_append_left _ ht)) hk hc)

theorem Nameless.parameter?_eq (h : Nameless group) : parameter? group = none := by
  cases h with
  | missing h =>
      have hnone := parameter?_append h []
      rw [List.append_nil] at hnone
      rw [hnone, parameter?, ite_self]
  | @variadic before after v point hb hm hp hv =>
      rw [parameter?_append hb, if_pos]
      rw [List.any_eq_true]
      exact ⟨point, hm, by simp [hp.1, hp.2]⟩

theorem mapM_eq_some_iff {α β : Type} {f : α → Option β} {xs : List α} {ys : List β} :
    xs.mapM f = some ys ↔ List.Forall₂ (fun x y => f x = some y) xs ys := by
  induction xs generalizing ys with
  | nil => cases ys <;> simp
  | cons x xs ih =>
      rw [List.mapM_cons]
      cases hx : f x with
      | none => cases ys <;> simp [hx]
      | some y =>
          cases hxs : xs.mapM f with
          | none => cases ys <;> simp [← ih, hx, hxs]
          | some rest => cases ys <;> simp [← ih, hx, hxs]

/-- What stands around the variables of the groups is no matter. -/
theorem mapM_of_parameters {source : String} {params : List String} (h : List.Forall₂ Parameter gs params)
    (hin : ∀ g ∈ gs, ∀ t ∈ g, t ∈ Lexer.tokenize source) :
    (∀ g ∈ gs, WellNested g ∧ Whole g) ∧ gs.mapM parameter? = some params := by
  rw [mapM_eq_some_iff]
  induction h with
  | nil => simp
  | cons hp _ ih =>
      obtain ⟨hg, hgs⟩ := List.forall_mem_cons.1 hin
      obtain ⟨hw, hr⟩ := ih hgs
      exact ⟨List.forall_mem_cons.2 ⟨⟨hp.wellNested, hp.whole⟩, hw⟩, .cons (hp.parameter?_eq hg) hr⟩

theorem mapM_of_nameless (h : Nameless group) (hg : group ∈ gs) : gs.mapM parameter? = none := by
  rw [Option.eq_none_iff_forall_ne_some]
  intro params hp
  rw [mapM_eq_some_iff] at hp
  induction hp with
  | nil => cases hg
  | cons hp _ ih =>
      rcases List.mem_cons.1 hg with rfl | hg
      · rw [h.parameter?_eq] at hp
        cases hp
      · exact ih hg

theorem parameters?_of_joined {inside : List Token} (h : Joined gs inside) (hone : gs ≠ [[]])
    (hg : ∀ g ∈ gs, WellNested g ∧ Whole g) : parameters? inside = gs.mapM parameter? := by
  cases gs with
  | nil =>
      cases h
      rfl
  | cons group gs =>
      rw [parameters?, if_neg (by simpa using h.ne_nil hone), divided_iff.1 (h.divided hg)]

end

theorem standIn_of_isInfix {source : String} {ts : List Token} (h : ts <:+: Lexer.tokenize source) : StandIn source ts := by
  obtain ⟨before, after, he⟩ := h
  have hs := Lexer.standIn_tokenize source
  rw [← he, List.append_assoc] at hs
  exact hs.append.2.append.1

section

variable {source name : String} {gs : List (List Token)} {body ts rest : List Token}

theorem items_of_parameters (h : Declaration name gs body ts) (hin : ts ++ rest <:+: Lexer.tokenize source)
    {params : List String} (hp : List.Forall₂ Parameter gs params) :
    ∃ place text, Marks source ts place ∧
      items (ts ++ rest) = .function place name params text (items body) :: items rest := by
  cases h with
  | @intro t f paren close brace last inside ht hf hname hparen hj hone hc hb hbody hl =>
      subst hname
      have hmem : ∀ g ∈ gs, ∀ u ∈ g, u ∈ Lexer.tokenize source := fun g hg u hu =>
        hin.subset (by simp [hj.subset g hg hu])
      obtain ⟨hg, hparams⟩ := mapM_of_parameters hp hmem
      have hps : parameters? inside = some params := by rw [parameters?_of_joined hj hone hg, hparams]
      have hi : WellNested inside := hj.wellNested fun g hm => (hg g hm).1
      have hs : Spells t (f :: paren :: inside ++ close :: brace :: body ++ last :: rest) _ :=
        .function ht hf hparen (hi.neutral .round 0) hc hps hb (hbody.neutral .curly 0) hl
      have he : t :: f :: paren :: inside ++ close :: brace :: body ++ [last] ++ rest =
          t :: (f :: paren :: inside ++ close :: brace :: body ++ last :: rest) := by simp
      rw [he] at hin ⊢
      have hm := excerpt_marks (standIn_of_isInfix hin) (inside.length + body.length + 5)
      rw [take_function] at hm
      refine ⟨_, inner body last, hm, ?_⟩
      have hdrop : (f :: paren :: inside ++ close :: brace :: body ++ last :: rest).drop
          (inside.length + body.length + 5) = rest := by
        have hsplit : f :: paren :: inside ++ close :: brace :: body ++ last :: rest =
            (f :: paren :: inside ++ close :: brace :: body ++ [last]) ++ rest := by simp
        rw [hsplit, List.drop_left' (by simp; omega)]
      rw [items_of_function hs, hdrop]

theorem chunk_declaration {t f paren close brace last : Token} {inside : List Token} (ht : t.kind = .word)
    (hf : f.kind = .word) (hparen : paren.kind = .opening .round) (hi : WellNested inside)
    (hc : close.kind = .closing .round) (hb : brace.kind = .opening .curly) (hbody : WellNested body)
    (hl : last.kind = .closing .curly) (rest : List Token) :
    chunk t (f :: paren :: (inside ++ close :: brace :: (body ++ last :: rest))) =
      inside.length + body.length + 5 + if continues rest then chunkTail 0 rest else 0 := by
  have hend : chunkTail 1 (last :: rest) = (if continues rest then chunkTail 0 rest else 0) + 1 := by
    cases hcont : continues rest <;> simp [chunkTail, hl, hcont]
  have hname (us : List Token) : chunk t (f :: us) = chunk f us + 1 := by simp [chunk, chunkTail, ht, hf]
  rw [hname, chunk_of_word hf hparen hi hc, chunkTail_opening hb, hbody.chunkTail_append, hend]
  omega

theorem classify_of_nameless {t f paren close : Token} {inside after : List Token} (ht : t.isWord "function")
    (hi : WellNested inside) (hc : close.kind = .closing .round) (hps : parameters? inside = none) :
    classify (t :: f :: paren :: (inside ++ close :: after)) = none := by
  obtain ⟨hk, hkey⟩ := isKeyword_of_isWord ht (by decide)
  have ha := assignment?_of_word hk (isWord_of_sameWord ht (by decide)) (f :: paren :: (inside ++ close :: after))
  have henc : enclosed? .round 0 (inside ++ close :: after) = some (inside, close, after) :=
    enclosed?_eq_some_iff.2 ⟨rfl, hc, hi.neutral .round 0⟩
  have hfun : function? t (f :: paren :: (inside ++ close :: after)) = none := by
    cases after <;> simp [function?, henc, hps]
  simp [classify, match?, ha, call?_of_keyword hkey, hfun]

theorem items_of_nameless (h : Declaration name gs body ts) (hin : ts ++ rest <:+: Lexer.tokenize source)
    (hg : ∀ g ∈ gs, WellNested g ∧ Whole g) (hn : ∃ g ∈ gs, Nameless g) :
    classify (ts ++ rest) = none ∧ ∃ place n, Marks source (ts ++ rest.take n) place ∧
      (continues rest = false → n = 0) ∧ items (ts ++ rest) = .fault (.unrecognized place) :: items (rest.drop n) := by
  obtain ⟨g, hmem, hnone⟩ := hn
  cases h with
  | @intro t f paren close brace last inside ht hf hname hparen hj hone hc hb hbody hl =>
      have hk := kind_of_isWord ht
      have hi : WellNested inside := hj.wellNested fun g hm => (hg g hm).1
      have hps : parameters? inside = none := by rw [parameters?_of_joined hj hone hg, mapM_of_nameless hnone hmem]
      have hclass := @classify_of_nameless t f paren close inside (brace :: (body ++ last :: rest)) ht hi hc hps
      have hchunk := chunk_declaration hk hf hparen hi hc hb hbody hl rest
      obtain ⟨n, hle, hn, hlen⟩ : ∃ n ≤ rest.length, (continues rest = false → n = 0) ∧
          chunk t (f :: paren :: (inside ++ close :: brace :: (body ++ last :: rest))) =
            inside.length + body.length + 5 + n :=
        ⟨_, by split <;> simp [chunkTail_le], by simp +contextual, hchunk⟩
      have he : f :: paren :: (inside ++ close :: brace :: (body ++ last :: rest)) =
          (f :: paren :: inside ++ close :: brace :: body ++ [last] ++ rest.take n) ++ rest.drop n := by simp
      have hts : t :: f :: paren :: inside ++ close :: brace :: body ++ [last] ++ rest =
          t :: (f :: paren :: (inside ++ close :: brace :: (body ++ last :: rest))) := by simp
      rw [hts] at hin ⊢
      have hstand := standIn_of_isInfix hin
      have hnot : recognize? t (f :: paren :: (inside ++ close :: brace :: (body ++ last :: rest))) = none := by
        rw [recognize?, hclass, Option.bind_none]
      refine ⟨hclass, ?_⟩
      rw [he] at hstand hnot hlen ⊢
      obtain ⟨place, hm, hitems⟩ := items_of_chunk hstand hk hnot (hlen.trans (by simp [hle]; omega))
      exact ⟨place, n, hm, hn, hitems⟩

/-- The parameters of a declaration are those of its groups, in their order, whatever types and defaults stand around them.
If one of the groups has none, or one that takes all further arguments, the declaration is no statement. -/
theorem parameters_in_order (h : Declaration name gs body ts) (hin : ts ++ rest <:+: Lexer.tokenize source) :
    (∀ params, List.Forall₂ Parameter gs params → ∃ place text, Marks source ts place ∧
      items (ts ++ rest) = .function place name params text (items body) :: items rest) ∧
    ((∀ g ∈ gs, WellNested g ∧ Whole g) → (∃ g ∈ gs, Nameless g) →
      classify (ts ++ rest) = none ∧ ∃ place n, Marks source (ts ++ rest.take n) place ∧
        (continues rest = false → n = 0) ∧
        items (ts ++ rest) = .fault (.unrecognized place) :: items (rest.drop n)) :=
  ⟨fun _ => items_of_parameters h hin, items_of_nameless h hin⟩

end

def defaultedGroups : List (List Token) :=
  [[⟨"", 11, .mark, "?"⟩, ⟨"", 12, .word, "A"⟩, ⟨" ", 14, .variable, "$a"⟩],
    [⟨" ", 18, .variable, "$b"⟩, ⟨" ", 21, .equals, "="⟩, ⟨" ", 23, .opening .square, "["⟩, ⟨"", 24, .number, "1"⟩,
      ⟨"", 25, .comma, ","⟩, ⟨" ", 27, .number, "2"⟩, ⟨"", 28, .closing .square, "]"⟩]]

theorem declaration_defaulted :
    Declaration "f" defaultedGroups [] (Lexer.tokenize "function f(?A $a, $b = [1, 2]) \x7b\x7d") := by
  have ht : Lexer.tokenize "function f(?A $a, $b = [1, 2]) \x7b\x7d" =
      ⟨"", 0, .word, "function"⟩ :: ⟨" ", 9, .word, "f"⟩ :: ⟨"", 10, .opening .round, "("⟩ ::
        (defaultedGroups[0] ++ ⟨"", 16, .comma, ","⟩ :: defaultedGroups[1]) ++
        ⟨"", 29, .closing .round, ")"⟩ :: ⟨" ", 31, .opening .curly, "\x7b"⟩ :: [] ++ [⟨"", 32, .closing .curly, "\x7d"⟩] := by
    cbv
  rw [ht]
  exact .intro (by decide) rfl rfl rfl (.more rfl (.last _)) (by decide) rfl rfl .nil rfl

theorem parameters_defaulted : List.Forall₂ Parameter defaultedGroups ["a", "b"] := by
  refine .cons ?_ (.cons ?_ .nil)
  · exact @Parameter.intro [⟨"", 11, .mark, "?"⟩, ⟨"", 12, .word, "A"⟩] [] ⟨" ", 14, .variable, "$a"⟩
      (by decide) (by decide) (by decide) rfl .nil (by decide)
  · exact @Parameter.intro [] _ ⟨" ", 18, .variable, "$b"⟩ .nil (by decide) (by simp) rfl (by decide) (by decide)

def variadicGroup : List Token :=
  [⟨"", 11, .word, "A"⟩, ⟨" ", 13, .mark, "."⟩, ⟨"", 14, .mark, "."⟩, ⟨"", 15, .mark, "."⟩, ⟨"", 16, .variable, "$a"⟩]

theorem declaration_variadic : Declaration "f" [variadicGroup] [] (Lexer.tokenize "function f(A ...$a) \x7b\x7d") := by
  have ht : Lexer.tokenize "function f(A ...$a) \x7b\x7d" =
      ⟨"", 0, .word, "function"⟩ :: ⟨" ", 9, .word, "f"⟩ :: ⟨"", 10, .opening .round, "("⟩ :: variadicGroup ++
        ⟨"", 18, .closing .round, ")"⟩ :: ⟨" ", 20, .opening .curly, "\x7b"⟩ :: [] ++ [⟨"", 21, .closing .curly, "\x7d"⟩] := by
    cbv
  rw [ht]
  exact .intro (by decide) rfl rfl rfl (.last _) (by decide) rfl rfl .nil rfl

theorem nameless_variadic : Nameless variadicGroup :=
  @Nameless.variadic [⟨"", 11, .word, "A"⟩, ⟨" ", 13, .mark, "."⟩, ⟨"", 14, .mark, "."⟩, ⟨"", 15, .mark, "."⟩] []
    ⟨"", 16, .variable, "$a"⟩ ⟨" ", 13, .mark, "."⟩ (by decide) (by decide) (by decide) rfl

theorem parameters_in_order_defaulted :
    (∃ place text, scan "function f(?A $a, $b = [1, 2]) \x7b\x7d" = [.function place "f" ["a", "b"] text []]) ∧
      ∃ place, scan "function f(A ...$a) \x7b\x7d" = [.fault (.unrecognized place)] := by
  have hpart (source : String) : Lexer.tokenize source ++ [] <:+: Lexer.tokenize source := by simp
  constructor
  · obtain ⟨place, text, _, hi⟩ := (parameters_in_order declaration_defaulted (hpart _)).1 _ parameters_defaulted
    rw [List.append_nil, items] at hi
    exact ⟨place, text, hi⟩
  · obtain ⟨_, place, n, _, _, hi⟩ := (parameters_in_order declaration_variadic (hpart _)).2
      (by decide) ⟨_, .head _, nameless_variadic⟩
    rw [List.append_nil, List.drop_nil, items] at hi
    exact ⟨place, hi⟩

end Pattern

end PhpTranspiler
