import PhpTranspiler.Proofs.Fragment.Tokens
import PhpTranspiler.Proofs.Rereading
import PhpTranspiler.Proofs.Spacing

namespace PhpTranspiler

open Token Lexer

namespace Nesting

/-- Tokens behind which as many brackets of the form `b` are open as before them. -/
def Neutral (b : Bracket) (ts : List Token) : Prop := ∀ depth, level? b depth ts = some depth

variable {b : Bracket} {ts us : List Token}

theorem Neutral.append (ht : Neutral b ts) (hu : Neutral b us) : Neutral b (ts ++ us) := by
  intro depth
  rw [level?_append, ht depth]
  exact hu depth

theorem neutral_of_forall (h : ∀ t ∈ ts, t.kind ≠ .opening b ∧ t.kind ≠ .closing b) : Neutral b ts := by
  intro depth
  induction ts with
  | nil => rfl
  | cons t ts ih =>
      obtain ⟨ho, hc⟩ := h t (.head _)
      simpa [level?, ho, hc] using ih fun u hu => h u (List.mem_cons_of_mem t hu)

theorem Neutral.enclosed (h : Neutral b ts) {t u : Token} (ht : t.kind = .opening b) (hu : u.kind = .closing b) :
    Neutral b (t :: ts ++ [u]) := by
  intro depth
  have hd := level?_append b (depth + 1) ts [u]
  rw [h (depth + 1)] at hd
  simp [level?, ht, hu, hd]

theorem Neutral.balanced (h : Neutral b us) (he : ts.map bare = us) : Balanced b ts := by
  rw [← balanced_map kind_bare, he]
  exact h 0

theorem neutral_separated {gs : List (List Token)} (h : ∀ group ∈ gs, ∀ t ∈ group, isAtom t) (b : Bracket) :
    Neutral b (separated gs) := by
  apply neutral_of_forall
  intro t ht
  rcases mem_separated ht with rfl | ⟨group, hg, ht⟩
  · simp [ofText]
  · have ha := h group hg t ht
    constructor <;> (intro hk; simp [isAtom, hk] at ha)

theorem separated_ne_nil {group : List Token} (h : group ≠ []) (gs : List (List Token)) :
    separated (group :: gs) ≠ [] := by
  cases gs <;> simp [separated, h]

def callOf (name : String) (gs : List (List Token)) : List Token :=
  ofText .word name :: ofText (.opening .round) "(" :: separated gs ++
    [ofText (.closing .round) ")", ofText .semicolon ";"]

def functionOf (name : String) (params body : List Token) : List Token :=
  ofText .word "function" :: ofText .word name :: ofText (.opening .round) "(" :: params ++
    ofText (.closing .round) ")" :: ofText (.opening .curly) "\x7b" :: body ++ [ofText (.closing .curly) "\x7d"]

theorem neutral_callOf (name : String) {gs : List (List Token)} (h : ∀ group ∈ gs, ∀ t ∈ group, isAtom t) :
    Neutral .curly (callOf name gs) := by
  have hl : Neutral .curly [ofText .word name, ofText (.opening .round) "("] :=
    neutral_of_forall (by simp [ofText])
  have hr : Neutral .curly [ofText (.closing .round) ")", ofText .semicolon ";"] :=
    neutral_of_forall (by simp [ofText])
  exact (hl.append (neutral_separated h .curly)).append hr

theorem neutral_functionOf (name : String) {params body : List Token} (hp : Neutral .curly params)
    (hb : Neutral .curly body) : Neutral .curly (functionOf name params body) := by
  have hl : Neutral .curly [ofText .word "function", ofText .word name, ofText (.opening .round) "("] :=
    neutral_of_forall (by simp [ofText])
  have hc : Neutral .curly [ofText (.closing .round) ")"] := neutral_of_forall (by simp [ofText])
  have hblock : Neutral .curly (ofText (.opening .curly) "\x7b" :: body ++ [ofText (.closing .curly) "\x7d"]) :=
    hb.enclosed rfl rfl
  have h := ((hl.append hp).append hc).append hblock
  simpa [functionOf] using h

end Nesting

open Nesting

theorem clean_of_bare {ts us : List Token} (h : ts.map bare = us) (hc : ∀ t ∈ us, t.Clean) :
    ∀ t ∈ ts, t.Clean := by
  intro t ht
  exact hc t.bare (h ▸ List.mem_map_of_mem ht)

theorem clean_separated {gs : List (List Token)} (h : ∀ group ∈ gs, ∀ t ∈ group, t.Clean) :
    ∀ t ∈ separated gs, t.Clean := by
  intro t ht
  rcases mem_separated ht with rfl | ⟨group, hg, ht⟩
  · refine .inr ?_
    simp [ofText, Text.isBlank]
  · exact h group hg t ht

/-- Tokens that are read as one argument wherever they stand in a list. -/
structure Script.Argument.Spelled (tokens : List Token) (arg : Script.Argument) : Prop where
  isAtom : ∀ t ∈ tokens, isAtom t
  isBare : tokens.map bare = tokens
  ne_nil : tokens ≠ []
  ofTokens_eq : Script.Argument.ofTokens tokens = .ok arg

namespace Script

open Argument

section

variable {α : Type} {tokens : α → List Token} {arg : α → Argument} {xs : List α}

theorem mapM_ofTokens (h : ∀ a ∈ xs, Spelled (tokens a) (arg a)) :
    (xs.map tokens).mapM ofTokens = .ok (xs.map arg) := by
  induction xs with
  | nil => rfl
  | cons a xs ih =>
      rw [List.map_cons, List.mapM_cons, (h a (.head _)).ofTokens_eq, ih fun b hb => h b (List.mem_cons_of_mem a hb)]
      rfl

theorem isAtom_of_spelled (h : ∀ a ∈ xs, Spelled (tokens a) (arg a)) :
    ∀ group ∈ xs.map tokens, ∀ t ∈ group, isAtom t := by
  simp only [List.mem_map]
  rintro _ ⟨a, ha, rfl⟩
  exact (h a ha).isAtom

theorem arguments_eq {raw : String} (hs : ∀ a ∈ xs, Spelled (tokens a) (arg a))
    (h : (tokenize raw).map bare = separated (xs.map tokens)) : arguments raw = .ok (xs.map arg) := by
  cases xs with
  | nil =>
      have hn : tokenize raw = [] := List.map_eq_nil_iff.1 h
      simp [arguments, hn]
  | cons a xs =>
      have hn : (tokenize raw).isEmpty = false := by
        rw [← List.isEmpty_map (f := bare), h, List.isEmpty_eq_false_iff]
        exact separated_ne_nil (hs a (.head _)).ne_nil _
      -- No argument has a bracket or a comma of its own, so the commas between them are where they are split.
      have hg : (groups 0 (tokenize raw)).map (List.map bare) = ((a :: xs).map tokens).map (List.map bare) := by
        rw [← groups_map kind_bare, h, groups_separated (isAtom_of_spelled hs) (by simp), List.map_map]
        exact List.map_congr_left fun b hb => (hs b hb).isBare.symm
      have hc := mapM_ofTokens_respaced hg
      rw [mapM_ofTokens hs] at hc
      rw [arguments, hn]
      exact hc.eq_ok

end

end Script

namespace Pattern

theorem items_of_callOf {name : String} {gs : List (List Token)} {ts more : List Token}
    (h : ts.map bare = callOf name gs ++ more) (hk : isKeyword name = false) (hl : Lexed ts)
    (ha : ∀ group ∈ gs, ∀ t ∈ group, isAtom t) (hc : ∀ group ∈ gs, ∀ t ∈ group, t.Clean) :
    ∃ place raw before us, ts = before ++ us ∧ items ts = .call place name raw :: items us ∧
      (tokenize raw).map bare = separated gs ∧ us.map bare = more := by
  simp only [callOf, List.cons_append, List.append_assoc, List.nil_append] at h
  obtain ⟨t, ts, rfl, ht, h⟩ := List.map_eq_cons_iff.1 h
  obtain ⟨paren, ts, rfl, hp, h⟩ := List.map_eq_cons_iff.1 h
  obtain ⟨inside, ts, rfl, hi, h⟩ := List.map_eq_append_iff.1 h
  obtain ⟨close, ts, rfl, hclose, h⟩ := List.map_eq_cons_iff.1 h
  obtain ⟨semi, us, rfl, hs, h⟩ := List.map_eq_cons_iff.1 h
  have hkey : isKeyword t.text = false := by rw [(bare_eq_ofText ht).2, hk]
  have hspells : Spells t (paren :: inside ++ close :: semi :: us) _ :=
    .call (bare_eq_ofText ht).1 hkey (bare_eq_ofText hp).1 ((neutral_separated ha .round).balanced hi)
      (bare_eq_ofText hclose).1 (bare_eq_ofText hs).1
  have hdrop : (paren :: inside ++ close :: semi :: us).drop (inside.length + 3) = us := by
    simp [List.drop_append]
  have hitems := items_of_call hspells
  rw [hdrop, (bare_eq_ofText ht).2] at hitems
  have hinner : Lexed (inside ++ close :: semi :: us) := hl.drop 2
  refine ⟨_, _, t :: paren :: inside ++ [close, semi], us, by simp, hitems, ?_, h⟩
  rw [bare_tokenize_inner hinner (clean_of_bare hi (clean_separated hc)), hi]

theorem items_of_functionOf {name : String} {params : List String} {ps body ts more : List Token}
    (h : ts.map bare = functionOf name ps body ++ more) (hr : Neutral .round ps)
    (hps : parameters? ps = some params) (hb : Neutral .curly body) :
    ∃ place text before block last us, ts = before ++ block ++ last :: us ∧
      items ts = .function place name params text (items block) :: items us ∧ block.map bare = body ∧
      us.map bare = more := by
  simp only [functionOf, List.cons_append, List.append_assoc, List.nil_append] at h
  obtain ⟨t, ts, rfl, ht, h⟩ := List.map_eq_cons_iff.1 h
  obtain ⟨n, ts, rfl, hn, h⟩ := List.map_eq_cons_iff.1 h
  obtain ⟨paren, ts, rfl, hp, h⟩ := List.map_eq_cons_iff.1 h
  obtain ⟨inside, ts, rfl, hi, h⟩ := List.map_eq_append_iff.1 h
  obtain ⟨close, ts, rfl, hc, h⟩ := List.map_eq_cons_iff.1 h
  obtain ⟨brace, ts, rfl, hbrace, h⟩ := List.map_eq_cons_iff.1 h
  obtain ⟨block, ts, rfl, hbody, h⟩ := List.map_eq_append_iff.1 h
  obtain ⟨last, us, rfl, hl, h⟩ := List.map_eq_cons_iff.1 h
  have hw : t.isWord "function" := by
    rw [isWord, (bare_eq_ofText ht).1, (bare_eq_ofText ht).2]
    decide
  have hparams : parameters? inside = some params := by
    rw [← parameters?_map kind_bare text_bare, hi, hps]
  -- The body closes what it opens, so the last brace is the one that ends it.
  have hspells : Spells t (n :: paren :: inside ++ close :: brace :: block ++ last :: us) _ :=
    .function hw (bare_eq_ofText hn).1 (bare_eq_ofText hp).1 (hr.balanced hi) (bare_eq_ofText hc).1 hparams
      (bare_eq_ofText hbrace).1 (hb.balanced hbody) (bare_eq_ofText hl).1
  have hdrop : (n :: paren :: inside ++ close :: brace :: block ++ last :: us).drop
      (inside.length + block.length + 5) = us := by
    have hlen : inside.length + block.length + 5 =
      (n :: paren :: inside ++ close :: brace :: block ++ [last]).length := by simp; omega
    rw [hlen, List.append_cons _ last us, List.drop_left]
  have hitems := items_of_function hspells
  rw [hdrop, (bare_eq_ofText hn).2] at hitems
  simp only [List.cons_append, List.append_assoc] at hitems
  exact ⟨_, _, t :: n :: paren :: inside ++ [close, brace], block, last, us, by simp, hitems, hbody, h⟩

end Pattern

end PhpTranspiler
