import PhpTranspiler.Proofs.Accounting
import PhpTranspiler.Proofs.Lexemes

namespace PhpTranspiler

open Script Token Lexer

namespace Lexer

theorem isWordStart_of_lexeme {c : Char} {cs : List Char} {n : Nat} (h : lexeme c cs = (.word, n)) :
    isWordStart c ∧ n = wordLength cs := by
  have hs : single c ≠ .word := by
    unfold single
    split <;> simp
  unfold lexeme at h
  repeat' split at h
  all_goals simp_all

theorem head_of_lexeme_variable {c : Char} {cs : List Char} {n : Nat} (h : lexeme c cs = (.variable, n)) :
    cs.head?.any isWordStart ∧ n = wordLength cs := by
  have hs : single c ≠ .variable := by
    unfold single
    split <;> simp
  unfold lexeme at h
  repeat' split at h
  all_goals simp_all

theorem isWordRest_of_mem_take (cs : List Char) : ∀ c ∈ cs.take (wordLength cs), isWordRest c := by
  have ht : cs.take (wordLength cs) = cs.takeWhile isWordRest :=
    (List.prefix_iff_eq_take.1 (List.takeWhile_prefix isWordRest)).symm
  rw [ht]
  exact List.all_eq_true.1 List.all_takeWhile

theorem isWord_take {cs : List Char} (h : cs.head?.any isWordStart) : IsWord (cs.take (wordLength cs)) := by
  cases cs with
  | nil => cases h
  | cons c cs =>
      have hc : isWordStart c := h
      have hr : isWordRest c := by simp [isWordRest, hc]
      have hall := isWordRest_of_mem_take (c :: cs)
      rw [wordLength, List.takeWhile_cons_of_pos hr, List.length_cons, List.take_succ_cons] at hall ⊢
      exact .intro hc fun d hd => hall d (List.mem_cons_of_mem c hd)

end Lexer

def Token.Worded (t : Token) : Prop :=
  (t.kind = .word → IsWord t.text.toList) ∧ (t.kind = .variable → IsWord t.name.toList)

theorem Lexer.worded_of_mem {start : Nat} {cs : List Char} {t : Token} (ht : t ∈ tokensFrom start cs) :
    t.Worded := by
  fun_induction tokensFrom start cs with
  | case1 => simp at ht
  | case2 start cs gap c rest hc kind n hl before text place ih =>
      rcases List.mem_cons.1 ht with rfl | ht
      · constructor
        · rintro rfl
          obtain ⟨hw, rfl⟩ := isWordStart_of_lexeme hl
          simpa [text] using IsWord.intro hw (isWordRest_of_mem_take rest)
        · rintro rfl
          obtain ⟨hw, rfl⟩ := head_of_lexeme_variable hl
          simpa [text, name] using isWord_take hw
      · exact ih ht

namespace Nesting

theorem mem_of_mem_onto {t u : Token} {group : List Token} {gs : List (List Token)} (hg : group ∈ onto t gs)
    (hu : u ∈ group) : u = t ∨ ∃ g ∈ gs, u ∈ g := by
  cases gs with
  | nil =>
      rw [onto, List.mem_singleton] at hg
      rw [hg] at hu
      exact .inl (List.mem_singleton.1 hu)
  | cons g gs =>
      rcases List.mem_cons.1 hg with rfl | hg
      · rcases List.mem_cons.1 hu with rfl | hu
        · exact .inl rfl
        · exact .inr ⟨g, .head _, hu⟩
      · exact .inr ⟨group, List.mem_cons_of_mem g hg, hu⟩

theorem mem_of_mem_groups {depth : Nat} {ts group : List Token} {u : Token} (hg : group ∈ groups depth ts)
    (hu : u ∈ group) : u ∈ ts := by
  induction ts generalizing depth group with
  | nil =>
      rw [groups, List.mem_singleton] at hg
      rwa [hg] at hu
  | cons t ts ih =>
      have honto {d : Nat} (h : group ∈ onto t (groups d ts)) : u ∈ t :: ts := by
        rcases mem_of_mem_onto h hu with rfl | ⟨g, hg, hu⟩
        · exact .head _
        · exact List.mem_cons_of_mem t (ih hg hu)
      rw [groups] at hg
      split at hg
      · exact honto hg
      · exact honto hg
      · split at hg
        · rcases List.mem_cons.1 hg with rfl | hg
          · cases hu
          · exact List.mem_cons_of_mem t (ih hg hu)
        · exact honto hg
      · exact honto hg

end Nesting

/-- An item of a source that is read from its tokens: its names are words, and it assigns strings alone. -/
inductive Item.Worded : Item → Prop
  | assignment {place : Excerpt} {name s : String} (h : IsWord name.toList) :
      Worded (.assignment place name (.text s))
  | call {place : Excerpt} {callee args : String} (h : IsWord callee.toList)
      (hk : Pattern.isKeyword callee = false) : Worded (.call place callee args)
  | function {place : Excerpt} {name text : String} {params : List String} {items : List Item}
      (h : IsWord name.toList) (hp : ∀ p ∈ params, IsWord p.toList) (hs : ∀ item ∈ items, Worded item) :
      Worded (.function place name params text items)
  | fault (f : Fault) : Worded (.fault f)

namespace Pattern

theorem mem_of_parameter? {ts : List Token} {p : String} (h : parameter? ts = some p) :
    ∃ t ∈ ts, t.kind = .variable ∧ p = t.name := by
  fun_induction parameter? ts with
  | case1 => cases h
  | case2 t ts hk => exact ⟨t, .head _, hk, (Option.some.inj h).symm⟩
  | case3 t ts _ _ => cases h
  | case4 t ts _ _ ih =>
      obtain ⟨u, hu, hk⟩ := ih h
      exact ⟨u, List.mem_cons_of_mem t hu, hk⟩

theorem exists_of_mapM_some {α β : Type} {f : α → Option β} {xs : List α} {ys : List β}
    (h : xs.mapM f = some ys) : ∀ y ∈ ys, ∃ x ∈ xs, f x = some y := by
  induction xs generalizing ys with
  | nil =>
      cases h
      simp
  | cons x xs ih =>
      rw [List.mapM_cons] at h
      obtain ⟨b, hx, h⟩ := Option.bind_eq_some_iff.1 h
      obtain ⟨bs, hxs, h⟩ := Option.bind_eq_some_iff.1 h
      cases h
      refine List.forall_mem_cons.2 ⟨⟨x, .head _, hx⟩, ?_⟩
      intro y hy
      obtain ⟨z, hz, he⟩ := ih hxs y hy
      exact ⟨z, List.mem_cons_of_mem x hz, he⟩

theorem mem_of_parameters? {ts : List Token} {params : List String} (h : parameters? ts = some params) :
    ∀ p ∈ params, ∃ t ∈ ts, t.kind = .variable ∧ p = t.name := by
  intro p hp
  unfold parameters? at h
  split at h
  · cases h
    cases hp
  · obtain ⟨group, hg, hgp⟩ := exists_of_mapM_some h p hp
    obtain ⟨t, ht, hk⟩ := mem_of_parameter? hgp
    exact ⟨t, Nesting.mem_of_mem_groups hg ht, hk⟩

theorem items_worded {ts : List Token} (h : ∀ t ∈ ts, t.Worded) : ∀ item ∈ items ts, item.Worded := by
  fun_induction items ts with
  | case1 => simp
  | case2 t ts _ ih => exact ih fun u hu => h u (List.mem_cons_of_mem t hu)
  | case3 t ts _ _ ih =>
      refine List.forall_mem_cons.2 ⟨.fault _, ih ?_⟩
      exact fun u hu => h u (List.mem_cons_of_mem t (List.mem_of_mem_drop hu))
  | case5 t ts _ m hm fault hi _ ih =>
      refine List.forall_mem_cons.2 ⟨.fault _, ih ?_⟩
      exact fun u hu => h u (List.mem_cons_of_mem t (List.mem_of_mem_drop hu))
  | case4 t ts _ m hm item hi ihb ih =>
      refine List.forall_mem_cons.2 ⟨?_, ih ?_⟩
      · cases recognize?_spells hm with
        | @assignment equals literal semi rest hk =>
            simp only [Match.item] at hi
            split at hi
            · cases hi
              exact .assignment ((h t (.head _)).2 hk)
            · cases hi
        | @writtenOut n equals literal semi rest _ hk =>
            simp only [Match.item] at hi
            split at hi
            · cases hi
              exact .assignment ((h n (.tail _ (.head _))).1 hk)
            · cases hi
        | call ht hk =>
            cases hi
            exact .call ((h t (.head _)).1 ht) hk
        | @function n paren close brace last inside body rest params _ hn _ _ _ hps =>
            cases hi
            refine .function ((h n (.tail _ (.head _))).1 hn) ?_ (ihb ?_)
            · intro p hp
              obtain ⟨u, hu, hk, rfl⟩ := mem_of_parameters? hps p hp
              exact (h u (by simp [hu])).2 hk
            · exact fun u hu => h u (by simp [Match.body] at hu; simp [hu])
      · exact fun u hu => h u (List.mem_cons_of_mem t (List.mem_of_mem_drop hu))

theorem scan_worded (source : String) : ∀ item ∈ scan source, item.Worded :=
  items_worded fun _ ht => worded_of_mem ht

end Pattern

namespace Script

/-- A word that can be a name in JavaScript. -/
def IsName (name : String) : Prop := IsWord name.toList ∧ name ∉ reservedWords

inductive Argument.Sourced : Argument → Prop
  | variable {name : String} (h : IsName name) : Sourced (.variable name)
  | literal {s : Scalar} {l : Literal} (h : Literal.ofScalar s = .ok l) : Sourced (.literal l)

inductive Callee.Sourced : Callee → Prop
  | plain {name : String} (h : IsName name) (hk : Pattern.isKeyword name = false)
      (hb : Builtin.ofName? name = none) : Sourced (.plain name)
  | log : Sourced Call.log
  | math {name property : String} (h : (name, .math property) ∈ builtins) : Sourced (.member "Math" property)

inductive Draft.Sourced : Draft → Prop
  | variable {name : String} (s : String) (h : IsName name) : Sourced (.variable name ⟨.text s, quote s⟩)
  | call {c : Call} (hc : c.callee.Sourced) (ha : ∀ a ∈ c.args, a.Sourced) : Sourced (.call c)
  | function {name : String} {params : List String} {body : List Draft} (h : IsName name)
      (hp : ∀ p ∈ params, IsName p) (hb : ∀ d ∈ body, Sourced d) : Sourced (.function name params body)

theorem Argument.ofTokens_eq_ok {group : List Token} {a : Argument} (h : ofTokens group = .ok a) :
    (∃ t ∈ group, t.kind = .variable ∧ a = .variable t.name) ∨
      ∃ s l, a = .literal l ∧ Literal.ofScalar s = .ok l := by
  have hliteral {s : Scalar} (h : (Literal.ofScalar s).map Argument.literal = .ok a) :
      ∃ s l, a = .literal l ∧ Literal.ofScalar s = .ok l := by
    cases hl : Literal.ofScalar s with
    | error r =>
        rw [hl] at h
        cases h
    | ok l =>
        rw [hl] at h
        cases h
        exact ⟨s, l, rfl, hl⟩
  unfold ofTokens at h
  split at h
  · rename_i t
    split at h
    · rename_i hk
      cases h
      exact .inl ⟨t, .head _, hk, rfl⟩
    · split at h
      · exact .inr (hliteral h)
      · cases h
  · split at h
    · exact .inr (hliteral h)
    · cases h
  · cases h

theorem mapM_eq_ok_iff {α β ε : Type} {f : α → Except ε β} {xs : List α} {ys : List β} :
    xs.mapM f = .ok ys ↔ List.Forall₂ (fun x y => f x = .ok y) xs ys := by
  induction xs generalizing ys with
  | nil => cases ys <;> simp [pure, Except.pure]
  | cons x xs ih =>
      rw [List.mapM_cons]
      cases hx : f x with
      | error e => cases ys <;> simp [bind, Except.bind, hx]
      | ok y =>
          cases hxs : xs.mapM f with
          | error e => cases ys <;> simp [bind, Except.bind, ← ih, hx, hxs]
          | ok rest => cases ys <;> simp [bind, Except.bind, pure, Except.pure, ← ih, hx, hxs]

theorem exists_of_forall₂ {α β : Type} {R : α → β → Prop} {xs : List α} {ys : List β} (h : List.Forall₂ R xs ys) :
    (∀ x ∈ xs, ∃ y ∈ ys, R x y) ∧ ∀ y ∈ ys, ∃ x ∈ xs, R x y := by
  induction h with
  | nil => simp
  | @cons x y xs ys hxy _ ih =>
      refine ⟨List.forall_mem_cons.2 ⟨⟨y, .head _, hxy⟩, ?_⟩, List.forall_mem_cons.2 ⟨⟨x, .head _, hxy⟩, ?_⟩⟩
      · intro z hz
        obtain ⟨w, hw, hr⟩ := ih.1 z hz
        exact ⟨w, List.mem_cons_of_mem y hw, hr⟩
      · intro w hw
        obtain ⟨z, hz, hr⟩ := ih.2 w hw
        exact ⟨z, List.mem_cons_of_mem x hz, hr⟩

theorem exists_of_mapM_ok {α β ε : Type} {f : α → Except ε β} {xs : List α} {ys : List β}
    (h : xs.mapM f = .ok ys) : ∀ y ∈ ys, ∃ x ∈ xs, f x = .ok y :=
  (exists_of_forall₂ (mapM_eq_ok_iff.1 h)).2

theorem arguments_eq_ok {raw : String} {args : List Argument} (h : arguments raw = .ok args) :
    ∀ a ∈ args, (∃ t ∈ tokenize raw, t.kind = .variable ∧ a = .variable t.name) ∨
      ∃ s l, a = .literal l ∧ Literal.ofScalar s = .ok l := by
  intro a ha
  simp only [arguments] at h
  split at h
  · cases h
    cases ha
  · obtain ⟨group, hg, hga⟩ := exists_of_mapM_ok h a ha
    rcases Argument.ofTokens_eq_ok hga with ⟨t, ht, hk, rfl⟩ | hl
    · exact .inl ⟨t, Nesting.mem_of_mem_groups hg ht, hk, rfl⟩
    · exact .inr hl

theorem Call.names_free {c : Call} {words : List String} (hc : ∀ name, c.callee = .plain name → name ∉ words)
    (ha : ∀ name, .variable name ∈ c.args → name ∉ words) : ∀ name ∈ c.names, name ∉ words := by
  intro name hm
  rcases List.mem_append.1 hm with hm | hm
  · cases hp : c.callee with
    | plain callee =>
        rw [hp] at hm
        cases List.mem_singleton.1 hm
        exact hc name hp
    | member object property =>
        rw [hp] at hm
        cases hm
  · obtain ⟨arg, harg, hn⟩ := List.mem_filterMap.1 hm
    cases arg with
    | «variable» x =>
        cases hn
        exact ha name harg
    | literal => cases hn

theorem Call.ofSource_eq_ok {name raw : String} {c : Call} (h : Call.ofSource name raw = .ok c) :
    arguments raw = .ok c.args ∧
      ((c.callee = log ∧ c.args.length = 1) ∨
        (∃ entry property, (entry, .math property) ∈ builtins ∧ c.callee = .member "Math" property) ∨
          c.callee = .plain name ∧ Builtin.ofName? name = none) := by
  unfold Call.ofSource at h
  cases ha : arguments raw with
  | error r => simp [ha, Except.bind] at h
  | ok args =>
      simp only [ha, Except.bind] at h
      split at h
      · split at h
        · rename_i hl
          cases h
          exact ⟨rfl, .inl ⟨rfl, hl⟩⟩
        · cases h
      · rename_i property hb
        cases h
        obtain ⟨⟨entry, _⟩, hf, rfl⟩ := Option.map_eq_some_iff.1 hb
        exact ⟨rfl, .inr (.inl ⟨entry, property, List.mem_of_find?_eq_some hf, rfl⟩)⟩
      · rename_i hb
        cases h
        exact ⟨rfl, .inr (.inr ⟨rfl, hb⟩)⟩

end Script

namespace Transpile

theorem free_of_checkNames {names : List String} (h : checkNames names = .ok ()) :
    ∀ name ∈ names, name ∉ reservedWords := by
  induction names with
  | nil => simp
  | cons name names ih =>
      rw [checkNames, checkName] at h
      split at h
      · cases h
      · rename_i hn
        exact List.forall_mem_cons.2 ⟨hn, ih h⟩

theorem checkNames_of_free {names : List String} (h : ∀ name ∈ names, name ∉ reservedWords) :
    checkNames names = .ok () := by
  induction names with
  | nil => rfl
  | cons name names ih =>
      have hc : checkName name = .ok () := if_neg (h name (.head _))
      rw [checkNames, hc]
      exact ih fun n hn => h n (List.mem_cons_of_mem name hn)

theorem invoke_eq_ok {callee args : String} {d : Draft} (h : invoke callee args = .ok d) :
    ∃ c, d = .call c ∧ Call.ofSource callee args = .ok c ∧ ∀ name ∈ c.names, name ∉ reservedWords := by
  unfold invoke at h
  cases hc : Call.ofSource callee args with
  | error r => simp [hc, Except.bind] at h
  | ok c =>
      cases hn : checkNames c.names with
      | error r => simp [hc, hn, Except.bind, Except.map] at h
      | ok _ =>
          simp only [hc, hn, Except.bind, Except.map, Except.ok.injEq] at h
          exact ⟨c, h.symm, rfl, free_of_checkNames hn⟩

theorem declare_eq_ok {name : String} {value : Scalar} {d : Draft} (h : declare name value = .ok d) :
    ∃ l, d = .variable name l ∧ Literal.ofScalar value = .ok l ∧ name ∉ reservedWords := by
  rw [declare, checkName] at h
  split at h
  · cases h
  · rename_i hn
    cases hl : Literal.ofScalar value with
    | error r => simp [hl, Except.bind, Except.map] at h
    | ok l =>
        simp only [hl, Except.bind, Except.map, Except.ok.injEq] at h
        exact ⟨l, h.symm, rfl, hn⟩

theorem settle_eq_some {place : Excerpt} {r : Except Refusal Draft} {d : Draft} {ds : List Diagnostic}
    (h : settle place r = (some d, ds)) : r = .ok d := by
  cases r with
  | error e => cases h
  | ok e =>
      cases h
      rfl

theorem mem_of_lowerAll {mode : Mode} {items : List Item} {drafts : List Draft} {ds : List Diagnostic}
    (h : lowerAll mode items = .ok (drafts, ds)) {d : Draft} (hd : d ∈ drafts) :
    ∃ item ∈ items, ∃ inner, lower mode item = .ok (some d, inner) := by
  induction items generalizing drafts ds with
  | nil =>
      cases h
      cases hd
  | cons item items ih =>
      obtain ⟨draft, inner, more, rest, hi, hs, rfl, _⟩ := lowerAll_cons h
      rcases List.mem_append.1 hd with hd | hd
      · rw [Option.mem_toList] at hd
        exact ⟨item, .head _, inner, by rw [hi, hd]⟩
      · obtain ⟨x, hx, hl⟩ := ih hs hd
        exact ⟨x, List.mem_cons_of_mem item hx, hl⟩

theorem sourced_of_invoke {callee args : String} {d : Draft} (h : invoke callee args = .ok d)
    (hw : IsWord callee.toList) (hk : Pattern.isKeyword callee = false) : d.Sourced := by
  obtain ⟨c, rfl, hc, hfree⟩ := invoke_eq_ok h
  obtain ⟨ha, hcallee⟩ := Call.ofSource_eq_ok hc
  apply Draft.Sourced.call
  · rcases hcallee with ⟨he, _⟩ | ⟨entry, property, hm, he⟩ | ⟨he, hb⟩
    · rw [he]
      exact .log
    · rw [he]
      exact .math hm
    · rw [he]
      exact .plain ⟨hw, hfree callee (by simp [Call.names, he])⟩ hk hb
  · intro a hm
    rcases arguments_eq_ok ha a hm with ⟨t, ht, hkind, rfl⟩ | ⟨s, l, rfl, hl⟩
    · refine .variable ⟨(worded_of_mem ht).2 hkind, hfree t.name (List.mem_append_right _ ?_)⟩
      exact List.mem_filterMap.2 ⟨_, hm, rfl⟩
    · exact .literal hl

theorem lower_sourced {mode : Mode} {item : Item} (hw : item.Worded) :
    ∀ {d ds}, lower mode item = .ok (some d, ds) → d.Sourced := by
  induction hw with
  | @assignment place name s hn =>
      intro d ds h
      rw [lower, Except.ok.injEq] at h
      obtain ⟨l, rfl, hl, hfree⟩ := declare_eq_ok (settle_eq_some h)
      cases hl
      exact .variable s ⟨hn, hfree⟩
  | @call place callee args hn hk =>
      intro d ds h
      rw [lower, Except.ok.injEq] at h
      exact sourced_of_invoke (settle_eq_some h) hn hk
  | @function place name text params items hn hp _ ih =>
      intro d ds h
      rcases lower_function_eq_ok h with ⟨_, _, hd, _⟩ | ⟨body, hc, hs, hd⟩
      · cases hd
      · cases hd
        have hfree := free_of_checkNames hc
        refine .function ⟨hn, hfree name (.head _)⟩ ?_ ?_
        · exact fun p hm => ⟨hp p hm, hfree p (List.mem_cons_of_mem name hm)⟩
        · intro d hd
          obtain ⟨item, hi, inner, hl⟩ := mem_of_lowerAll hs hd
          exact ih item hi hl
  | fault f =>
      intro d ds h
      cases (lower_fault_eq_ok h).2

end Transpile

theorem mem_of_mem_pulled {source : Source} {item : Item} (h : item ∈ source.pulled) : item ∈ source.items := by
  obtain ⟨rest, hr, _⟩ := Run.pulled_append (Text.inkEnd source.text) 0 source.items
  rw [hr]
  exact List.mem_append_left rest h

/-- All statements that a source becomes have their names and literals from it. -/
theorem sourced_of_pulled {mode : Mode} {source : String} {drafts : List Draft} {ds : List Diagnostic}
    (h : Transpile.lowerAll mode (Source.plain source).pulled = .ok (drafts, ds)) : ∀ d ∈ drafts, d.Sourced := by
  intro d hd
  obtain ⟨item, hi, inner, hl⟩ := Transpile.mem_of_lowerAll h hd
  exact Transpile.lower_sourced (Pattern.scan_worded source item (mem_of_mem_pulled hi)) hl

end PhpTranspiler
