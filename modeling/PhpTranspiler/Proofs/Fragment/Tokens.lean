import PhpTranspiler.Proofs.Fragment.Syntax

namespace PhpTranspiler

namespace Nesting

def isAtom (t : Token) : Bool :=
  match t.kind with
  | .opening _ | .closing _ | .comma => false
  | _ => true

theorem groups_atom {t : Token} (h : isAtom t) (depth : Nat) (ts : List Token) :
    groups depth (t :: ts) = onto t (groups depth ts) := by
  rw [groups]
  unfold isAtom at h
  split <;> simp_all

theorem groups_atoms {group : List Token} (h : ∀ t ∈ group, isAtom t) : groups 0 group = [group] := by
  induction group with
  | nil => rfl
  | cons t group ih =>
      rw [groups_atom (h t (.head _)), ih fun u hu => h u (List.mem_cons_of_mem t hu)]
      rfl

theorem groups_comma {group : List Token} {comma : Token} (h : ∀ t ∈ group, isAtom t)
    (hc : comma.kind = .comma) (rest : List Token) :
    groups 0 (group ++ comma :: rest) = group :: groups 0 rest := by
  induction group with
  | nil => simp [groups, hc]
  | cons t group ih =>
      rw [List.cons_append, groups_atom (h t (.head _)), ih fun u hu => h u (List.mem_cons_of_mem t hu)]
      rfl

def separated : List (List Token) → List Token
  | [] => []
  | [group] => group
  | group :: next :: rest => group ++ .ofText .comma "," :: separated (next :: rest)

theorem groups_separated {gs : List (List Token)} (h : ∀ group ∈ gs, ∀ t ∈ group, isAtom t) (hn : gs ≠ []) :
    groups 0 (separated gs) = gs := by
  fun_induction separated gs with
  | case1 => exact absurd rfl hn
  | case2 group => exact groups_atoms (h group (.head _))
  | case3 group next rest ih =>
      rw [groups_comma (h group (.head _)) rfl, ih (fun g hg => h g (List.mem_cons_of_mem group hg)) (by simp)]

theorem mem_separated {gs : List (List Token)} {t : Token} (h : t ∈ separated gs) :
    t = .ofText .comma "," ∨ ∃ group ∈ gs, t ∈ group := by
  fun_induction separated gs with
  | case1 => cases h
  | case2 group => exact .inr ⟨group, .head _, h⟩
  | case3 group next rest ih =>
      rcases List.mem_append.1 h with h | h
      · exact .inr ⟨group, .head _, h⟩
      rcases List.mem_cons.1 h with h | h
      · exact .inl h
      rcases ih h with h | ⟨g, hg, h⟩
      · exact .inl h
      · exact .inr ⟨g, List.mem_cons_of_mem group hg, h⟩

end Nesting

namespace Fragment

open Token Lexer Nesting

def Argument.tokens : Argument → List Token
  | .variable name => [ofText .variable name.variable]
  | .text value => [ofText (.quoted .double true) value.quoted]
  | .integer ⟨.ofNat n, _⟩ => [ofText .number n.repr]
  | .integer ⟨.negSucc n, _⟩ => [ofText .mark "-", ofText .number (n + 1).repr]
  | .bool true => [ofText .word "true"]
  | .bool false => [ofText .word "false"]
  | .null => [ofText .word "null"]

def callTokens (name : String) (args : List Argument) : List Token :=
  ofText .word name :: ofText (.opening .round) "(" :: separated (args.map Argument.tokens) ++
    [ofText (.closing .round) ")", ofText .semicolon ";"]

def parameterTokens (params : List Name) : List Token :=
  separated (params.map fun p => [ofText .variable p.variable])

mutual

def Statement.tokens : Statement → List Token
  | .assignment name value =>
    [ofText .variable name.variable, ofText .equals "=", ofText (.quoted .double true) value.quoted,
      ofText .semicolon ";"]
  | .echo arg => callTokens "echo" [arg]
  | .print arg => callTokens "print" [arg]
  | .call c => callTokens c.callee.text c.args
  | .function name params body =>
    ofText .word "function" :: ofText .word name.text :: ofText (.opening .round) "(" :: parameterTokens params ++
      ofText (.closing .round) ")" :: ofText (.opening .curly) "\x7b" :: Statement.tokensAll body ++
        [ofText (.closing .curly) "\x7d"]

def Statement.tokensAll : List Statement → List Token
  | [] => []
  | s :: block => s.tokens ++ Statement.tokensAll block

end

def EndsArgument (rest : List Char) : Prop := ∀ c, rest.head? = some c → c = ',' ∨ c = ')'

theorem EndsArgument.endsWord {rest : List Char} (h : EndsArgument rest) : EndsWord rest := by
  intro c hc
  rcases h c hc with rfl | rfl <;> decide

theorem EndsArgument.endsNumber {rest : List Char} (h : EndsArgument rest) :
    ∀ c, rest.head? = some c → c.isAlphanum = false ∧ c ≠ '_' ∧ c ≠ '.' := by
  intro c hc
  rcases h c hc with rfl | rfl <;> decide

theorem endsArgument_cons {c : Char} (h : c = ',' ∨ c = ')') (cs : List Char) : EndsArgument (c :: cs) := by
  intro d hd
  cases hd
  exact h

theorem Name.bareTokens_variable (n : Name) {rest : List Char} (hr : EndsWord rest) :
    bareTokens (n.variable.toList ++ rest) = ofText .variable n.variable :: bareTokens rest := by
  have he : n.variable.toList = '$' :: n.text.toList := by simp [Name.variable]
  rw [he, Lexer.bareTokens_variable n.isWord hr, ← he, String.ofList_toList]

theorem Plain.bareTokens_quoted (s : Plain) (rest : List Char) :
    bareTokens (s.quoted.toList ++ rest) = ofText (.quoted .double true) s.quoted :: bareTokens rest := by
  have he : s.quoted.toList = '"' :: s.text.toList ++ ['"'] := by simp [Plain.quoted]
  have hp : Enclosable '"' s.text.toList := by
    have hs := s.isPlain
    generalize s.text.toList = cs at hs
    induction cs with
    | nil => exact .nil
    | cons c cs ih =>
        obtain ⟨hq, hb, _⟩ := hs c (.head _)
        exact .plain hb hq (ih fun d hd => hs d (List.mem_cons_of_mem c hd))
  have ht := Lexer.bareTokens_quoted hp rest
  rw [← he, String.ofList_toList] at ht
  rw [← ht, he]
  simp

theorem bareTokens_repr (n : Nat) {rest : List Char} (hr : EndsArgument rest) :
    bareTokens (n.repr.toList ++ rest) = ofText .number n.repr :: bareTokens rest := by
  have hall : ∀ c ∈ Nat.toDigits 10 n, c.isDigit :=
    fun c hc => Nat.isDigit_of_mem_toDigits (by omega) (by omega) hc
  rw [Nat.repr_eq_ofList_toDigits, String.toList_ofList]
  cases hd : Nat.toDigits 10 n with
  | nil => exact absurd hd Nat.toDigits_ne_nil
  | cons c cs =>
      rw [hd] at hall
      exact bareTokens_number (hall c (.head _)) (fun d hm => hall d (List.mem_cons_of_mem c hm)) hr.endsNumber

theorem Argument.bareTokens_source (a : Argument) {rest : List Char} (hr : EndsArgument rest) :
    bareTokens (a.source.toList ++ rest) = a.tokens ++ bareTokens rest := by
  have hword (word : String) (hw : IsWord word.toList) :
      bareTokens (word.toList ++ rest) = ofText .word word :: bareTokens rest := by
    rw [bareTokens_word hw hr.endsWord, String.ofList_toList]
  match a with
  | .variable name => exact name.bareTokens_variable hr.endsWord
  | .text value => exact value.bareTokens_quoted rest
  | .integer ⟨.ofNat n, _⟩ => exact bareTokens_repr n hr
  | .integer ⟨.negSucc n, _⟩ =>
      have he : (Int.negSucc n).repr.toList ++ rest = '-' :: ((n + 1).repr.toList ++ rest) := by
        simp [Int.repr]
      rw [source, he, bareTokens_mark (by decide), bareTokens_repr (n + 1) hr]
      rfl
  | .bool true => exact hword "true" (isWord_of_all (by decide))
  | .bool false => exact hword "false" (isWord_of_all (by decide))
  | .null => exact hword "null" (isWord_of_all (by decide))

theorem bareTokens_commaList {α : Type} {text : α → String} {tokens : α → List Token}
    (h : ∀ a rest, EndsArgument rest → bareTokens ((text a).toList ++ rest) = tokens a ++ bareTokens rest)
    (xs : List α) {rest : List Char} (hr : EndsArgument rest) :
    bareTokens ((Text.commaList (xs.map text)).toList ++ rest) = separated (xs.map tokens) ++ bareTokens rest := by
  match xs with
  | [] => rfl
  | [a] => exact h a rest hr
  | a :: b :: xs =>
      have he : (Text.commaList ((a :: b :: xs).map text)).toList ++ rest =
          (text a).toList ++ ',' :: ' ' :: ((Text.commaList ((b :: xs).map text)).toList ++ rest) := by
        simp [Text.commaList]
      rw [he, h a _ (endsArgument_cons (.inl rfl) _), bareTokens_mark (by decide), bareTokens_blank (by decide),
        bareTokens_commaList h (b :: xs) hr]
      simp [separated, single]

theorem bareTokens_arguments (args : List Argument) {rest : List Char} (hr : EndsArgument rest) :
    bareTokens ((Text.commaList (args.map Argument.source)).toList ++ rest) =
      separated (args.map Argument.tokens) ++ bareTokens rest :=
  bareTokens_commaList (fun a _ h => a.bareTokens_source h) args hr

theorem bareTokens_parameters (params : List Name) {rest : List Char} (hr : EndsArgument rest) :
    bareTokens ((Text.commaList (params.map Name.variable)).toList ++ rest) =
      parameterTokens params ++ bareTokens rest := by
  apply bareTokens_commaList _ params hr
  intro p rest hr
  exact p.bareTokens_variable hr.endsWord

theorem bareTokens_call (name : String) (hn : IsWord name.toList) (args : List Argument) (rest : List Char) :
    bareTokens ((name ++ "(" ++ Text.commaList (args.map Argument.source) ++ ");").toList ++ rest) =
      callTokens name args ++ bareTokens rest := by
  have he : (name ++ "(" ++ Text.commaList (args.map Argument.source) ++ ");").toList ++ rest =
      name.toList ++ '(' :: ((Text.commaList (args.map Argument.source)).toList ++ ')' :: ';' :: rest) := by
    simp
  rw [he, bareTokens_word hn (endsWord_cons (by decide) _), bareTokens_mark (by decide),
    bareTokens_arguments args (endsArgument_cons (.inr rfl) _), bareTokens_mark (by decide),
    bareTokens_mark (by decide)]
  simp [callTokens, single]

mutual

/-- A statement has its tokens whatever follows it. -/
theorem Statement.bareTokens_source {gap : String} (hg : ∀ c ∈ gap.toList, Text.isAsciiBlank c) :
    (s : Statement) → (rest : List Char) →
      bareTokens ((s.source gap).toList ++ rest) = s.tokens ++ bareTokens rest
  | .assignment name value, rest => by
      have he : (source gap (.assignment name value)).toList ++ rest =
          name.variable.toList ++ ' ' :: '=' :: ' ' :: (value.quoted.toList ++ ';' :: rest) := by
        simp [source]
      rw [he, name.bareTokens_variable (endsWord_cons (by decide) _), bareTokens_blank (by decide),
        bareTokens_mark (by decide), bareTokens_blank (by decide), value.bareTokens_quoted,
        bareTokens_mark (by decide)]
      simp [tokens, single]
  | .echo arg, rest => bareTokens_call "echo" (isWord_of_all (by decide)) [arg] rest
  | .print arg, rest => bareTokens_call "print" (isWord_of_all (by decide)) [arg] rest
  | .call c, rest => bareTokens_call c.callee.text c.callee.isWord c.args rest
  | .function name params body, rest => by
      have he : (source gap (.function name params body)).toList ++ rest = "function".toList ++ ' ' ::
          (name.text.toList ++ '(' :: ((Text.commaList (params.map Name.variable)).toList ++ ')' :: ' ' ::
            '\x7b' :: (gap.toList ++ ((Statement.sources gap body).toList ++ '\x7d' :: rest)))) := by
        simp [source]
      have hf : IsWord "function".toList := isWord_of_all (by decide)
      rw [he, bareTokens_word hf (endsWord_cons (by decide) _), bareTokens_blank (by decide),
        bareTokens_word name.isWord (endsWord_cons (by decide) _), bareTokens_mark (by decide),
        bareTokens_parameters params (endsArgument_cons (.inr rfl) _), bareTokens_mark (by decide),
        bareTokens_blank (by decide), bareTokens_mark (by decide),
        bareTokens_blanks hg, Statement.bareTokens_sources hg body, bareTokens_mark (by decide)]
      simp [tokens, single]

theorem Statement.bareTokens_sources {gap : String} (hg : ∀ c ∈ gap.toList, Text.isAsciiBlank c) :
    (block : List Statement) → (rest : List Char) →
      bareTokens ((Statement.sources gap block).toList ++ rest) = Statement.tokensAll block ++ bareTokens rest
  | [], rest => rfl
  | s :: block, rest => by
      have he : (Statement.sources gap (s :: block)).toList ++ rest =
          (s.source gap).toList ++ (gap.toList ++ ((Statement.sources gap block).toList ++ rest)) := by
        simp [Statement.sources]
      rw [he, s.bareTokens_source hg, bareTokens_blanks hg, Statement.bareTokens_sources hg block,
        Statement.tokensAll, List.append_assoc]

end

theorem Style.bareTokens_source (style : Style) (block : List Statement) :
    bareTokens (style.source block).toList =
      (if style.tagged then [ofText .openTag "<?php"] else []) ++ Statement.tokensAll block := by
  have hs := Statement.bareTokens_sources style.isBlank block []
  rw [List.append_nil, bareTokens_nil, List.append_nil] at hs
  rw [Style.source, Style.tag]
  split
  · have he : ("<?php\n" ++ Statement.sources style.gap block).toList =
        '<' :: "?php".toList ++ '\n' :: (Statement.sources style.gap block).toList := by simp
    have hl : lexeme '<' ("?php".toList ++ '\n' :: (Statement.sources style.gap block).toList) =
        (.openTag, "?php".toList.length) := by
      simp [lexeme, isWordStart, openTagLength, Text.sameWord]
    rw [he, bareTokens_of_lexeme (by decide) hl, bareTokens_blank (by decide), hs]
    rfl
  · rw [String.empty_append, hs]
    rfl

end Fragment

end PhpTranspiler
