import Mathlib
import PhpTranspiler.Proofs.Relexing

namespace PhpTranspiler

def Token.ofText (kind : Token.Kind) (text : String) : Token := ⟨"", 0, kind, text⟩

namespace Lexer

open Token

def bareTokens (cs : List Char) : List Token := (tokensFrom 0 cs).map bare

theorem bareTokens_nil : bareTokens [] = [] := by
  rw [bareTokens, tokensFrom_of_gap rfl]
  rfl

theorem bareTokens_blank {c : Char} (h : Text.isAsciiBlank c) (cs : List Char) :
    bareTokens (c :: cs) = bareTokens cs :=
  bare_tokensFrom_blank h 0 cs

theorem bareTokens_blanks {gap : List Char} (h : ∀ c ∈ gap, Text.isAsciiBlank c) (cs : List Char) :
    bareTokens (gap ++ cs) = bareTokens cs := by
  induction gap with
  | nil => rfl
  | cons c gap ih =>
      rw [List.cons_append, bareTokens_blank (h c (.head _))]
      exact ih fun d hd => h d (List.mem_cons_of_mem c hd)

/-- A character that no gap starts with. -/
def isFirm (c : Char) : Bool := c != '/' && c != '#' && !Text.isAsciiBlank c

theorem isFirm_of_class {p : Char → Bool} {c : Char} (h : p c)
    (hn : ['/', '#', ' ', '\t', '\n', '\r', '\x0c'].any p = false) : isFirm c := by
  have hne (d : Char) (hd : d ∈ ['/', '#', ' ', '\t', '\n', '\r', '\x0c']) : c ≠ d := by
    rintro rfl
    exact List.any_eq_false.1 hn c hd h
  simp [isFirm, Text.isAsciiBlank, hne '/' (by decide), hne '#' (by decide), hne ' ' (by decide),
    hne '\t' (by decide), hne '\n' (by decide), hne '\r' (by decide), hne '\x0c' (by decide)]

theorem bareTokens_of_lexeme {c : Char} {cs rest : List Char} {kind : Kind} (hf : isFirm c)
    (h : lexeme c (cs ++ rest) = (kind, cs.length)) :
    bareTokens (c :: cs ++ rest) = ofText kind (String.ofList (c :: cs)) :: bareTokens rest := by
  simp only [isFirm, Bool.and_eq_true, bne_iff_ne, Bool.not_eq_true', ne_eq] at hf
  have hg : gapLength .blanks ([] ++ (c :: cs ++ rest)) = ([] : List Char).length := by
    rw [List.nil_append, List.cons_append, gapLength_of_ne hf.1.1, if_neg hf.1.2, hf.2]
    rfl
  have ht := tokensFrom_of_cuts hg ⟨c, cs, rfl, h⟩ 0
  rw [List.nil_append] at ht
  rw [bareTokens, ht, List.map_cons, bareTokens, bare_tokensFrom _ 0]
  rfl

inductive IsWord : List Char → Prop
  | intro {c : Char} {cs : List Char} (hc : isWordStart c) (hcs : ∀ d ∈ cs, isWordRest d) : IsWord (c :: cs)

theorem isWord_of_all {c : Char} {cs : List Char} (h : isWordStart c && cs.all isWordRest) : IsWord (c :: cs) := by
  rw [Bool.and_eq_true, List.all_eq_true] at h
  exact .intro h.1 h.2

theorem IsWord.isWordRest {cs : List Char} (h : IsWord cs) : ∀ c ∈ cs, isWordRest c := by
  cases h with
  | intro hc hcs => exact List.forall_mem_cons.2 ⟨by simp [Lexer.isWordRest, hc], hcs⟩

def EndsWord (rest : List Char) : Prop := ∀ c, rest.head? = some c → isWordRest c = false

theorem endsWord_cons {c : Char} (h : isWordRest c = false) (cs : List Char) : EndsWord (c :: cs) := by
  intro d hd
  cases hd
  exact h

theorem wordLength_of_endsWord {cs rest : List Char} (h : ∀ c ∈ cs, isWordRest c) (hr : EndsWord rest) :
    wordLength (cs ++ rest) = cs.length := by
  rw [wordLength, List.takeWhile_append_of_pos h]
  cases rest with
  | nil => simp
  | cons d rest => simp [hr d rfl]

theorem not_isDigit_of_isWordStart {c : Char} (h : isWordStart c) : c.isDigit = false := by
  rw [Bool.eq_false_iff]
  intro hd
  simp only [isWordStart, Char.isAlpha, Char.isUpper, Char.isLower, Bool.or_eq_true, Bool.and_eq_true,
    decide_eq_true_eq, beq_iff_eq, UInt32.le_iff_toNat_le, ge_iff_le] at h
  simp only [Char.isDigit, Bool.and_eq_true, decide_eq_true_eq, ge_iff_le, UInt32.le_iff_toNat_le] at hd
  have hv : c.toNat = c.val.toNat := rfl
  have h9 : ('9' : Char).val.toNat = 57 := rfl
  rcases h with ((h | h) | rfl) | h
  · have hA : ('A' : Char).val.toNat = 65 := rfl
    omega
  · have ha : ('a' : Char).val.toNat = 97 := rfl
    omega
  · revert hd
    decide
  · omega

theorem bareTokens_word {cs rest : List Char} (h : IsWord cs) (hr : EndsWord rest) :
    bareTokens (cs ++ rest) = ofText .word (String.ofList cs) :: bareTokens rest := by
  obtain ⟨hc, hcs⟩ := h
  apply bareTokens_of_lexeme (isFirm_of_class hc (by decide))
  simp [lexeme, not_isDigit_of_isWordStart hc, hc, wordLength_of_endsWord hcs hr]

theorem bareTokens_variable {cs rest : List Char} (h : IsWord cs) (hr : EndsWord rest) :
    bareTokens ('$' :: cs ++ rest) = ofText .variable (String.ofList ('$' :: cs)) :: bareTokens rest := by
  cases h with
  | @intro c cs hc hcs =>
      have hd : ('$' : Char).isDigit = false ∧ isWordStart '$' = false := by decide
      have hlen := wordLength_of_endsWord (IsWord.intro hc hcs).isWordRest hr
      rw [List.cons_append] at hlen
      apply bareTokens_of_lexeme (by decide)
      simp [lexeme, hd, hc, hlen]

theorem numberLength_of_digits {previous : Char} {cs rest : List Char} (hp : previous.isDigit)
    (h : ∀ c ∈ cs, c.isDigit)
    (hr : ∀ c, rest.head? = some c → c.isAlphanum = false ∧ c ≠ '_' ∧ c ≠ '.') :
    numberLength previous (cs ++ rest) = cs.length := by
  induction cs generalizing previous with
  | nil =>
      cases rest with
      | nil => rfl
      | cons d rest =>
          obtain ⟨hn, hu, hd⟩ := hr d rfl
          have he : previous ≠ 'e' ∧ previous ≠ 'E' := by
            constructor <;> (rintro rfl; revert hp; decide)
          simp [numberLength, hn, hu, hd, he]
  | cons c cs ih =>
      have hc := h c (.head _)
      have hrest := ih hc fun d hd => h d (List.mem_cons_of_mem c hd)
      simp [numberLength, Char.isAlphanum, hc, hrest]

theorem bareTokens_number {c : Char} {cs rest : List Char} (hc : c.isDigit) (hcs : ∀ d ∈ cs, d.isDigit)
    (hr : ∀ d, rest.head? = some d → d.isAlphanum = false ∧ d ≠ '_' ∧ d ≠ '.') :
    bareTokens (c :: cs ++ rest) = ofText .number (String.ofList (c :: cs)) :: bareTokens rest := by
  apply bareTokens_of_lexeme (isFirm_of_class hc (by decide))
  simp [lexeme, hc, numberLength_of_digits hc hcs hr]

theorem bareTokens_quoted {body : List Char} (h : Enclosable '"' body) (rest : List Char) :
    bareTokens ('"' :: body ++ '"' :: rest) =
      ofText (.quoted .double true) (String.ofList ('"' :: body ++ ['"'])) :: bareTokens rest := by
  have hl : lexeme '"' ((body ++ ['"']) ++ rest) = (.quoted .double true, (body ++ ['"']).length) := by
    have hq := h.quotedLength_eq (by decide) rest
    simp [lexeme, isWordStart, Quote.ofChar?, hq]
  have ht := bareTokens_of_lexeme (by decide) hl
  simpa using ht

def marks : List Char := ['(', ')', '{', '}', ',', ';', '=', '-']

theorem bareTokens_mark {c : Char} (h : c ∈ marks) (rest : List Char) :
    bareTokens (c :: rest) = ofText (single c) (String.ofList [c]) :: bareTokens rest := by
  have hm : marks.all fun d => isFirm d ∧ d.isDigit = false ∧ isWordStart d = false ∧ d ≠ '$' ∧ d ≠ '<' ∧
      d ≠ '?' ∧ Quote.ofChar? d = none := by decide
  obtain ⟨hf, hd, hw, hv, ho, hc, hq⟩ := of_decide_eq_true (List.all_eq_true.1 hm c h)
  have hl : lexeme c ([] ++ rest) = (single c, ([] : List Char).length) := by
    simp [lexeme, hd, hw, hv, ho, hc, hq]
  exact bareTokens_of_lexeme hf hl

end Lexer

end PhpTranspiler
