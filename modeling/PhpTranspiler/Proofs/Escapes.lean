import PhpTranspiler.Proofs.Integers
import PhpTranspiler.Proofs.Rereading

namespace PhpTranspiler

open Lexer

def Quote.enclose (quote : Quote) (body : List Char) : String := String.ofList (quote.char :: body ++ [quote.char])

namespace Lexer

theorem Enclosable.append {quote : Char} {as bs : List Char} (ha : Enclosable quote as) (hb : Enclosable quote bs) :
    Enclosable quote (as ++ bs) := by
  induction ha with
  | nil => exact hb
  | escaped c _ ih => exact .escaped c ih
  | plain hc hq _ ih => exact .plain hc hq ih

theorem enclosable_flatten {α : Type} {quote : Char} {R : α → List Char → Prop}
    (hr : ∀ x part, R x part → Enclosable quote part) {xs : List α} {parts : List (List Char)}
    (h : List.Forall₂ R xs parts) : Enclosable quote parts.flatten := by
  induction h with
  | nil => exact .nil
  | cons hx _ ih => exact (hr _ _ hx).append ih

end Lexer

namespace Quoted

def escapes : List (Char × Char) :=
  [('\n', 'n'), ('\t', 't'), ('\r', 'r'), ('\x0b', 'v'), ('\x1b', 'e'), ('\x0c', 'f'), ('\\', '\\'), ('$', '$'),
    ('"', '"')]

inductive WritesByte (b : UInt8) : List Char → Prop
  | hex {d e : Char} (h : Digits.natural? 16 [d, e] = some b.toNat) : WritesByte b ['\\', 'x', d, e]
  | octal {d e f : Char} (h : Digits.natural? 8 [d, e, f] = some b.toNat) : WritesByte b ['\\', d, e, f]

/-- The ways to write a character between double quotes. A code point has any number of leading zeros, and its digits
and those of bytes are in any case. -/
inductive WritesChar (c : Char) : List Char → Prop
  | raw (hb : c ≠ '\\') (hq : c ≠ '"') : WritesChar c [c]
  | escape {d : Char} (h : (c, d) ∈ escapes) : WritesChar c ['\\', d]
  | codePoint {ds : List Char} (h : Digits.natural? 16 ds = some c.toNat) :
      WritesChar c ('\\' :: 'u' :: '{' :: ds ++ ['}'])
  | bytes {parts : List (List Char)} (h : List.Forall₂ WritesByte (bytes c) parts) : WritesChar c parts.flatten

def writtenSingle (c : Char) : List Char := if c = '\\' ∨ c = '\'' then ['\\', c] else [c]

/-- The text is one closed string and nothing else, and it stands for `s`. -/
def StandsFor (quote : Quote) (text s : String) : Prop :=
  tokenize text = [⟨"", 0, .quoted quote true, text⟩] ∧ decode? text = some s

theorem tokenize_enclose (quote : Quote) {body : List Char} (h : Enclosable quote.char body) :
    tokenize (quote.enclose body) = [⟨"", 0, .quoted quote true, quote.enclose body⟩] := by
  have hq : quote.char ≠ '\\' := by cases quote <;> decide
  have hg : gapLength .blanks ([] ++ ((quote.char :: body ++ [quote.char]) ++ [])) = ([] : List Char).length := by
    cases quote <;> simp [Quote.char, gapLength_of_ne, Text.isAsciiBlank]
  have hl : Cuts (.quoted quote true) (quote.char :: body ++ [quote.char]) [] := by
    refine ⟨quote.char, body ++ [quote.char], rfl, ?_⟩
    have hlen := h.quotedLength_eq hq []
    cases quote <;> simp_all [Quote.char, lexeme, isWordStart, Quote.ofChar?]
  have ht := tokensFrom_of_cuts hg hl 0
  have hnil (n : Nat) : tokensFrom n [] = [] := tokensFrom_of_gap rfl n
  simpa [tokenize, Quote.enclose, hnil] using ht

theorem decode?_enclose_double (body : List Char) :
    decode? (Quote.double.enclose body) = (doubleBytes? body).bind fun bs => String.fromUTF8? ⟨bs.toArray⟩ := by
  have hd : dropClosing '"' (body ++ ['"']) = body := by simp [dropClosing]
  simp [decode?, Quote.enclose, Quote.char, Quote.ofChar?, hd]

theorem decode?_enclose_single (body : List Char) :
    decode? (Quote.single.enclose body) = some (String.ofList (singleText body)) := by
  have hd : dropClosing '\'' (body ++ ['\'']) = body := by simp [dropClosing]
  simp [decode?, Quote.enclose, Quote.char, Quote.ofChar?, hd]

theorem simple?_of_isDigit {d : Char} (h : Digits.isDigit 8 d) : simple? d = none := by
  have hall : ∀ entry ∈ escapes, Digits.isDigit 8 entry.2 = false := by decide
  cases hs : simple? d with
  | none => rfl
  | some b =>
      have hm : d ∈ escapes.map Prod.snd := by
        unfold simple? at hs
        split at hs
        case h_10 => cases hs
        all_goals decide
      obtain ⟨entry, he, rfl⟩ := List.mem_map.1 hm
      simp [hall entry he] at h

theorem WritesByte.doubleBytes?_append {b : UInt8} {part : List Char} (h : WritesByte b part) (rest : List Char) :
    doubleBytes? (part ++ rest) = (doubleBytes? rest).map (b :: ·) := by
  cases h with
  | @hex d e h =>
      obtain ⟨hd, hv⟩ := Digits.isDigit_of_natural? h
      have hx : simple? 'x' = none ∧ Digits.isDigit 8 'x' = false := by decide
      have he : escape? 'x' (d :: e :: rest) = some ([b], 2) := by
        simp [escape?, hx, hd d, hd e, hv]
      simpa using doubleBytes?_escape he
  | @octal d e f h =>
      obtain ⟨hd, hv⟩ := Digits.isDigit_of_natural? h
      have he : escape? d (e :: f :: rest) = some ([b], 2) := by
        simp [escape?, simple?_of_isDigit (hd d (.head _)), hd d, hd e, hd f, hv]
      simpa using doubleBytes?_escape he

theorem doubleBytes?_bytes {bs : List UInt8} {parts : List (List Char)} (h : List.Forall₂ WritesByte bs parts)
    (rest : List Char) : doubleBytes? (parts.flatten ++ rest) = (doubleBytes? rest).map (bs ++ ·) := by
  induction h with
  | nil => simp
  | cons hb _ ih =>
      rw [List.flatten_cons, List.append_assoc, hb.doubleBytes?_append, ih, Option.map_map]
      rfl

theorem char?_toNat (c : Char) : char? c.toNat = some c := by
  have hv : c.toNat.isValidChar := c.valid
  rw [char?, dif_pos hv]
  rfl

theorem word32?_of_natural? {ds : List Char} {c : Char} (h : Digits.natural? 16 ds = some c.toNat) :
    Digits.word32? 16 ds = some c.toNat := by
  have hlt : c.toNat < 0x100000000 := c.val.toNat_lt
  cases ds with
  | nil => cases h
  | cons d ds =>
      have hd := (Digits.isDigit_of_natural? h).1 d (.head _)
      have hplus : d ≠ '+' := Digits.ne_of_isDigit hd (by decide)
      unfold Digits.word32?
      split
      · rename_i rest he
        exact absurd (List.cons_eq_cons.1 he).1 hplus
      · simp only [h, Option.filter_some, decide_eq_true hlt, if_true]

theorem codePoint?_append {ds : List Char} {c : Char} (h : Digits.natural? 16 ds = some c.toNat) (rest : List Char) :
    codePoint? (ds ++ '}' :: rest) = some (bytes c, ds.length + 2) := by
  have hd := (Digits.isDigit_of_natural? h).1
  have hhex : (ds ++ '}' :: rest).takeWhile (· != '}') = ds := by
    rw [List.takeWhile_append_of_pos]
    · simp
    · intro d hm
      simpa using Digits.ne_of_isDigit (hd d hm) (c := '}') (by decide)
  simp [codePoint?, hhex, word32?_of_natural? h, char?_toNat]

theorem escapes_bytes : ∀ entry ∈ escapes, ∃ b, simple? entry.2 = some b ∧ bytes entry.1 = [b] := by
  simp only [escapes, List.mem_cons, List.not_mem_nil, or_false]
  rintro entry (rfl | rfl | rfl | rfl | rfl | rfl | rfl | rfl | rfl) <;> exact ⟨_, rfl, by decide⟩

theorem WritesChar.doubleBytes?_append {c : Char} {part : List Char} (h : WritesChar c part) (rest : List Char) :
    doubleBytes? (part ++ rest) = (doubleBytes? rest).map (Quoted.bytes c ++ ·) := by
  cases h with
  | raw hb _ => exact doubleBytes?_of_ne hb rest
  | @escape d h =>
      obtain ⟨b, hs, hb⟩ := escapes_bytes _ h
      have he : escape? d rest = some ([b], 0) := by simp [escape?, hs]
      rw [hb]
      exact doubleBytes?_escape he
  | @codePoint ds h =>
      have hu : simple? 'u' = none ∧ Digits.isDigit 8 'u' = false := by decide
      have he : escape? 'u' ('{' :: ds ++ '}' :: rest) = some (Quoted.bytes c, ds.length + 2) := by
        simp [escape?, hu, codePoint?_append h]
      simpa using doubleBytes?_escape he
  | bytes h => exact doubleBytes?_bytes h rest

theorem doubleBytes?_spelled {cs : List Char} {parts : List (List Char)} (h : List.Forall₂ WritesChar cs parts) :
    doubleBytes? parts.flatten = some (cs.flatMap bytes) := by
  induction h with
  | nil => simp [doubleBytes?]
  | cons hc _ ih => simp [hc.doubleBytes?_append, ih]

theorem enclosable_digits {base : Nat} {ds : List Char} (h : ∀ d ∈ ds, Digits.isDigit base d) : Enclosable '"' ds := by
  induction ds with
  | nil => exact .nil
  | cons d ds ih =>
      have hd := h d (.head _)
      exact .plain (Digits.ne_of_isDigit hd (by decide)) (Digits.ne_of_isDigit hd (by decide)) (ih fun e he => h e (.tail d he))

theorem WritesByte.enclosable {b : UInt8} {part : List Char} (h : WritesByte b part) : Enclosable '"' part := by
  cases h with
  | hex h => exact .escaped 'x' (enclosable_digits (Digits.isDigit_of_natural? h).1)
  | @octal d e f h => exact .escaped d (enclosable_digits fun c hc => (Digits.isDigit_of_natural? h).1 c (.tail d hc))

theorem WritesChar.enclosable {c : Char} {part : List Char} (h : WritesChar c part) : Enclosable '"' part := by
  cases h with
  | raw hb hq => exact .plain hb hq .nil
  | escape h => exact .escaped _ .nil
  | codePoint h =>
      have hclose : Enclosable '"' ['}'] := .plain (by decide) (by decide) .nil
      exact .escaped 'u' (.plain (by decide) (by decide) ((enclosable_digits (Digits.isDigit_of_natural? h).1).append hclose))
  | bytes h => exact enclosable_flatten (fun _ _ hb => hb.enclosable) h

theorem singleText_written (cs : List Char) : singleText (cs.flatMap writtenSingle) = cs := by
  induction cs with
  | nil => rfl
  | cons c cs ih =>
      rw [List.flatMap_cons, writtenSingle]
      split
      · rename_i hc
        rcases hc with rfl | rfl <;> simp [singleText, ih]
      · rename_i hc
        rw [not_or] at hc
        simp [singleText, hc, ih]

theorem enclosable_written (cs : List Char) : Enclosable '\'' (cs.flatMap writtenSingle) := by
  induction cs with
  | nil => exact .nil
  | cons c cs ih =>
      rw [List.flatMap_cons, writtenSingle]
      split
      · exact .escaped c ih
      · rename_i hc
        rw [not_or] at hc
        exact .plain hc.1 hc.2 ih

/-- However a string is written between quotes, its text is one token, and it is read as the string. -/
theorem standsFor_spelled (s : String) :
    (∀ parts, List.Forall₂ WritesChar s.toList parts → StandsFor .double (Quote.double.enclose parts.flatten) s) ∧
      StandsFor .single (Quote.single.enclose (s.toList.flatMap writtenSingle)) s := by
  constructor
  · intro parts h
    refine ⟨tokenize_enclose .double (enclosable_flatten (fun _ _ hc => hc.enclosable) h), ?_⟩
    rw [decode?_enclose_double, doubleBytes?_spelled h]
    exact (fromUTF8?_bytes s.toList).trans (by rw [String.ofList_toList])
  · refine ⟨tokenize_enclose .single (enclosable_written s.toList), ?_⟩
    rw [decode?_enclose_single, singleText_written, String.ofList_toList]

theorem standsFor_spelled_mixed :
    ∃ parts, List.Forall₂ WritesChar "é1€\n".toList parts ∧
      parts.flatten = "\\xC3\\2511\\u{0020aC}\\n".toList ∧
      StandsFor .double "\"\\xC3\\2511\\u{0020aC}\\n\"" "é1€\n" := by
  have hc3 : WritesByte 0xc3 ['\\', 'x', 'C', '3'] := .hex (by decide)
  have ha9 : WritesByte 0xa9 ['\\', '2', '5', '1'] := .octal (by decide)
  have hsplit : bytes 'é' = [0xc3, 0xa9] := by decide
  have hbytes : WritesChar 'é' [['\\', 'x', 'C', '3'], ['\\', '2', '5', '1']].flatten :=
    .bytes (hsplit ▸ .cons hc3 (.cons ha9 .nil))
  have hdigit : WritesChar '1' ['1'] := .raw (by decide) (by decide)
  have hcode : WritesChar '€' ['\\', 'u', '{', '0', '0', '2', '0', 'a', 'C', '}'] :=
    @WritesChar.codePoint '€' ['0', '0', '2', '0', 'a', 'C'] (by decide)
  have hbreak : WritesChar '\n' ['\\', 'n'] := .escape (by decide)
  have hs : "é1€\n".toList = ['é', '1', '€', '\n'] := by decide
  have hchars := List.Forall₂.cons hbytes (.cons hdigit (.cons hcode (.cons hbreak .nil)))
  obtain ⟨parts, hparts, hflat⟩ : ∃ parts, List.Forall₂ WritesChar "é1€\n".toList parts ∧
      parts.flatten = "\\xC3\\2511\\u{0020aC}\\n".toList := by
    rw [hs]
    exact ⟨_, hchars, by decide⟩
  have htext : Quote.double.enclose "\\xC3\\2511\\u{0020aC}\\n".toList =
      "\"\\xC3\\2511\\u{0020aC}\\n\"" := by decide
  refine ⟨parts, hparts, hflat, ?_⟩
  rw [← htext, ← hflat]
  exact (standsFor_spelled "é1€\n").1 parts hparts

end Quoted

end PhpTranspiler
