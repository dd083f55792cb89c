import PhpTranspiler.Proofs.Escapes

namespace PhpTranspiler.Script

open Lexer

def utf16 (n : Nat) : List Nat :=
  if n < 0x10000 then [n] else [0xd800 + (n - 0x10000) / 0x400, 0xdc00 + (n - 0x10000) % 0x400]

def units (s : String) : List Nat := s.toList.flatMap fun c => utf16 c.toNat

theorem utf16_append_inj {c d : Char} {us vs : List Nat} (h : utf16 c.toNat ++ us = utf16 d.toNat ++ vs) :
    c = d ∧ us = vs := by
  -- The first unit of a pair is a value that no character has.
  have hc : c.toNat < 0xd800 ∨ 0xdfff < c.toNat ∧ c.toNat < 0x110000 := c.valid
  have hd : d.toNat < 0xd800 ∨ 0xdfff < d.toNat ∧ d.toNat < 0x110000 := d.valid
  rw [← Char.toNat_inj]
  simp only [utf16] at h
  split at h <;> split at h <;> simp only [List.cons_append, List.nil_append, List.cons.injEq] at h
  · exact h
  · omega
  · omega
  · exact ⟨by omega, h.2.2⟩

theorem units_injective {s t : String} (h : units s = units t) : s = t := by
  have hn (c : Char) : utf16 c.toNat ≠ [] := by
    rw [utf16]
    split <;> simp
  have hinj (cs ds : List Char) (h : cs.flatMap (fun c => utf16 c.toNat) = ds.flatMap fun c => utf16 c.toNat) :
      cs = ds := by
    induction cs generalizing ds with
    | nil =>
        cases ds with
        | nil => rfl
        | cons d ds => exact absurd (List.append_eq_nil_iff.1 h.symm).1 (hn d)
    | cons c cs ih =>
        cases ds with
        | nil => exact absurd (List.append_eq_nil_iff.1 h).1 (hn c)
        | cons d ds =>
            rw [List.flatMap_cons, List.flatMap_cons] at h
            obtain ⟨rfl, hrest⟩ := utf16_append_inj h
            rw [ih ds hrest]
  rw [← String.toList_inj]
  exact hinj s.toList t.toList h

namespace StringLiteral

def simple? (c : Char) : Option Nat :=
  match c with
  | '\'' => some 0x27
  | '"' => some 0x22
  | '\\' => some 0x5c
  | 'b' => some 0x08
  | 'f' => some 0x0c
  | 'n' => some 0x0a
  | 'r' => some 0x0d
  | 't' => some 0x09
  | 'v' => some 0x0b
  | _ => none

def hex? (n : Nat) (cs : List Char) : Option Nat := if n ≤ cs.length then Digits.natural? 16 (cs.take n) else none

def codePoint? (cs : List Char) : Option (List Nat × Nat) :=
  let ds := cs.takeWhile (· != '}')
  if ds.length = cs.length then none
  else ((Digits.natural? 16 ds).filter (· < 0x110000)).map fun n => (utf16 n, ds.length + 2)

/-- The code units of the escape that starts with a backslash and `c`, and the number of characters of `cs` that belong
to it. A digit is an escape only if it is a zero that no digit follows, and the end of a line stands for nothing. -/
def escape? (c : Char) (cs : List Char) : Option (List Nat × Nat) :=
  match simple? c with
  | some unit => some ([unit], 0)
  | none =>
    if c = 'u' then
      if cs.head? = some '{' then codePoint? cs.tail else (hex? 4 cs).map fun unit => ([unit], 4)
    else if c = 'x' then (hex? 2 cs).map fun unit => ([unit], 2)
    else if c.isDigit then if c = '0' ∧ !cs.head?.any Char.isDigit then some ([0], 0) else none
    else if c = '\r' ∧ cs.head? = some '\n' then some ([], 1)
    else if c = '\n' ∨ c = '\r' ∨ c = '\u2028' ∨ c = '\u2029' then some ([], 0)
    else some (utf16 c.toNat, 0)

/-- The code units that the characters between two double quotes stand for in JavaScript, in strict code. There are none
if a quote, the end of a line or a lone backslash stands among them. -/
def units? : List Char → Option (List Nat)
  | [] => some []
  | c :: cs =>
    if c = '\\' then
      match cs with
      | [] => none
      | d :: rest =>
        match escape? d rest with
        | none => none
        | some (us, n) => (units? (rest.drop n)).map (us ++ ·)
    else if c = '"' ∨ c = '\n' ∨ c = '\r' then none
    else (units? cs).map (utf16 c.toNat ++ ·)
termination_by cs => cs.length
decreasing_by all_goals simp +arith

def read? (raw : String) : Option (List Nat) :=
  match raw.toList with
  | '"' :: cs => if cs.getLast? = some '"' then units? cs.dropLast else none
  | _ => none

theorem units?_escape {c : Char} {cs : List Char} {us : List Nat} {n : Nat} (h : escape? c cs = some (us, n)) :
    units? ('\\' :: c :: cs) = (units? (cs.drop n)).map (us ++ ·) := by
  rw [units?.eq_def]
  simp [h]

theorem units?_plain {c : Char} (hb : c ≠ '\\') (hq : c ≠ '"') (hl : c ≠ '\n' ∧ c ≠ '\r') (cs : List Char) :
    units? (c :: cs) = (units? cs).map (utf16 c.toNat ++ ·) := by
  rw [units?.eq_def]
  simp [hb, hq, hl]

theorem simple?_of_named {c d : Char} (h : (c, d) ∈ namedEscapes) : simple? d = some c.toNat := by
  have hall : ∀ entry ∈ namedEscapes, simple? entry.2 = some entry.1.toNat := by decide
  exact hall (c, d) h

theorem hex_control {n : Nat} (h : n < 160) :
    (Digits.hex 4 n).length = 4 ∧ Digits.natural? 16 (Digits.hex 4 n) = some n ∧
      ∀ d ∈ Digits.hex 4 n, isControl d = false := by
  have hall : ∀ n < 160, (Digits.hex 4 n).length = 4 ∧ Digits.natural? 16 (Digits.hex 4 n) = some n ∧
      (Digits.hex 4 n).all (!isControl ·) = true := by decide +kernel
  simpa using hall n h

/-- Whatever follows, also more digits, an escape by code ends with its fourth digit. -/
theorem escape?_hex {n : Nat} (h : n < 160) (cs : List Char) :
    escape? 'u' (Digits.hex 4 n ++ cs) = some (utf16 n, 4) := by
  obtain ⟨hlength, hvalue, _⟩ := hex_control h
  have hhead : (Digits.hex 4 n ++ cs).head? = some '0' := by
    rw [List.head?_append, (hex_plain n h).1]
    rfl
  have htake : (Digits.hex 4 n ++ cs).take 4 = Digits.hex 4 n := List.take_left' hlength
  have hunit : utf16 n = [n] := if_pos (by omega)
  have hu : simple? 'u' = none := rfl
  simp [escape?, hu, hhead, hex?, htake, hvalue, hlength, hunit]

theorem units?_append (c : Char) (cs : List Char) :
    units? (escape c ++ cs) = (units? cs).map (utf16 c.toNat ++ ·) := by
  rcases escape_forms c with ⟨d, hm, he⟩ | ⟨hc, hb, hq, he⟩ | ⟨hc, _, he⟩
  · have hunit : utf16 c.toNat = [c.toNat] := by
      have hall : ∀ entry ∈ namedEscapes, utf16 entry.1.toNat = [entry.1.toNat] := by decide
      exact hall (c, d) hm
    have hd : escape? d cs = some (utf16 c.toNat, 0) := by simp [escape?, simple?_of_named hm, hunit]
    rw [he]
    exact units?_escape hd
  · have hl : c ≠ '\n' ∧ c ≠ '\r' := by constructor <;> (rintro rfl; exact absurd hc (by decide))
    rw [he]
    exact units?_plain hb hq hl cs
  · have hlt := toNat_lt_of_isControl hc
    rw [he, List.cons_append, List.cons_append, units?_escape (escape?_hex hlt cs),
      List.drop_left' (hex_control hlt).1]

theorem units?_escapes (cs : List Char) :
    units? (cs.flatMap escape) = some (cs.flatMap fun c => utf16 c.toNat) := by
  induction cs with
  | nil => simp [units?]
  | cons c cs ih =>
      rw [List.flatMap_cons, units?_append, ih]
      simp

theorem read?_enclose (body : List Char) : read? (Quote.double.enclose body) = units? body := by
  simp [read?, Quote.enclose, Quote.char]

end StringLiteral

theorem isControl_escape (c : Char) : ∀ d ∈ escape c, isControl d = false := by
  rcases escape_forms c with ⟨d, hm, he⟩ | ⟨hc, _, _, he⟩ | ⟨hc, _, he⟩
  · have hall : ∀ entry ∈ namedEscapes, isControl entry.2 = false := by decide
    rw [he]
    simpa using ⟨by decide, hall (c, d) hm⟩
  · rw [he]
    simpa using hc
  · rw [he]
    simpa using ⟨by decide, by decide, (StringLiteral.hex_control (toNat_lt_of_isControl hc)).2.2⟩

theorem quote_eq_enclose (s : String) : quote s = Quote.double.enclose (s.toList.flatMap escape) := rfl

/-- A string is written as one closed literal without control characters, which stands for it in JavaScript, and no
other string is written so. -/
theorem Literal.string_faithful (s : String) :
    ∃ raw body, ofScalar (.text s) = .ok ⟨.text s, raw⟩ ∧ raw = Quote.double.enclose body ∧
      Enclosable '"' body ∧ (∀ c ∈ body, isControl c = false) ∧
      StringLiteral.read? raw = some (units s) ∧ tokenize raw = [⟨"", 0, .quoted .double true, raw⟩] ∧
      ∀ t, (ofScalar (.text t)).map Literal.raw = .ok raw ↔ t = s := by
  have hread (t : String) : StringLiteral.read? (quote t) = some (units t) := by
    rw [quote_eq_enclose, StringLiteral.read?_enclose, StringLiteral.units?_escapes, units]
  refine ⟨quote s, s.toList.flatMap escape, rfl, rfl, enclosable_escapes _, ?_, hread s,
    Quoted.tokenize_enclose .double (enclosable_escapes _), fun t => ⟨fun ht => ?_, ?_⟩⟩
  · intro c hc
    obtain ⟨d, _, hd⟩ := List.mem_flatMap.1 hc
    exact isControl_escape d c hd
  · have hraw : quote t = quote s := Except.ok.inj ht
    have hunits : some (units t) = some (units s) := by rw [← hread t, ← hread s, hraw]
    exact units_injective (Option.some.inj hunits)
  · rintro rfl
    rfl

end PhpTranspiler.Script
