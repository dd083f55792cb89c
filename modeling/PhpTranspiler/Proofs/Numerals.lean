import PhpTranspiler.Proofs.Integers

namespace PhpTranspiler

theorem Char.toNat_toLower (c : Char) :
    c.toLower.toNat = if 65 ≤ c.toNat ∧ c.toNat ≤ 90 then c.toNat + 32 else c.toNat := by
  have hbounds : (c.val ≥ 'A'.val ∧ c.val ≤ 'Z'.val) ↔ 65 ≤ c.toNat ∧ c.toNat ≤ 90 := by
    rw [ge_iff_le, UInt32.le_iff_toNat_le, UInt32.le_iff_toNat_le]
    rfl
  rw [Char.toLower]
  split
  · rename_i h
    have hlt := (hbounds.1 h).2
    have hadd : (c.val + 32).toNat = (c.toNat + 32) % 4294967296 := UInt32.toNat_add c.val 32
    rw [if_pos (hbounds.1 h)]
    exact hadd.trans (Nat.mod_eq_of_lt (by omega))
  · rename_i h
    rw [if_neg (mt hbounds.2 h)]

namespace Digits

theorem digit_eq (c : Char) :
    digit c = if 48 ≤ c.toNat ∧ c.toNat ≤ 57 then some (c.toNat - 48)
      else if 97 ≤ c.toNat ∧ c.toNat ≤ 102 then some (c.toNat - 97 + 10)
      else if 65 ≤ c.toNat ∧ c.toNat ≤ 70 then some (c.toNat - 65 + 10) else none := rfl

theorem digit_toLower (c : Char) : digit c.toLower = digit c := by
  rw [digit_eq, digit_eq, Char.toNat_toLower]
  grind

theorem natural?_toLower (base : Nat) (cs : List Char) : natural? base (cs.map Char.toLower) = natural? base cs := by
  have hd (c : Char) : isDigit base c.toLower = isDigit base c := by rw [isDigit, digit_toLower, isDigit]
  simp only [natural?, value, List.foldl_map, digit_toLower, List.all_map, Function.comp_def, hd, ne_eq,
    List.map_eq_nil_iff]

theorem signed64?_of_unsigned {base : Nat} {cs : List Char} (h : ∀ c ∈ cs, c ≠ '+' ∧ c ≠ '-') :
    signed64? base cs = ((natural? base cs).filter (· < 2 ^ 63)).map fun n : Nat => (n : Int) := by
  unfold signed64?
  split
  · exact absurd rfl (h '-' (.head _)).2
  · exact absurd rfl (h '+' (.head _)).1
  · cases (natural? base cs).filter (· < 0x8000000000000000) <;> rfl

end Digits

namespace Numeral

open Script

def compact (cs : List Char) : List Char := cs.filter (· != '_')

def baseMarks : List (Char × Nat) := [('x', 16), ('X', 16), ('b', 2), ('B', 2), ('o', 8), ('O', 8)]

def IsOctal (cs : List Char) : Prop :=
  ∃ body, cs = '0' :: body ∧ compact body ≠ [] ∧ ∀ c ∈ compact body, c.isDigit

/-- The numeral `cs` claims a base for the characters `ds`, with underscores anywhere among them. -/
inductive Claims : Nat → List Char → List Char → Prop
  | mark {mark : Char} {base : Nat} (h : (mark, base) ∈ baseMarks) (body : List Char) :
      Claims base (compact body) ('0' :: mark :: body)
  | octal {body : List Char} (h : IsOctal ('0' :: body)) : Claims 8 (compact body) ('0' :: body)

/-- The spellings of a natural number: its decimal form, and its digits in the base that a numeral claims, after any
number of zeros. -/
inductive Spells (n : Nat) (cs : List Char) : Prop
  | decimal (h : compact cs = Nat.toDigits 10 n)
  | based {base : Nat} {ds : List Char} (hc : Claims base ds cs) (h : Digits.natural? base ds = some n)

inductive Negated (cs : List Char) : Nat → List Char → Prop
  | numeral : Negated cs 0 cs
  | minus {k : Nat} {blanks text : List Char} (hb : ∀ b ∈ blanks, Text.isBlank b) (h : Negated cs k text) :
      Negated cs (k + 1) ('-' :: blanks ++ text)

theorem natAbs_negated (k n : Nat) : ((-1) ^ k * (n : Int)).natAbs = n := by
  rw [Int.natAbs_mul, Int.natAbs_pow, Int.natAbs_neg, Int.natAbs_one, Nat.one_pow, Nat.one_mul, Int.natAbs_natCast]

theorem IsOctal.digits {body : List Char} (h : IsOctal ('0' :: body)) :
    compact body ≠ [] ∧ ∀ c ∈ compact body, c.isDigit := by
  obtain ⟨_, he, hn, hd⟩ := h
  cases he
  exact ⟨hn, hd⟩

theorem Claims.magnitude?_eq {base : Nat} {ds cs : List Char} (h : Claims base ds cs) :
    magnitude? ((compact cs).map Char.toLower) = inBase? base (ds.map Char.toLower) := by
  cases h with
  | mark h body =>
      simp only [baseMarks, List.mem_cons, Prod.mk.injEq, List.not_mem_nil, or_false] at h
      rcases h with ⟨rfl, rfl⟩ | ⟨rfl, rfl⟩ | ⟨rfl, rfl⟩ | ⟨rfl, rfl⟩ | ⟨rfl, rfl⟩ | ⟨rfl, rfl⟩ <;> rfl
  | @octal body h =>
      obtain ⟨hn, hd⟩ := h.digits
      have hlower := map_toLower_of_digits hd
      have hcompact : (compact ('0' :: body)).map Char.toLower = '0' :: compact body := by
        rw [← hlower]
        rfl
      rw [hcompact, hlower]
      have hall : 1 < ('0' :: compact body).length ∧ ('0' :: compact body).head? = some '0' ∧
          ('0' :: compact body).all Char.isDigit := by
        refine ⟨?_, rfl, List.all_eq_true.2 (List.forall_mem_cons.2 ⟨rfl, hd⟩)⟩
        have hpos := List.length_pos_iff.2 hn
        rw [List.length_cons]
        omega
      unfold magnitude?
      split
      · rename_i he
        exact absurd (hd 'x' (by simp [(List.cons_eq_cons.1 he).2])) (by decide)
      · rename_i he
        exact absurd (hd 'b' (by simp [(List.cons_eq_cons.1 he).2])) (by decide)
      · rename_i he
        exact absurd (hd 'o' (by simp [(List.cons_eq_cons.1 he).2])) (by decide)
      · rw [if_pos hall, List.tail_cons]

theorem inBase?_toLower {base : Nat} {ds : List Char} (h : ∀ c ∈ ds, c ≠ '+' ∧ c ≠ '-') :
    inBase? base (ds.map Char.toLower) = ((Digits.natural? base ds).filter (· < 2 ^ 63)).map fun n : Nat => .ofInt n := by
  have hsign : ∀ c ∈ ds.map Char.toLower, c ≠ '+' ∧ c ≠ '-' := by
    intro c hc
    obtain ⟨d, hd, rfl⟩ := List.mem_map.1 hc
    have hnat := Char.toNat_toLower d
    have hplus := mt Char.toNat_inj.1 (h d hd).1
    have hminus := mt Char.toNat_inj.1 (h d hd).2
    have hvals : '+'.toNat = 43 ∧ '-'.toNat = 45 := by decide
    simp only [ne_eq, ← Char.toNat_inj, hvals] at hplus hminus ⊢
    split at hnat <;> omega
  rw [inBase?, Digits.signed64?_of_unsigned hsign, Digits.natural?_toLower, Option.map_map]
  rfl

theorem Claims.head_isDigit {base : Nat} {ds cs : List Char} (h : Claims base ds cs) :
    (compact cs).head?.any Char.isDigit := by
  cases h <;> rfl

theorem Spells.head_isDigit {n : Nat} {cs : List Char} (h : Spells n cs) : (compact cs).head?.any Char.isDigit := by
  cases h with
  | decimal h =>
      rw [h]
      cases hd : Nat.toDigits 10 n with
      | nil => exact absurd hd Nat.toDigits_ne_nil
      | cons c ds => exact Digits.isDigit_toDigits c (by rw [hd]; exact .head _)
  | based hc _ => exact hc.head_isDigit

theorem not_sign_of_natural? {base n : Nat} {ds : List Char} (h : Digits.natural? base ds = some n) :
    ∀ c ∈ ds, c ≠ '+' ∧ c ≠ '-' := by
  intro c hc
  have hd := (Digits.isDigit_of_natural? h).1 c hc
  exact ⟨Digits.ne_of_isDigit hd (by decide), Digits.ne_of_isDigit hd (by decide)⟩

theorem Spells.magnitude?_eq {n : Nat} {cs : List Char} (h : Spells n cs) (hn : n < 10 ^ 15) :
    magnitude? ((compact cs).map Char.toLower) = some (.ofInt n) := by
  cases h with
  | decimal h =>
      rw [h, map_toLower_of_digits Digits.isDigit_toDigits, magnitude?_toDigits hn]
      simp [Binary64.ofInt]
  | based hc h =>
      have hlt : n < 2 ^ 63 := by omega
      rw [hc.magnitude?_eq, inBase?_toLower (not_sign_of_natural? h), h, Option.filter_some,
        if_pos (decide_eq_true hlt), Option.map_some]

theorem read?_negated {cs text : List Char} {k : Nat} (hs : Negated cs k text) (hk : k ≤ 1)
    (hd : (compact cs).head?.any Char.isDigit) :
    read? (String.ofList text) =
      (magnitude? ((compact cs).map Char.toLower)).map fun x => if k = 1 then x.neg else x := by
  obtain ⟨c, ds, hcs, hc⟩ : ∃ c ds, compact cs = c :: ds ∧ c.isDigit := by
    cases he : compact cs with
    | nil => simp [he] at hd
    | cons c ds => exact ⟨c, ds, rfl, by simpa [he] using hd⟩
  cases hs with
  | numeral =>
      have hminus : c ≠ '-' := by
        rintro rfl
        cases hc
      have hfilter : cs.filter (· != '_') = c :: ds := hcs
      simp only [read?, String.toList_ofList, hfilter, hcs]
      split
      · rename_i he
        exact absurd (List.cons_eq_cons.1 he).1 hminus
      · simp
  | @minus k blanks text hb h =>
      have hk0 : k = 0 := by omega
      subst hk0
      cases h
      have hblanks : blanks.filter (· != '_') = blanks := by
        rw [List.filter_eq_self]
        intro b hm
        rw [bne_iff_ne]
        rintro rfl
        cases hb '_' hm
      have hfilter : ('-' :: blanks ++ cs).filter (· != '_') = '-' :: (blanks ++ c :: ds) := by
        rw [List.filter_append, List.filter_cons_of_pos (by decide), hblanks, ← hcs]
        rfl
      have htrim : Text.trimStart (blanks ++ c :: ds) = c :: ds := by
        have hink : ¬Text.isBlank c := by
          intro hb
          rw [Text.not_isDigit_of_isBlank hb] at hc
          cases hc
        rw [Text.trimStart, List.dropWhile_append_of_pos hb, List.dropWhile_cons_of_neg hink]
      simp only [read?, String.toList_ofList, hfilter, htrim, hcs, Nat.zero_add, if_true]

theorem Spells.read?_eq {k n : Nat} {cs text : List Char} (h : Spells n cs) (hn : n < 10 ^ 15) (hs : Negated cs k text)
    (hk : k ≤ 1) : ∃ x, read? (String.ofList text) = some x ∧ x.Denotes ((-1) ^ k * n) := by
  have hx : (Binary64.ofInt n).Denotes n := Binary64.denotes_ofInt (by rw [Int.natAbs_natCast]; omega)
  rw [read?_negated hs hk h.head_isDigit, h.magnitude?_eq hn]
  obtain rfl | rfl := Nat.le_one_iff_eq_zero_or_eq_one.1 hk
  · exact ⟨_, rfl, by rwa [pow_zero, one_mul]⟩
  · refine ⟨_, rfl, ?_⟩
    rw [pow_one, neg_one_mul]
    exact hx.neg (by rw [Int.natAbs_natCast]; omega)

theorem Claims.read?_eq_none {base k : Nat} {ds cs text : List Char} (h : Claims base ds cs)
    (hsign : ∀ c ∈ ds, c ≠ '+' ∧ c ≠ '-')
    (hbad : ds = [] ∨ (∃ c ∈ ds, Digits.isDigit base c = false) ∨ 2 ^ 63 ≤ Digits.value base ds)
    (hs : Negated cs k text) (hk : k ≤ 1) : read? (String.ofList text) = none := by
  have hnone : (Digits.natural? base ds).filter (· < 2 ^ 63) = none := by
    rw [Digits.natural?]
    split
    · rename_i hd
      rcases hbad with he | ⟨c, hc, hn⟩ | hle
      · exact absurd he hd.1
      · rw [List.all_eq_true.1 hd.2 c hc] at hn
        cases hn
      · rw [Option.filter_some, if_neg]
        simpa using hle
    · rfl
  rw [read?_negated hs hk h.head_isDigit, h.magnitude?_eq, inBase?_toLower hsign, hnone]
  rfl

theorem ofScalar_of_denotes {text : List Char} {x : Binary64} {i : Int} (hr : read? (String.ofList text) = some x)
    (h : x.Denotes i) (hi : i.natAbs < 10 ^ 15) :
    Literal.ofScalar (.number (String.ofList text)) = .ok ⟨.number x, i.repr⟩ := by
  rw [Literal.ofScalar_number hr (h.isFinite (by omega)), numberText_of_denotes h hi]

/-- An integer below `10 ^ 15` is read from each of its spellings, it is written in one way, and it is read again from
there. A numeral that claims a base and has other characters than digits of it, none at all, or a value out of range is
not read. -/
theorem spellings_agree :
    (∀ n cs k text, Spells n cs → n < 10 ^ 15 → Negated cs k text → k ≤ 1 →
      ∃ x, read? (String.ofList text) = some x ∧ x.Denotes ((-1) ^ k * n) ∧
        Literal.ofScalar (.number (String.ofList text)) = .ok ⟨.number x, ((-1) ^ k * n : Int).repr⟩ ∧
        ∃ y, read? ((-1) ^ k * n : Int).repr = some y ∧ x.Equals y) ∧
    ∀ base ds cs k text, Claims base ds cs → (∀ c ∈ ds, c ≠ '+' ∧ c ≠ '-') →
      ds = [] ∨ (∃ c ∈ ds, Digits.isDigit base c = false) ∨ 2 ^ 63 ≤ Digits.value base ds →
      Negated cs k text → k ≤ 1 →
      read? (String.ofList text) = none ∧
        Literal.ofScalar (.number (String.ofList text)) = .error (.number (String.ofList text)) := by
  constructor
  · intro n cs k text h hn hs hk
    have hi : ((-1) ^ k * (n : Int)).natAbs < 10 ^ 15 := by rwa [natAbs_negated]
    obtain ⟨x, hx, hd⟩ := h.read?_eq hn hs hk
    exact ⟨x, hx, hd, ofScalar_of_denotes hx hd hi, _, read?_repr hi, hd.equals (by omega)⟩
  · intro base ds cs k text h hsign hbad hs hk
    have hr := h.read?_eq_none hsign hbad hs hk
    exact ⟨hr, Literal.ofScalar_of_none (by rw [hr, Option.filter_none])⟩

theorem spellings_agree_marked :
    (∃ x, read? "- 0xfF_0" = some x ∧ x.Denotes (-4080) ∧
      Literal.ofScalar (.number "- 0xfF_0") = .ok ⟨.number x, "-4080"⟩ ∧
      ∃ y, read? "-4080" = some y ∧ x.Equals y) ∧
    read? "089" = none ∧ Literal.ofScalar (.number "089") = .error (.number "089") := by
  have hex : Claims 16 ['f', 'F', '0'] ['0', 'x', 'f', 'F', '_', '0'] := .mark (by decide) ['f', 'F', '_', '0']
  have minus : Negated ['0', 'x', 'f', 'F', '_', '0'] 1 ['-', ' ', '0', 'x', 'f', 'F', '_', '0'] :=
    .minus (List.forall_mem_singleton.2 rfl) .numeral
  have octal : Claims 8 ['8', '9'] ['0', '8', '9'] := .octal ⟨['8', '9'], rfl, by decide, List.all_eq_true.1 rfl⟩
  exact ⟨spellings_agree.1 4080 _ 1 _ (.based hex rfl) (by omega) minus (by omega),
    spellings_agree.2 8 _ _ 0 _ octal (by simp) (.inr (.inl ⟨'8', .head _, rfl⟩)) .numeral (by omega)⟩

end Numeral

end PhpTranspiler
