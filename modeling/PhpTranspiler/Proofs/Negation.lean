import PhpTranspiler.Proofs.Numerals
import PhpTranspiler.Proofs.Rereading

namespace PhpTranspiler

namespace Digits

theorem value_concat (base : Nat) (cs : List Char) (c : Char) :
    value base (cs ++ [c]) = base * value base cs + (digit c).getD 0 := by
  rw [value, List.foldl_append]
  rfl

theorem value_octal {cs : List Char} (h : ∀ c ∈ cs, isDigit 8 c) :
    value 8 cs ≤ value 10 cs ∧ value 10 cs ≤ value 8 cs * value 8 cs ∧
      (value 10 cs = value 8 cs ↔ value 8 cs < 8) := by
  induction cs using List.reverseRecOn with
  | nil => decide
  | append_singleton cs c ih =>
      obtain ⟨hle, hsq, heq⟩ := ih fun d hd => h d (List.mem_append_left _ hd)
      obtain ⟨d, hd, hlt⟩ := (Option.any_eq_true _ _).1 (h c (by simp))
      rw [decide_eq_true_eq] at hlt
      rw [value_concat, value_concat, hd, Option.getD_some]
      generalize value 8 cs = m at *
      generalize value 10 cs = n at *
      refine ⟨by omega, ?_, by omega⟩
      have hdsq := Nat.le_mul_self d
      nlinarith

end Digits

namespace Numeral

open Script

theorem magnitude?_minus (cs : List Char) :
    magnitude? ('-' :: cs) = if cs.all isDecimalMark then decimal? ('-' :: cs) else none := by
  simp [magnitude?, isDecimalMark]

theorem magnitude?_minus_of_digits {cs : List Char} (hn : cs ≠ []) (h : ∀ c ∈ cs, c.isDigit) :
    magnitude? ('-' :: cs) = some ⟨true, (Decimal.mk (Digits.value 10 cs) 0).rank⟩ := by
  have hmark : cs.all isDecimalMark := by
    rw [List.all_eq_true]
    intro c hc
    simp [isDecimalMark, h c hc]
  rw [magnitude?_minus, if_pos hmark, decimal?, (Decimal.read?_of_digits hn h).2, Option.map_some]

theorem magnitude?_minus_minus (cs : List Char) : magnitude? ('-' :: '-' :: cs) = none := by
  have hdec : decimal? ('-' :: '-' :: cs) = none := by simp [decimal?, Decimal.read?]
  rw [magnitude?_minus, hdec, ite_self]

theorem read?_minus_minus (cs : List Char) :
    read? (String.ofList ('-' :: '-' :: cs)) = (magnitude? ('-' :: (compact cs).map Char.toLower)).map Binary64.neg := by
  have hfilter : ('-' :: '-' :: cs).filter (· != '_') = '-' :: '-' :: compact cs := rfl
  have htrim : Text.trimStart ('-' :: compact cs) = '-' :: compact cs := rfl
  simp only [read?, String.toList_ofList, hfilter, htrim]
  rfl

theorem not_isBlank_of_isDigit {base : Nat} {c : Char} (h : Digits.isDigit base c) : ¬Text.isBlank c := by
  intro hb
  refine Digits.ne_of_isDigit h ?_ rfl
  simp only [Text.isBlank, Bool.or_eq_true, Bool.and_eq_true, decide_eq_true_eq, beq_iff_eq] at hb
  rw [Digits.digit_eq, if_neg (by omega), if_neg (by omega), if_neg (by omega)]

theorem of_mem_baseMarks {mark : Char} {base : Nat} (h : (mark, base) ∈ baseMarks) :
    mark ≠ '_' ∧ ¬Text.isBlank mark ∧ mark.isDigit = false ∧ isDecimalMark mark.toLower = false := by
  have hall : ∀ entry ∈ baseMarks, entry.1 ≠ '_' ∧ ¬Text.isBlank entry.1 ∧ entry.1.isDigit = false ∧
      isDecimalMark entry.1.toLower = false := by decide
  exact hall _ h

theorem compact_mark {mark : Char} {base : Nat} (h : (mark, base) ∈ baseMarks) (body : List Char) :
    compact ('0' :: mark :: body) = '0' :: mark :: compact body := by
  simp [compact, (of_mem_baseMarks h).1]

theorem Claims.not_isBlank {base n : Nat} {ds cs : List Char} (hc : Claims base ds cs)
    (h : Digits.natural? base ds = some n) : ∀ c ∈ compact cs, ¬Text.isBlank c := by
  have hds : ∀ c ∈ ds, ¬Text.isBlank c := fun c hm => not_isBlank_of_isDigit ((Digits.isDigit_of_natural? h).1 c hm)
  cases hc with
  | @mark mark base hm body =>
      rw [compact_mark hm]
      exact List.forall_mem_cons.2 ⟨by decide, List.forall_mem_cons.2 ⟨(of_mem_baseMarks hm).2.1, hds⟩⟩
  | @octal body _ => exact List.forall_mem_cons.2 ⟨by decide, hds⟩

theorem Spells.not_isBlank {n : Nat} {cs : List Char} (h : Spells n cs) : ∀ c ∈ cs, ¬Text.isBlank c := by
  have hcompact : ∀ c ∈ compact cs, ¬Text.isBlank c := by
    cases h with
    | decimal h =>
        intro c hc hb
        rw [h] at hc
        have hd := Digits.isDigit_toDigits c hc
        rw [Text.not_isDigit_of_isBlank hb] at hd
        cases hd
    | based hc h => exact hc.not_isBlank h
  intro c hc
  by_cases hu : c = '_'
  · rw [hu]
    decide
  · exact hcompact c (List.mem_filter.2 ⟨hc, bne_iff_ne.2 hu⟩)

theorem Negated.squeeze {k : Nat} {cs text : List Char} (h : Negated cs k text) (hcs : ∀ c ∈ cs, ¬Text.isBlank c) :
    text.filter (!Text.isBlank ·) = List.replicate k '-' ++ cs := by
  induction h with
  | numeral => exact List.filter_eq_self.2 fun c hc => by simpa using hcs c hc
  | @minus k blanks text hb _ ih =>
      have hblanks : blanks.filter (!Text.isBlank ·) = [] := List.filter_eq_nil_iff.2 fun b hm => by simp [hb b hm]
      rw [List.filter_append, List.filter_cons_of_pos (by decide), hblanks, ih, List.replicate_succ]
      rfl

/-- A numeral in digits alone stands for the number that they are in base ten, unless they are octal ones. -/
theorem Spells.value_of_digits {n : Nat} {cs : List Char} (h : Spells n cs) (hd : ∀ c ∈ compact cs, c.isDigit) :
    Digits.value 10 (compact cs) ≤ n * n ∧ (Digits.value 10 (compact cs) = n ↔ ¬(8 ≤ n ∧ IsOctal cs)) := by
  cases h with
  | decimal h =>
      rw [h, Digits.value_toDigits]
      refine ⟨Nat.le_mul_self n, iff_of_true rfl ?_⟩
      rintro ⟨hn, body, rfl, _, _⟩
      apply Digits.head_toDigits (n := n) (by omega)
      rw [← h]
      rfl
  | based hc h =>
      cases hc with
      | @mark mark base hm body =>
          rw [compact_mark hm] at hd
          exact absurd (hd mark (.tail _ (.head _))) (by simp [of_mem_baseMarks hm])
      | @octal body ho =>
          obtain ⟨hoct, hv⟩ := Digits.isDigit_of_natural? h
          obtain ⟨_, hsq, heq⟩ := Digits.value_octal hoct
          have hzero : Digits.value 10 (compact ('0' :: body)) = Digits.value 10 (compact body) := rfl
          rw [hzero]
          rw [hv] at hsq heq
          refine ⟨hsq, heq.trans ?_⟩
          simp [ho]

theorem Spells.digits_or {n : Nat} {cs : List Char} (h : Spells n cs) :
    (∀ c ∈ compact cs, c.isDigit) ∨ magnitude? ('-' :: (compact cs).map Char.toLower) = none := by
  cases h with
  | decimal h =>
      rw [h]
      exact .inl Digits.isDigit_toDigits
  | based hc h =>
      cases hc with
      | @mark mark base hm body =>
          right
          rw [compact_mark hm, magnitude?_minus, if_neg]
          simp [of_mem_baseMarks hm]
      | @octal body ho => exact .inl (List.forall_mem_cons.2 ⟨rfl, ho.digits.2⟩)

theorem Spells.value_lt {n : Nat} {cs : List Char} (h : Spells n cs) (hn : n < 10 ^ 15)
    (hd : ∀ c ∈ compact cs, c.isDigit) : Digits.value 10 (compact cs) < 10 ^ 30 := by
  have hlt := Nat.mul_lt_mul'' hn hn
  have hle := (h.value_of_digits hd).1
  omega

/-- The minus that is left when one is taken off hides a leading zero. -/
theorem Spells.read?_twice {n : Nat} {cs : List Char} (h : Spells n cs) (hn : n < 10 ^ 15)
    (hd : ∀ c ∈ compact cs, c.isDigit) :
    read? (String.ofList ('-' :: '-' :: cs)) = some (.ofInt (Digits.value 10 (compact cs))) := by
  have hne : compact cs ≠ [] := by
    intro he
    have hhead := h.head_isDigit
    rw [he] at hhead
    cases hhead
  rw [read?_minus_minus, map_toLower_of_digits hd, magnitude?_minus_of_digits hne hd,
    Decimal.rank_of_lt (h.value_lt hn hd), Binary64.ofInt_natCast]
  rfl

theorem Spells.read?_minuses_eq_none {k n : Nat} {cs : List Char} (h : Spells n cs) (hk : 1 < k)
    (hno : ¬(k = 2 ∧ ∀ c ∈ compact cs, c.isDigit)) : read? (String.ofList (List.replicate k '-' ++ cs)) = none := by
  obtain ⟨k, rfl⟩ : ∃ j, k = j + 2 := ⟨k - 2, by omega⟩
  rw [List.replicate_succ, List.replicate_succ, List.cons_append, List.cons_append, read?_minus_minus]
  cases k with
  | zero =>
      rcases h.digits_or with hd | hnone
      · exact absurd ⟨rfl, hd⟩ hno
      · rw [List.replicate_zero, List.nil_append, hnone, Option.map_none]
  | succ k =>
      have hcompact : (compact (List.replicate (k + 1) '-' ++ cs)).map Char.toLower =
          '-' :: (compact (List.replicate k '-' ++ cs)).map Char.toLower := rfl
      rw [hcompact, magnitude?_minus_minus, Option.map_none]

end Numeral

namespace SyntaxTree

open Numeral Script

variable {source : String} {node : Node}

theorem scalar_of_unary {cs : List Char} (hkind : node.kind = "unary_op_expression")
    (hcs : (node.text source).toList.filter (!Text.isBlank ·) = cs) (hhead : cs.head? = some '-') (s : Scalar) :
    scalar source node = .ok s ↔ (read? (String.ofList cs)).isSome ∧ s = .number (String.ofList cs) := by
  rw [scalar, hkind]
  simp only [hcs, hhead, true_and]
  split
  · rename_i hr
    simp [hr, eq_comm]
  · rename_i hr
    simp [hr]

/-- A numeral behind minus signs is taken if there is one of them, or two and the numeral has no letter for its base.
What is taken stands for the number with all its signs, unless an octal numeral of more than one digit has two of them;
its digits are then read in base ten. -/
theorem scalar_negated {k n : Nat} {cs : List Char} (hkind : node.kind = "unary_op_expression")
    (htext : Negated cs k (node.text source).toList) (hk : 1 ≤ k) (hs : Spells n cs) (hn : n < 10 ^ 15) :
    ((∃ s, scalar source node = .ok s) ↔ k = 1 ∨ k = 2 ∧ ∀ c ∈ compact cs, c.isDigit) ∧
    ∀ s, scalar source node = .ok s → ∃ x, Literal.ofScalar s = .ok ⟨.number x, numberText x⟩ ∧
      (k = 2 → x = .ofInt (Digits.value 10 (compact cs))) ∧
      (x.Denotes ((-1) ^ k * n) ↔ ¬(k = 2 ∧ 8 ≤ n ∧ IsOctal cs)) := by
  have hhead : (List.replicate k '-' ++ cs).head? = some '-' := by
    obtain ⟨k, rfl⟩ : ∃ j, k = j + 1 := ⟨k - 1, by omega⟩
    rfl
  have htaken := scalar_of_unary hkind (htext.squeeze hs.not_isBlank) hhead
  simp only [htaken, exists_and_left, exists_eq, and_true]
  obtain rfl | hk := hk.eq_or_lt
  · obtain ⟨x, hx, hd⟩ := hs.read?_eq hn (.minus (List.forall_mem_nil _) .numeral) le_rfl
    have hr : read? (String.ofList (List.replicate 1 '-' ++ cs)) = some x := hx
    refine ⟨iff_of_true (by rw [hr]; rfl) (.inl rfl), ?_⟩
    rintro s ⟨_, rfl⟩
    have hfin : x.isFinite := hd.isFinite (by rw [natAbs_negated]; omega)
    exact ⟨x, Literal.ofScalar_number hr hfin, by omega, iff_of_true hd (by omega)⟩
  by_cases h2 : k = 2 ∧ ∀ c ∈ compact cs, c.isDigit
  · obtain ⟨rfl, hd⟩ := h2
    have hr : read? (String.ofList (List.replicate 2 '-' ++ cs)) = some _ := hs.read?_twice hn hd
    refine ⟨iff_of_true (by rw [hr]; rfl) (.inr ⟨rfl, hd⟩), ?_⟩
    rintro s ⟨_, rfl⟩
    -- In base ten the value is at most the square of the one in base eight.
    have hfin := Binary64.isFinite_ofInt (Nat.lt_trans (hs.value_lt hn hd) (by decide))
    refine ⟨_, Literal.ofScalar_number hr hfin, fun _ => rfl, ?_⟩
    have hsign : (-1) ^ 2 * (n : Int) = n := by ring
    rw [hsign, Binary64.denotes_ofInt_iff (by omega), (hs.value_of_digits hd).2]
    simp
  · have hr := hs.read?_minuses_eq_none hk h2
    refine ⟨iff_of_false (by rw [hr]; exact Bool.false_ne_true) (not_or.2 ⟨hk.ne', h2⟩), ?_⟩
    rintro s ⟨hsome, _⟩
    rw [hr] at hsome
    cases hsome

def negatedDecimal : Node := .mk "unary_op_expression" true (some "right") ⟨0, 5⟩ []

theorem scalar_negated_decimal :
    ∃ s x, scalar "- -12" negatedDecimal = .ok s ∧ Literal.ofScalar s = .ok ⟨.number x, numberText x⟩ ∧
      x.Denotes 12 := by
  have htext : (negatedDecimal.text "- -12").toList = '-' :: [' '] ++ ('-' :: [] ++ ['1', '2']) := by decide
  have hnegated : Negated ['1', '2'] 2 (negatedDecimal.text "- -12").toList :=
    htext ▸ .minus (List.forall_mem_singleton.2 rfl) (.minus (List.forall_mem_nil _) .numeral)
  have hs : Spells 12 ['1', '2'] := .decimal (by decide)
  obtain ⟨hiff, hread⟩ := scalar_negated rfl hnegated (by decide) hs (by omega)
  obtain ⟨s, hok⟩ := hiff.2 (.inr ⟨rfl, List.all_eq_true.1 rfl⟩)
  obtain ⟨x, hx, _, hd⟩ := hread s hok
  refine ⟨s, x, hok, hx, hd.2 ?_⟩
  rintro ⟨_, _, _, he, _⟩
  cases he

def negatedOctal : Node := .mk "unary_op_expression" true (some "right") ⟨11, 17⟩ []

def negatedOctalTree : Node :=
  .mk "program" true none ⟨0, 18⟩
    [.mk "php_tag" true none ⟨0, 5⟩ [],
      .mk "expression_statement" true none ⟨6, 18⟩
        [.mk "assignment_expression" true none ⟨6, 17⟩
          [.mk "variable_name" true (some "left") ⟨6, 8⟩ [], negatedOctal]]]

def negatedOctalSource : Source := .parsed "<?php $a = - -017;" negatedOctalTree

theorem transpile_negated_octal :
    negatedOctal.kind = "unary_op_expression" ∧ Spells 15 ['0', '1', '7'] ∧
    Negated ['0', '1', '7'] 2 (negatedOctal.text negatedOctalSource.text).toList ∧
    ∃ out, transpile .lenient negatedOctalSource = .ok out ∧ out.text = "var a = 17;\n" ∧ out.diagnostics = [] := by
  have hp : negatedOctalSource.pulled = [.assignment ⟨⟨6, 18⟩, "$a = - -017;"⟩ "a" (.number "--017")] := rfl
  have htext : (negatedOctal.text negatedOctalSource.text).toList = '-' :: [' '] ++ ('-' :: [] ++ ['0', '1', '7']) := by
    decide
  have hs : Spells 15 ['0', '1', '7'] := .based (.octal ⟨_, rfl, by decide, List.all_eq_true.1 rfl⟩) rfl
  have hr : read? "--017" = some (.ofInt 17) := hs.read?_twice (by omega) (List.all_eq_true.1 rfl)
  have hliteral : Literal.ofScalar (.number "--017") = .ok ⟨.number (.ofInt 17), "17"⟩ := by
    rw [Literal.ofScalar_number hr (Binary64.isFinite_ofInt (n := 17) (by decide)), numberText_ofInt (by decide)]
    rfl
  have hl : Transpile.lowerAll .lenient negatedOctalSource.pulled =
      .ok ([.variable "a" ⟨.number (.ofInt 17), "17"⟩], []) := by
    rw [hp, Transpile.lowerAll, Transpile.lower_assignment _ (by decide) hliteral]
    rfl
  refine ⟨rfl, hs, ?_, _, transpile_of_lowerAll hl, rfl, rfl⟩
  rw [htext]
  exact .minus (List.forall_mem_singleton.2 rfl) (.minus (List.forall_mem_nil _) .numeral)

end SyntaxTree

end PhpTranspiler
