import PhpTranspiler.Proofs.Rounding

namespace PhpTranspiler

namespace Decimal

open Binary64

/-- A decimal is the quotient of two integers, of which one at most has a power of ten. -/
def numerator (d : Decimal) : Nat := d.digits * 10 ^ d.exponent.toNat

def denominator (d : Decimal) : Nat := 10 ^ (-d.exponent).toNat

theorem admits_of_choose {tie : Tie} {admits : Nat → Bool} {v scale step k : Nat}
    (h : choose tie admits v scale step = some k) : admits k = true := by
  simp only [choose] at h
  generalize v * scale / step = d at h
  cases hdown : admits d with
  | true =>
      cases hup : admits (d + 1) with
      | true =>
          rw [hdown, hup] at h
          cases h
          split
          · exact hup
          · exact hdown
      | false =>
          rw [hdown, hup] at h
          cases h
          exact hdown
  | false =>
      cases hup : admits (d + 1) with
      | true =>
          rw [hdown, hup] at h
          cases h
          exact hup
      | false =>
          rw [hdown, hup] at h
          cases h

theorem choose_eq_none {tie : Tie} {admits : Nat → Bool} {v scale step : Nat}
    (h : choose tie admits v scale step = none) :
    admits (v * scale / step) = false ∧ admits (v * scale / step + 1) = false := by
  simp only [choose] at h
  generalize v * scale / step = d at h
  cases hdown : admits d <;> cases hup : admits (d + 1) <;> simp [hdown, hup] at h ⊢

section

variable {tie : Tie} {rank d : Nat} {s : Int}

theorem rounds_iff_of_step :
    Rounds rank (numerator ⟨d, s⟩) (denominator ⟨d, s⟩) ↔
      if mantissa rank % 2 = 0 then
        lowest rank * 10 ^ (-s).toNat ≤ d * (2 * oneUnits * 10 ^ s.toNat) ∧
          d * (2 * oneUnits * 10 ^ s.toNat) ≤ highest rank * 10 ^ (-s).toNat
      else
        lowest rank * 10 ^ (-s).toNat < d * (2 * oneUnits * 10 ^ s.toNat) ∧
          d * (2 * oneUnits * 10 ^ s.toNat) < highest rank * 10 ^ (-s).toNat := by
  have hstep : d * (2 * oneUnits * 10 ^ s.toNat) = 2 * (d * 10 ^ s.toNat * oneUnits) := by
    generalize oneUnits = u
    ring
  rw [hstep, rounds_iff]
  rfl

theorem onGrid?_eq_choose :
    onGrid? tie rank s = choose tie (fun d => decide (Rounds rank (numerator ⟨d, s⟩) (denominator ⟨d, s⟩)))
      (2 * units rank) (10 ^ (-s).toNat) (2 * oneUnits * 10 ^ s.toNat) := by
  rw [units, ← Nat.mul_assoc, onGrid?]
  congr 1
  funext d
  rw [Bool.eq_iff_iff, decide_eq_true_eq, rounds_iff_of_step]
  split <;> rw [Bool.and_eq_true, decide_eq_true_eq, decide_eq_true_eq] <;> rfl

theorem denominator_pos (d : Decimal) : 0 < d.denominator := Nat.pow_pos (by decide)

theorem rounds_of_onGrid? (h : onGrid? tie rank s = some d) :
    Rounds rank (numerator ⟨d, s⟩) (denominator ⟨d, s⟩) := by
  rw [onGrid?_eq_choose] at h
  exact of_decide_eq_true (admits_of_choose h)

/-- A grid with a step of at most one part in `10 ^ 16` has a decimal that rounds to the magnitude: an interval between
two neighbours that do not would be less wide. -/
theorem exists_onGrid? (h : 0 < rank) (hs : 10 ^ 16 * (oneUnits * 10 ^ s.toNat) ≤ units rank * 10 ^ (-s).toNat) :
    ∃ d, onGrid? tie rank s = some d := by
  cases ho : onGrid? tie rank s with
  | some d => exact ⟨d, rfl⟩
  | none =>
      exfalso
      rw [onGrid?_eq_choose] at ho
      obtain ⟨hdown, hup⟩ := choose_eq_none ho
      rw [decide_eq_false_iff_not, rounds_iff_of_step] at hdown hup
      obtain ⟨_, hlow, hhigh⟩ := ends h
      have hscale : 0 < 10 ^ (-s).toNat := Nat.pow_pos (by decide)
      have hstep : 0 < 2 * oneUnits * 10 ^ s.toNat :=
        Nat.mul_pos (Nat.mul_pos (by decide) oneUnits_pos) (Nat.pow_pos (by decide))
      have hq := Nat.div_add_mod (2 * units rank * 10 ^ (-s).toNat) (2 * oneUnits * 10 ^ s.toNat)
      have hr := Nat.mod_lt (2 * units rank * 10 ^ (-s).toNat) hstep
      rw [Nat.mul_comm (2 * oneUnits * 10 ^ s.toNat)] at hq
      have hwide := Nat.mul_lt_mul_of_pos_right (units_lt_interval rank) hscale
      replace hlow := Nat.mul_lt_mul_of_pos_right hlow hscale
      replace hhigh := Nat.mul_lt_mul_of_pos_right hhigh hscale
      simp only [Nat.add_mul, Nat.one_mul, Nat.mul_assoc] at hwide hlow hhigh hq hr hup hdown hs
      generalize 2 * (units rank * 10 ^ (-s).toNat) / (2 * (oneUnits * 10 ^ s.toNat)) *
        (2 * (oneUnits * 10 ^ s.toNat)) = a at *
      generalize lowest rank * 10 ^ (-s).toNat = low at *
      generalize highest rank * 10 ^ (-s).toNat = high at *
      generalize units rank * 10 ^ (-s).toNat = v at *
      generalize oneUnits * 10 ^ s.toNat = u at *
      split at hdown
      · rename_i hm
        rw [if_pos hm] at hup
        omega
      · rename_i hm
        rw [if_neg hm] at hup
        omega

theorem rounds_div_ten (h : Rounds rank (numerator ⟨d, s⟩) (denominator ⟨d, s⟩)) (hd : d % 10 = 0) :
    Rounds rank (numerator ⟨d / 10, s + 1⟩) (denominator ⟨d / 10, s + 1⟩) := by
  refine h.of_mul_eq (denominator_pos _) (denominator_pos _) ?_
  obtain ⟨k, rfl⟩ := Nat.dvd_of_mod_eq_zero hd
  simp only [numerator, denominator, Nat.mul_div_cancel_left k (show 0 < 10 by decide)]
  by_cases hs : 0 ≤ s
  · have h1 : (s + 1).toNat = s.toNat + 1 := by omega
    have h2 : (-s).toNat = 0 := by omega
    have h3 : (-(s + 1)).toNat = 0 := by omega
    rw [h1, h2, h3]
    ring
  · have h1 : (-s).toNat = (-(s + 1)).toNat + 1 := by omega
    have h2 : s.toNat = 0 := by omega
    have h3 : (s + 1).toNat = 0 := by omega
    rw [h1, h2, h3]
    ring

theorem rounds_search {grid? : Int → Option Nat} {n k : Nat}
    (hgrid : ∀ d s, grid? s = some d → Rounds rank (numerator ⟨d, s⟩) (denominator ⟨d, s⟩)) (hk : k < n)
    (h : ∃ d, grid? (s - k) = some d) : Rounds rank (search grid? n s).numerator (search grid? n s).denominator := by
  induction n generalizing s k with
  | zero => omega
  | succ n ih =>
      rw [search]
      cases ho : grid? s with
      | some d =>
          have hr := hgrid d s ho
          by_cases hd : d % 10 = 0
          · simpa only [if_pos hd] using rounds_div_ten hr hd
          · simpa only [if_neg hd] using hr
      | none =>
          obtain ⟨d, hd⟩ := h
          cases k with
          | zero =>
              rw [Int.natCast_zero, Int.sub_zero, ho] at hd
              cases hd
          | succ k =>
              have he : s - 1 - (k : Int) = s - (k + 1 : Nat) := by omega
              exact ih (Nat.lt_of_succ_lt_succ hk) ⟨d, he ▸ hd⟩

theorem width_bounds {n : Nat} (hn : n ≠ 0) : 0 < width n ∧ 10 ^ (width n - 1) ≤ n ∧ n < 10 ^ width n := by
  have hpos : 0 < width n := List.length_pos_iff.2 Nat.toDigits_ne_nil
  refine ⟨hpos, ?_, (Nat.length_toDigits_le_iff (by decide) hpos).1 (Nat.le_refl _)⟩
  by_cases h : width n - 1 = 0
  · rw [h]
    omega
  · by_contra hlt
    have hle : width n ≤ width n - 1 :=
      (Nat.length_toDigits_le_iff (by decide) (Nat.pos_of_ne_zero h)).2 (Nat.lt_of_not_le hlt)
    omega

theorem rounds_shortest (h : 0 < rank) :
    Rounds rank (shortest tie rank).numerator (shortest tie rank).denominator := by
  obtain ⟨k, hk⟩ : ∃ k, k = 324 := ⟨324, rfl⟩
  have hpow : Nat.pow 10 k = 10 ^ k := rfl
  have hone := oneUnits_le hk
  have hunits : 0 < units rank := Nat.mul_pos (mantissa_pos h) (Nat.two_pow_pos _)
  have hu := oneUnits_pos
  have hle : oneUnits ≤ units rank * 10 ^ k := by
    have hmul := Nat.le_mul_of_pos_left (10 ^ k) hunits
    omega
  obtain ⟨hpos, hlow, _⟩ := width_bounds (n := units rank * 10 ^ k / oneUnits) (Nat.div_pos hle hu).ne'
  rw [Nat.le_div_iff_mul_le hu] at hlow
  rw [shortest, ← hk, hpow]
  generalize width (units rank * 10 ^ k / oneUnits) = w at *
  refine rounds_search (k := 16) (fun _ _ => rounds_of_onGrid?) (by decide) (exists_onGrid? h ?_)
  obtain ⟨s, hs⟩ : ∃ s : Int, s = w - 325 - (16 : Nat) := ⟨_, rfl⟩
  have he : k + 16 + s.toNat = w - 1 + (-s).toNat := by omega
  rw [← hs]
  generalize oneUnits = u at *
  generalize units rank = v at *
  refine Nat.le_of_mul_le_mul_left ?_ (Nat.pow_pos (n := k) (show 0 < 10 by decide))
  calc
    10 ^ k * (10 ^ 16 * (u * 10 ^ s.toNat)) = 10 ^ (k + 16 + s.toNat) * u := by rw [Nat.pow_add, Nat.pow_add]; ring
    _ = 10 ^ (w - 1) * u * 10 ^ (-s).toNat := by rw [he, Nat.pow_add, Nat.mul_right_comm]
    _ ≤ v * 10 ^ k * 10 ^ (-s).toNat := Nat.mul_le_mul_right _ hlow
    _ = 10 ^ k * (v * 10 ^ (-s).toNat) := by rw [Nat.mul_comm v, Nat.mul_assoc]

/-- A decimal whose size is within the range of the format is rounded, whatever the number of its digits. -/
theorem rank_eq_nearest {d : Decimal} {j k : Nat} (hk : k = 324) (hj : j = 309)
    (hlow : d.denominator ≤ d.numerator * 10 ^ k) (hhigh : d.numerator ≤ d.denominator * 10 ^ j) :
    d.rank = nearest d.numerator d.denominator := by
  obtain ⟨n, e⟩ := d
  have hden := denominator_pos ⟨n, e⟩
  simp only [numerator, denominator] at *
  have hn : n ≠ 0 := by
    rintro rfl
    simp only [Nat.zero_mul] at hlow
    omega
  obtain ⟨hpos, hl, hu⟩ := width_bounds hn
  have htop : (-e).toNat < width n + e.toNat + k := by
    rw [← Nat.pow_lt_pow_iff_right (show 1 < 10 by decide), Nat.pow_add, Nat.pow_add]
    refine Nat.lt_of_le_of_lt hlow (Nat.mul_lt_mul_of_pos_right ?_ (Nat.pow_pos (by decide)))
    exact Nat.mul_lt_mul_of_pos_right hu (Nat.pow_pos (by decide))
  have hbot : width n - 1 + e.toNat ≤ (-e).toNat + j := by
    rw [← Nat.pow_le_pow_iff_right (show 1 < 10 by decide), Nat.pow_add, Nat.pow_add]
    exact Nat.le_trans (Nat.mul_le_mul_right _ hl) hhigh
  have hpow (k : Nat) : Nat.pow 10 k = 10 ^ k := rfl
  simp only [rank, hpow]
  rw [if_neg (by omega), if_neg (by omega)]
  by_cases he : 0 ≤ e
  · rw [if_pos he, Int.toNat_of_nonpos (show -e ≤ 0 by omega), Nat.pow_zero]
  · rw [if_neg he, Int.toNat_of_nonpos (show e ≤ 0 by omega), Nat.pow_zero, Nat.mul_one]

theorem rank_of_rounds {d : Decimal} (hr : Rounds rank d.numerator d.denominator) (h : 0 < rank)
    (hlt : rank < infinityRank) : d.rank = rank := by
  obtain ⟨k, hk⟩ : ∃ k, k = 324 := ⟨324, rfl⟩
  obtain ⟨j, hj⟩ : ∃ j, j = 309 := ⟨309, rfl⟩
  obtain ⟨hlow, hhigh⟩ := hr.range h hlt hk hj
  rw [rank_eq_nearest hk hj hlow hhigh, hr.nearest_eq (denominator_pos d) hlt]

end

end Decimal

namespace Digits

theorem isDigit_zeros {k : Nat} : ∀ c ∈ List.replicate k '0', c.isDigit := by
  intro c hc
  rw [List.eq_of_mem_replicate hc]
  rfl

theorem value_append_zeros (cs : List Char) (k : Nat) :
    value 10 (cs ++ List.replicate k '0') = value 10 cs * 10 ^ k := by
  induction k with
  | zero => rw [List.replicate_zero, List.append_nil, Nat.pow_zero, Nat.mul_one]
  | succ k ih =>
      have hzero : (digit '0').getD 0 = 0 := rfl
      rw [value, List.replicate_succ', ← List.append_assoc, List.foldl_append, ← value, ih, List.foldl_cons,
        List.foldl_nil, hzero, Nat.add_zero, Nat.pow_succ, Nat.mul_comm 10, Nat.mul_assoc]

theorem value_zeros_append (k : Nat) (cs : List Char) : value 10 (List.replicate k '0' ++ cs) = value 10 cs := by
  have hzero : (List.replicate k '0').foldl (fun n c => 10 * n + (digit c).getD 0) 0 = 0 := by
    have hv := value_append_zeros [] k
    rwa [List.nil_append, value, value, List.foldl_nil, Nat.zero_mul] at hv
  rw [value, List.foldl_append, hzero, value]

end Digits

namespace Decimal

theorem read?_of_point {whole fraction : List Char} (hn : whole ≠ []) (hw : ∀ c ∈ whole, c.isDigit)
    (hf : ∀ c ∈ fraction, c.isDigit) :
    read? (whole ++ '.' :: fraction) = some (false, ⟨Digits.value 10 (whole ++ fraction), -fraction.length⟩) := by
  have htake : (whole ++ '.' :: fraction).takeWhile Char.isDigit = whole := by
    rw [List.takeWhile_append_of_pos hw, List.takeWhile_cons_of_neg (by decide), List.append_nil]
  have hdrop : (whole ++ '.' :: fraction).dropWhile Char.isDigit = '.' :: fraction := by
    rw [List.dropWhile_append_of_pos hw, List.dropWhile_cons_of_neg (by decide)]
  have htake' : fraction.takeWhile Char.isDigit = fraction := List.takeWhile_eq_self_iff.2 hf
  have hdrop' : fraction.dropWhile Char.isDigit = [] := List.dropWhile_eq_nil_iff.2 hf
  cases whole with
  | nil => exact absurd rfl hn
  | cons c cs =>
      have hc := hw c (.head _)
      have hne : c ≠ '-' ∧ c ≠ '+' := by constructor <;> (rintro rfl; revert hc; decide)
      unfold read?
      rw [List.cons_append] at *
      simp [hne, htake, hdrop, htake', hdrop']

theorem positional_cases (d : Decimal) :
    (0 ≤ d.exponent ∧ d.positional = Nat.toDigits 10 d.digits ++ List.replicate d.exponent.toNat '0') ∨
      ∃ whole fraction, d.positional = whole ++ '.' :: fraction ∧ whole ≠ [] ∧ (∀ c ∈ whole, c.isDigit) ∧
        (∀ c ∈ fraction, c.isDigit) ∧ Digits.value 10 (whole ++ fraction) = d.digits ∧
        (fraction.length : Int) = -d.exponent := by
  have hall : ∀ c ∈ Nat.toDigits 10 d.digits, c.isDigit := Digits.isDigit_toDigits
  have hvalue := Digits.value_toDigits d.digits
  rw [positional]
  generalize Nat.toDigits 10 d.digits = ds at *
  by_cases he : 0 ≤ d.exponent
  · exact .inl ⟨he, if_pos he⟩
  · rw [if_neg he]
    by_cases hp : (-d.exponent).toNat < ds.length
    · refine .inr ⟨ds.take (ds.length - (-d.exponent).toNat), ds.drop (ds.length - (-d.exponent).toNat), if_pos hp, ?_,
        fun c hc => hall c (List.mem_of_mem_take hc), fun c hc => hall c (List.mem_of_mem_drop hc), ?_, ?_⟩
      · rw [ne_eq, ← List.length_eq_zero_iff, List.length_take]
        omega
      · rw [List.take_append_drop, hvalue]
      · rw [List.length_drop]
        omega
    · refine .inr ⟨['0'], List.replicate ((-d.exponent).toNat - ds.length) '0' ++ ds, if_neg hp, List.cons_ne_nil _ _,
        List.forall_mem_singleton.2 rfl, ?_, ?_, ?_⟩
      · intro c hc
        rcases List.mem_append.1 hc with hc | hc
        · exact Digits.isDigit_zeros c hc
        · exact hall c hc
      · have hv := Digits.value_zeros_append ((-d.exponent).toNat - ds.length + 1) ds
        rwa [List.replicate_succ, List.cons_append, hvalue] at hv
      · rw [List.length_append, List.length_replicate]
        omega

theorem isDigit_or_of_mem_positional {d : Decimal} : ∀ c ∈ d.positional, c.isDigit ∨ c = '.' := by
  intro c hc
  rcases positional_cases d with ⟨_, hp⟩ | ⟨whole, fraction, hp, _, hw, hf, _⟩
  · rcases List.mem_append.1 (hp ▸ hc) with hc | hc
    · exact .inl (Digits.isDigit_toDigits c hc)
    · exact .inl (Digits.isDigit_zeros c hc)
  · rcases List.mem_append.1 (hp ▸ hc) with hc | hc
    · exact .inl (hw c hc)
    · rcases List.mem_cons.1 hc with rfl | hc
      · exact .inr rfl
      · exact .inl (hf c hc)

theorem read?_positional (d : Decimal) :
    ∃ d', read? d.positional = some (false, d') ∧ d'.numerator = d.numerator ∧ d'.denominator = d.denominator := by
  rcases positional_cases d with ⟨he, hp⟩ | ⟨whole, fraction, hp, hn, hw, hf, hv, hlen⟩
  · have hall : ∀ c ∈ d.positional, c.isDigit := by
      intro c hc
      rcases List.mem_append.1 (hp ▸ hc) with hc | hc
      · exact Digits.isDigit_toDigits c hc
      · exact Digits.isDigit_zeros c hc
    have hne : d.positional ≠ [] := by
      rw [hp]
      exact List.append_ne_nil_of_left_ne_nil Nat.toDigits_ne_nil _
    refine ⟨_, (read?_of_digits hne hall).1, ?_, ?_⟩
    · rw [hp, Digits.value_append_zeros, Digits.value_toDigits]
      exact Nat.mul_one _
    · rw [denominator, denominator, Int.toNat_of_nonpos (show -d.exponent ≤ 0 by omega)]
      rfl
  · refine ⟨d, ?_, rfl, rfl⟩
    rw [hp, read?_of_point hn hw hf, hv, hlen, Int.neg_neg]

end Decimal

namespace Numeral

theorem read?_shortest {tie : Decimal.Tie} {rank : Nat} (h : 0 < rank) (hlt : rank < Binary64.infinityRank) :
    read? (String.ofList (Decimal.shortest tie rank).positional) = some ⟨false, rank⟩ := by
  have hr := @Decimal.rounds_shortest tie rank h
  generalize Decimal.shortest tie rank = d at *
  have hd : d.digits ≠ 0 := by
    intro hz
    have hlow := hr.low
    rw [Decimal.numerator, hz, Nat.zero_mul, Nat.zero_mul] at hlow
    have hpos := Nat.mul_pos (Binary64.ends h).1 (Decimal.denominator_pos d)
    omega
  have hoct : ¬(1 < d.positional.length ∧ d.positional.head? = some '0' ∧ d.positional.all Char.isDigit) := by
    rintro ⟨_, hhead, hall⟩
    rcases Decimal.positional_cases d with ⟨_, hp⟩ | ⟨whole, fraction, hp, _⟩
    · rw [hp, List.head?_append_of_ne_nil _ Nat.toDigits_ne_nil] at hhead
      exact Digits.head_toDigits hd hhead
    · rw [hp] at hall
      exact absurd (List.all_eq_true.1 hall '.' (by simp)) (by decide)
  have hchars : ∀ c ∈ d.positional, c.isDigit ∨ c = '.' := Decimal.isDigit_or_of_mem_positional
  obtain ⟨d', hread, hn, hm⟩ := Decimal.read?_positional d
  have hne : d.positional ≠ [] := by
    intro he
    rw [he] at hread
    cases hread
  rw [← hn, ← hm] at hr
  rw [read?_of_unsigned hchars, magnitude?_eq_decimal? hne hchars hoct]
  simp only [decimal?, hread, Option.map_some, Decimal.rank_of_rounds hr h hlt]

end Numeral

namespace Script

theorem read?_magnitudeText {rank : Nat} (h : 0 < rank) (hlt : rank < Binary64.infinityRank) :
    Numeral.read? (String.ofList (magnitudeText rank)) = some ⟨false, rank⟩ := by
  rw [magnitudeText_eq]
  cases hf : (Binary64.integer? rank).filter (· < 1000000000000000) with
  | some n =>
      obtain ⟨hi, hn⟩ := Option.filter_eq_some_iff.1 hf
      have hn' : n < 10 ^ 15 := of_decide_eq_true hn
      simp only [hf]
      rw [(Numeral.read?_of_digits Digits.isDigit_toDigits).1, Numeral.magnitude?_toDigits hn',
        Binary64.nearest_of_integer? hi (by omega)]
  | none =>
      simp only [hf]
      exact Numeral.read?_shortest h hlt

end Script

end PhpTranspiler
