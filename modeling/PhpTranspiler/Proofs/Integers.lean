import Mathlib
import PhpTranspiler.Proofs.Remainder
import PhpTranspiler.Script.Literal

namespace PhpTranspiler

namespace Binary64

theorem roundHalfEven_mul (m : Nat) {d : Nat} (hd : 0 < d) : roundHalfEven (m * d) d = m := by
  have hq : m * d / d = m := Nat.mul_div_cancel m hd
  have hr : m * d % d = 0 := Nat.mul_mod_left m d
  rw [roundHalfEven, hq, hr, if_neg (by omega)]

theorem log2_mul_two_pow {n : Nat} (hn : n ≠ 0) (k : Nat) : (n * 2 ^ k).log2 = n.log2 + k := by
  have hp := Nat.two_pow_pos k
  rw [Nat.log2_eq_iff (Nat.mul_ne_zero hn (by omega)), Nat.pow_add]
  constructor
  · exact Nat.mul_le_mul_right _ (Nat.log2_self_le hn)
  · rw [Nat.add_right_comm, Nat.pow_add]
    exact Nat.mul_lt_mul_of_pos_right Nat.lt_log2_self hp

theorem shift_of_mantissa {e m : Nat} (hl : binade ≤ m) (hu : m < 2 * binade) : shift (e * binade + m) = e := by
  have hd : (e * binade + m) / binade = e + 1 := by
    apply Nat.div_eq_of_lt_le
    · rw [Nat.add_mul]
      omega
    · rw [Nat.add_mul, Nat.add_mul]
      omega
  rw [shift, hd, Nat.add_sub_cancel]

theorem units_of_mantissa {e m : Nat} (hl : binade ≤ m) (hu : m < 2 * binade) :
    units (e * binade + m) = m * 2 ^ e := by
  rw [units, mantissa, shift_of_mantissa hl hu, Nat.add_sub_cancel_left]
  rfl

theorem oneUnits_eq : ∃ k, k = 1074 ∧ oneUnits = 2 ^ k := by
  unfold oneUnits
  generalize 1074 = k
  exact ⟨k, rfl, rfl⟩

theorem nearest_of_lt {n : Nat} (hn : n ≠ 0) (h : n < 2 ^ 53) :
    ∃ e m, nearest n 1 = e * binade + m ∧ e ≤ 1074 ∧ binade ≤ m ∧ m < 2 * binade ∧
      m * 2 ^ e = n * oneUnits := by
  obtain ⟨k, hk, hone⟩ := oneUnits_eq
  have hlog : n.log2 ≤ 52 := Nat.le_of_lt_succ ((Nat.log2_lt hn).2 h)
  have hb : binade = 2 ^ n.log2 * 2 ^ (52 - n.log2) := by
    have he : n.log2 + (52 - n.log2) = 52 := by omega
    rw [← Nat.pow_add, he]
    rfl
  have hscale : n * 2 ^ k = n * 2 ^ (52 - n.log2) * 2 ^ (n.log2 + (k - 52)) := by
    have he : 52 - n.log2 + (n.log2 + (k - 52)) = k := by omega
    rw [Nat.mul_assoc, ← Nat.pow_add, he]
  have hl : binade ≤ n * 2 ^ (52 - n.log2) := by
    rw [hb]
    exact Nat.mul_le_mul_right _ (Nat.log2_self_le hn)
  have hu : n * 2 ^ (52 - n.log2) < 2 * binade := by
    have hlt := Nat.mul_lt_mul_of_pos_right (Nat.lt_log2_self (n := n)) (Nat.two_pow_pos (52 - n.log2))
    rwa [Nat.pow_succ, Nat.mul_comm _ 2, Nat.mul_assoc, ← hb] at hlt
  refine ⟨n.log2 + (k - 52), n * 2 ^ (52 - n.log2), ?_, by omega, hl, hu, by rw [hone, hscale]⟩
  have hshift : (n * 2 ^ k).log2 - 52 = n.log2 + (k - 52) := by
    rw [log2_mul_two_pow hn]
    omega
  have hround : roundHalfEven (n * 2 ^ k) (2 ^ (n.log2 + (k - 52))) = n * 2 ^ (52 - n.log2) := by
    rw [hscale, roundHalfEven_mul _ (Nat.two_pow_pos _)]
  have hmin : (n.log2 + (k - 52)) * binade + n * 2 ^ (52 - n.log2) ≤ infinityRank := by
    have hm := Nat.mul_le_mul_right binade (show n.log2 + (k - 52) ≤ 1074 by omega)
    rw [infinityRank]
    omega
  have hpow (a b : Nat) : Nat.pow a b = a ^ b := rfl
  simp only [nearest, hone, Nat.div_one, hshift, Nat.one_mul, hpow, hround, Nat.min_eq_right hmin]

theorem nearest_zero : nearest 0 1 = 0 := by
  simp [nearest, roundHalfEven, Nat.log2_zero]

theorem nearest_pos {n : Nat} (hn : n ≠ 0) (h : n < 2 ^ 53) : 0 < nearest n 1 := by
  obtain ⟨e, m, hr, _, hl, _⟩ := nearest_of_lt hn h
  have hb : 0 < binade := by decide
  omega

theorem roundHalfEven_le (n d : Nat) : roundHalfEven n d ≤ n / d + 1 := by
  simp only [roundHalfEven]
  split <;> omega

theorem nearest_lt {n : Nat} (h : n < 2 ^ 128) : nearest n 1 < infinityRank := by
  by_cases hn : n = 0
  · rw [hn, nearest_zero]
    decide
  obtain ⟨k, hk, hone⟩ := oneUnits_eq
  have hlog : n.log2 < 128 := (Nat.log2_lt hn).2 h
  have hshift : (n * 2 ^ k).log2 - 52 ≤ 1149 := by
    rw [log2_mul_two_pow hn]
    omega
  have hquot : n * 2 ^ k / 2 ^ ((n * 2 ^ k).log2 - 52) < 2 * binade := by
    have hb : 2 * binade = 2 ^ 53 := rfl
    have hle : (n * 2 ^ k).log2 + 1 ≤ 53 + ((n * 2 ^ k).log2 - 52) := by omega
    rw [Nat.div_lt_iff_lt_mul (Nat.two_pow_pos _), hb, ← Nat.pow_add]
    exact Nat.lt_of_lt_of_le Nat.lt_log2_self (Nat.pow_le_pow_right (by omega) hle)
  have hround := roundHalfEven_le (n * 2 ^ k) (2 ^ ((n * 2 ^ k).log2 - 52))
  have hm := Nat.mul_le_mul_right binade hshift
  have hpow (a b : Nat) : Nat.pow a b = a ^ b := rfl
  have hb : 1 < binade := by decide
  simp only [nearest, hone, Nat.div_one, Nat.one_mul, hpow]
  refine Nat.lt_of_le_of_lt (Nat.min_le_right _ _) ?_
  rw [infinityRank]
  omega

theorem integer?_nearest {n : Nat} (h : n < 2 ^ 53) : integer? (nearest n 1) = some n := by
  by_cases hn : n = 0
  · rw [hn, nearest_zero]
    simp [integer?, units, mantissa]
  · obtain ⟨k, _, hone⟩ := oneUnits_eq
    obtain ⟨e, m, hr, _, hl, hu, hm⟩ := nearest_of_lt hn h
    rw [hr, integer?, units_of_mantissa hl hu, hm, if_pos (Nat.mul_mod_left n oneUnits), hone,
      Nat.mul_div_cancel n (Nat.two_pow_pos k)]

theorem mantissa_of_le {rank : Nat} (h : binade ≤ rank) :
    rank = shift rank * binade + mantissa rank ∧ binade ≤ mantissa rank ∧ mantissa rank < 2 * binade := by
  have hb : 0 < binade := by decide
  have hdiv := Nat.div_add_mod rank binade
  have hmod := Nat.mod_lt rank hb
  have hq : 1 ≤ rank / binade := (Nat.one_le_div_iff hb).2 h
  have hs : shift rank * binade + binade = binade * (rank / binade) := by
    rw [shift, Nat.mul_comm binade, ← Nat.succ_mul, Nat.succ_eq_add_one, Nat.sub_add_cancel hq]
  rw [mantissa]
  omega

theorem exponent_le_of_mul_eq {a b m n : Nat} (hm : m < 2 * binade) (hn : binade ≤ n)
    (h : m * 2 ^ a = n * 2 ^ b) : b ≤ a := by
  by_contra hlt
  have hpow : 2 * 2 ^ a ≤ 2 ^ b := by
    rw [Nat.mul_comm, ← Nat.pow_succ]
    exact Nat.pow_le_pow_right (by omega) (by omega)
  have hlow : binade * (2 * 2 ^ a) ≤ m * 2 ^ a := h ▸ Nat.mul_le_mul hn hpow
  have hhigh : m * 2 ^ a < 2 * binade * 2 ^ a := Nat.mul_lt_mul_of_pos_right hm (Nat.two_pow_pos a)
  rw [← Nat.mul_assoc, Nat.mul_comm binade 2] at hlow
  omega

theorem mul_eq_of_integer? {rank n : Nat} (h : integer? rank = some n) : units rank = n * oneUnits := by
  rw [integer?] at h
  split at h
  · rename_i hz
    cases h
    exact (Nat.div_mul_cancel (Nat.dvd_of_mod_eq_zero hz)).symm
  · cases h

theorem nearest_of_integer? {rank n : Nat} (h : integer? rank = some n) (hn : n < 2 ^ 53) : nearest n 1 = rank := by
  have hunits := mul_eq_of_integer? h
  have hpow (k : Nat) : Nat.pow 2 k = 2 ^ k := rfl
  rw [units, hpow] at hunits
  by_cases hlow : rank < binade
  · have hs : shift rank = 0 := by rw [shift, Nat.div_eq_of_lt hlow]
    have hm : mantissa rank = rank := by rw [mantissa, hs, Nat.zero_mul, Nat.sub_zero]
    rw [hs, hm, Nat.pow_zero, Nat.mul_one] at hunits
    by_cases hz : n = 0
    · rw [hz, Nat.zero_mul] at hunits
      rw [hz, hunits, nearest_zero]
    · -- A rank of the first binade is less than one.
      obtain ⟨e, m, _, _, hl, _, hm⟩ := nearest_of_lt hz hn
      have hle := Nat.le_mul_of_pos_right m (Nat.two_pow_pos e)
      omega
  · obtain ⟨hr, hl, hu⟩ := mantissa_of_le (Nat.le_of_not_lt hlow)
    have hpos := Nat.mul_le_mul_right (2 ^ shift rank) hl
    have hz : n ≠ 0 := by
      rintro rfl
      have hb : 0 < binade * 2 ^ shift rank := Nat.mul_pos (by decide) (Nat.two_pow_pos _)
      omega
    obtain ⟨e, m, hnear, _, hml, hmu, hm⟩ := nearest_of_lt hz hn
    rw [← hunits] at hm
    have he : e = shift rank :=
      Nat.le_antisymm (exponent_le_of_mul_eq hu hml hm.symm) (exponent_le_of_mul_eq hmu hl hm)
    rw [he] at hm
    rw [hnear, he, Nat.eq_of_mul_eq_mul_right (Nat.two_pow_pos _) hm]
    exact hr.symm

/-- An integer that does not fit a mantissa has a rank above those that do. -/
theorem le_nearest {n : Nat} (h : 2 ^ 53 ≤ n) : 1076 * binade ≤ nearest n 1 := by
  obtain ⟨k, hk, hone⟩ := oneUnits_eq
  have hn : n ≠ 0 := by omega
  have hlog : 53 ≤ n.log2 := (Nat.le_log2 hn).2 h
  have hsum : (n * 2 ^ k).log2 = n.log2 + k := log2_mul_two_pow hn k
  have hquot : binade ≤ n * 2 ^ k / 2 ^ ((n * 2 ^ k).log2 - 52) := by
    have hb : binade = 2 ^ 52 := rfl
    have he : 52 + ((n * 2 ^ k).log2 - 52) = (n * 2 ^ k).log2 := by omega
    rw [Nat.le_div_iff_mul_le (Nat.two_pow_pos _), hb, ← Nat.pow_add, he]
    exact Nat.log2_self_le (Nat.mul_ne_zero hn (Nat.two_pow_pos k).ne')
  have hround : n * 2 ^ k / 2 ^ ((n * 2 ^ k).log2 - 52) ≤ roundHalfEven (n * 2 ^ k) (2 ^ ((n * 2 ^ k).log2 - 52)) := by
    simp only [roundHalfEven]
    split <;> omega
  have hshift := Nat.mul_le_mul_right binade (show 1075 ≤ (n * 2 ^ k).log2 - 52 by omega)
  have hpow (a b : Nat) : Nat.pow a b = a ^ b := rfl
  simp only [nearest, hone, Nat.div_one, Nat.one_mul, hpow]
  refine Nat.le_min.2 ⟨by decide, ?_⟩
  omega

theorem nearest_eq_iff {m n : Nat} (hn : n < 2 ^ 53) : nearest m 1 = nearest n 1 ↔ m = n := by
  refine ⟨fun h => ?_, fun h => h ▸ rfl⟩
  by_cases hm : m < 2 ^ 53
  · have hi := integer?_nearest hm
    rw [h, integer?_nearest hn] at hi
    exact (Option.some.inj hi).symm
  · have hle := le_nearest (Nat.le_of_not_lt hm)
    by_cases hz : n = 0
    · rw [h, hz, nearest_zero] at hle
      exact absurd hle (by decide)
    · obtain ⟨e, q, hr, he, _, hu, _⟩ := nearest_of_lt hz hn
      have hmul := Nat.mul_le_mul_right binade he
      omega

/-- Equality of numbers. The two zeros are equal. -/
def Equals (x y : Binary64) : Prop := x.rank = y.rank ∧ (x.negative = y.negative ∨ x.rank = 0)

/-- The number is exactly the integer. Zero is so with either sign. -/
def Denotes (x : Binary64) (i : Int) : Prop := integer? x.rank = some i.natAbs ∧ x.isBelowZero = decide (i < 0)

variable {x : Binary64} {i : Int}

theorem Denotes.rank_eq (h : x.Denotes i) (hi : i.natAbs < 2 ^ 53) : nearest i.natAbs 1 = x.rank :=
  nearest_of_integer? h.1 hi

theorem ofInt_natCast (n : Nat) : ofInt n = ⟨false, nearest n 1⟩ := by
  simp [ofInt]

theorem isFinite_ofInt {n : Nat} (h : n < 2 ^ 128) : (ofInt n).isFinite := by
  rw [ofInt_natCast]
  exact decide_eq_true (nearest_lt h)

theorem denotes_ofInt_iff {m n : Nat} (hn : n < 2 ^ 53) : (ofInt m).Denotes n ↔ m = n := by
  rw [← nearest_eq_iff hn, ofInt_natCast]
  constructor
  · intro h
    exact (h.rank_eq (by rwa [Int.natAbs_natCast])).symm
  · intro h
    refine ⟨by rw [h]; exact integer?_nearest hn, ?_⟩
    simp [isBelowZero]

theorem Denotes.isFinite (h : x.Denotes i) (hi : i.natAbs < 2 ^ 53) : x.isFinite := by
  rw [Binary64.isFinite, ← h.rank_eq hi]
  exact decide_eq_true (nearest_lt (Nat.lt_trans hi (by decide)))

theorem isBelowZero_of_ne (hr : x.rank ≠ 0) : x.isBelowZero = x.negative := by
  rw [isBelowZero, bne_iff_ne.2 hr, Bool.and_true]

theorem isBelowZero_ofInt (hi : i.natAbs < 2 ^ 53) : (ofInt i).isBelowZero = decide (i < 0) := by
  by_cases hz : i = 0
  · rw [hz]
    rfl
  · have hpos := nearest_pos (n := i.natAbs) (by omega) hi
    simp only [isBelowZero, ofInt, Bool.and_eq_left_iff_imp, bne_iff_ne]
    omega

theorem denotes_ofInt (hi : i.natAbs < 2 ^ 53) : (ofInt i).Denotes i :=
  ⟨integer?_nearest hi, isBelowZero_ofInt hi⟩

theorem Denotes.rank_eq_zero_iff (h : x.Denotes i) (hi : i.natAbs < 2 ^ 53) : x.rank = 0 ↔ i = 0 := by
  rw [← h.rank_eq hi]
  constructor
  · intro hr
    by_contra hz
    have hpos := nearest_pos (n := i.natAbs) (by omega) hi
    omega
  · rintro rfl
    exact nearest_zero

theorem Denotes.neg (h : x.Denotes i) (hi : i.natAbs < 2 ^ 53) : x.neg.Denotes (-i) := by
  have hz := h.rank_eq_zero_iff hi
  refine ⟨by rw [Int.natAbs_neg]; exact h.1, ?_⟩
  by_cases hr : x.rank = 0
  · have hi0 := hz.1 hr
    simp [isBelowZero, Binary64.neg, hr, hi0]
  · have hi0 := mt hz.2 hr
    have hneg : x.neg.isBelowZero = !x.negative := isBelowZero_of_ne (x := x.neg) hr
    rw [hneg, ← isBelowZero_of_ne hr, h.2, ← decide_not, decide_eq_decide]
    omega

theorem Denotes.equals (h : x.Denotes i) (hi : i.natAbs < 2 ^ 53) : x.Equals (.ofInt i) := by
  refine ⟨(h.rank_eq hi).symm, ?_⟩
  by_cases hz : x.rank = 0
  · exact .inr hz
  · exact .inl ((isBelowZero_of_ne hz).symm.trans h.2)

end Binary64

namespace Digits

theorem digit_of_isDigit {c : Char} (h : c.isDigit) : digit c = some (c.toNat - '0'.toNat) := by
  have hd : '0' ≤ c ∧ c ≤ '9' := by simpa [Char.isDigit, Char.le_def] using h
  rw [digit, if_pos hd]

theorem isDigit_of_natural? {base n : Nat} {ds : List Char} (h : natural? base ds = some n) :
    (∀ d ∈ ds, isDigit base d) ∧ value base ds = n := by
  unfold natural? at h
  split at h
  · rename_i hd
    exact ⟨List.all_eq_true.1 hd.2, Option.some.inj h⟩
  · cases h

theorem ne_of_isDigit {base : Nat} {d c : Char} (h : isDigit base d) (hc : digit c = none) : d ≠ c := by
  rintro rfl
  simp [isDigit, hc] at h

theorem isDigit_toDigits {n : Nat} : ∀ c ∈ Nat.toDigits 10 n, c.isDigit :=
  fun _ hc => Nat.isDigit_of_mem_toDigits (by omega) (by omega) hc

theorem value_toDigits (n : Nat) : value 10 (Nat.toDigits 10 n) = n := by
  have hf (cs : List Char) (hcs : ∀ c ∈ cs, c.isDigit) (init : Nat) :
      cs.foldl (fun n c => 10 * n + (digit c).getD 0) init = Nat.ofDigitChars 10 cs init := by
    induction cs generalizing init with
    | nil => rfl
    | cons c cs ih =>
        rw [List.foldl_cons, Nat.ofDigitChars_cons, digit_of_isDigit (hcs c (.head _))]
        exact ih (fun d hd => hcs d (List.mem_cons_of_mem c hd)) _
  rw [value, hf _ isDigit_toDigits, Nat.ofDigitChars_ten_toDigits]

theorem head_toDigits {n : Nat} (hn : n ≠ 0) : (Nat.toDigits 10 n).head? ≠ some '0' := by
  induction n using Nat.strongRecOn with
  | ind n ih =>
      rw [Nat.toDigits_eq_if (by omega)]
      split
      · rename_i hlt
        have hc : ∀ d < 10, d ≠ 0 → Nat.digitChar d ≠ '0' := by decide
        simpa using hc n hlt hn
      · have hne : n / 10 ≠ 0 := by omega
        have hd := ih (n / 10) (by omega) hne
        cases ht : Nat.toDigits 10 (n / 10) with
        | nil => exact absurd ht Nat.toDigits_ne_nil
        | cons c cs =>
            rw [ht] at hd
            exact hd

end Digits

theorem Decimal.read?_of_digits {cs : List Char} (hn : cs ≠ []) (h : ∀ c ∈ cs, c.isDigit) :
    read? cs = some (false, ⟨Digits.value 10 cs, 0⟩) ∧ read? ('-' :: cs) = some (true, ⟨Digits.value 10 cs, 0⟩) := by
  cases cs with
  | nil => exact absurd rfl hn
  | cons c cs =>
      have hc := h c (.head _)
      have hne : c ≠ '-' ∧ c ≠ '+' := by constructor <;> (rintro rfl; revert hc; decide)
      have htake : (c :: cs ++ []).takeWhile Char.isDigit = c :: cs ++ [].takeWhile Char.isDigit :=
        List.takeWhile_append_of_pos h
      have hdrop : (c :: cs ++ []).dropWhile Char.isDigit = [].dropWhile Char.isDigit :=
        List.dropWhile_append_of_pos h
      rw [List.append_nil] at htake hdrop
      constructor
      · unfold read?
        simp [hne, htake, hdrop]
      · unfold read?
        simp [htake, hdrop]

theorem Decimal.read?_toDigits (n : Nat) : read? (Nat.toDigits 10 n) = some (false, ⟨n, 0⟩) := by
  rw [(read?_of_digits Nat.toDigits_ne_nil Digits.isDigit_toDigits).1, Digits.value_toDigits]

theorem Decimal.rank_of_lt {n : Nat} (h : n < 10 ^ 30) : (Decimal.mk n 0).rank = Binary64.nearest n 1 := by
  have hw : width n ≤ 30 := (Nat.length_toDigits_le_iff (by omega) (by omega)).2 h
  by_cases hn : n = 0
  · simp [rank, hn, Binary64.nearest_zero]
  · have hlow : ¬(width n : Int) < -330 := by omega
    have hhigh : ¬310 < (width n : Int) := by omega
    simp [rank, hn, hlow, hhigh]

namespace Numeral

/-- A numeral of digits and points that is not octal is a decimal one. -/
theorem magnitude?_eq_decimal? {cs : List Char} (hn : cs ≠ []) (h : ∀ c ∈ cs, c.isDigit ∨ c = '.')
    (hoct : ¬(1 < cs.length ∧ cs.head? = some '0' ∧ cs.all Char.isDigit)) : magnitude? cs = decimal? cs := by
  have hmark : cs ≠ [] ∧ cs.all isDecimalMark := by
    refine ⟨hn, List.all_eq_true.2 fun c hc => ?_⟩
    rcases h c hc with hd | rfl
    · simp [isDecimalMark, hd]
    · rfl
  unfold magnitude?
  split
  · exact absurd (h 'x' (by simp)) (by decide)
  · exact absurd (h 'b' (by simp)) (by decide)
  · exact absurd (h 'o' (by simp)) (by decide)
  · rw [if_neg hoct, if_pos hmark]

theorem magnitude?_toDigits {n : Nat} (h : n < 10 ^ 15) :
    magnitude? (Nat.toDigits 10 n) = some ⟨false, Binary64.nearest n 1⟩ := by
  have hall : ∀ c ∈ Nat.toDigits 10 n, c.isDigit := Digits.isDigit_toDigits
  have hlt : n < 10 ^ 30 := by omega
  have hdec : decimal? (Nat.toDigits 10 n) = some ⟨false, Binary64.nearest n 1⟩ := by
    simp only [decimal?, Decimal.read?_toDigits, Option.map_some, Decimal.rank_of_lt hlt]
  have hoct : ¬(1 < (Nat.toDigits 10 n).length ∧ (Nat.toDigits 10 n).head? = some '0' ∧
      (Nat.toDigits 10 n).all Char.isDigit) := by
    rintro ⟨hlen, hz, _⟩
    by_cases hn : n = 0
    · simp [hn] at hlen
    · exact Digits.head_toDigits hn hz
  rw [magnitude?_eq_decimal? Nat.toDigits_ne_nil (fun c hc => .inl (hall c hc)) hoct, hdec]

theorem toLower_of_isDigit {c : Char} (h : c.isDigit) : c.toLower = c := by
  simp only [Char.isDigit, Bool.and_eq_true, decide_eq_true_eq, ge_iff_le, UInt32.le_iff_toNat_le] at h
  have h9 : ('9' : Char).val.toNat = 57 := rfl
  have hA : ('A' : Char).val.toNat = 65 := rfl
  rw [Char.toLower, dif_neg]
  rw [ge_iff_le, UInt32.le_iff_toNat_le]
  omega

theorem map_toLower_of_digits {cs : List Char} (h : ∀ c ∈ cs, c.isDigit) : cs.map Char.toLower = cs := by
  rw [List.map_congr_left fun c hc => (toLower_of_isDigit (h c hc)).trans (id_eq (a := c)).symm, List.map_id]

theorem read?_of_unsigned {cs : List Char} (h : ∀ c ∈ cs, c.isDigit ∨ c = '.') :
    read? (String.ofList cs) = magnitude? cs := by
  have hsep : cs.filter (· != '_') = cs := by
    rw [List.filter_eq_self]
    intro c hc
    rcases h c hc with hd | rfl
    · rw [bne_iff_ne]
      rintro rfl
      cases hd
    · rfl
  have hlower : cs.map Char.toLower = cs := by
    have hc : ∀ c ∈ cs, c.toLower = id c := by
      intro c hc
      rcases h c hc with hd | rfl
      · exact toLower_of_isDigit hd
      · rfl
    rw [List.map_congr_left hc, List.map_id]
  simp only [read?, String.toList_ofList, hsep]
  split
  · exact absurd (h '-' (.head _)) (by decide)
  · rw [hlower]

theorem read?_of_digits {cs : List Char} (h : ∀ c ∈ cs, c.isDigit) :
    read? (String.ofList cs) = magnitude? cs ∧
      read? (String.ofList ('-' :: cs)) = (magnitude? cs).map Binary64.neg := by
  refine ⟨read?_of_unsigned fun c hc => .inl (h c hc), ?_⟩
  have hsep : cs.filter (· != '_') = cs := by
    rw [List.filter_eq_self]
    intro c hc
    rw [bne_iff_ne]
    rintro rfl
    cases h '_' hc
  have htrim : Text.trimStart cs = cs := by
    cases cs with
    | nil => rfl
    | cons c cs =>
        apply List.dropWhile_cons_of_neg
        intro hb
        have hd := h c (.head _)
        simp [Text.not_isDigit_of_isBlank hb] at hd
  simp [read?, hsep, htrim, map_toLower_of_digits h]

theorem read?_repr {i : Int} (h : i.natAbs < 10 ^ 15) : read? i.repr = some (.ofInt i) := by
  have hall (n : Nat) : ∀ c ∈ Nat.toDigits 10 n, c.isDigit := Digits.isDigit_toDigits
  cases i with
  | ofNat n =>
      have hn : n < 10 ^ 15 := h
      rw [Int.repr, Nat.repr_eq_ofList_toDigits, (read?_of_digits (hall n)).1, magnitude?_toDigits hn]
      simp [Binary64.ofInt]
  | negSucc n =>
      have hn : n + 1 < 10 ^ 15 := h
      have he : "-" ++ String.ofList (Nat.toDigits 10 (n + 1)) =
          String.ofList ('-' :: Nat.toDigits 10 (n + 1)) := by
        rw [← String.toList_inj]
        simp
      rw [Int.repr, Nat.repr_eq_ofList_toDigits, Nat.succ_eq_add_one, he, (read?_of_digits (hall (n + 1))).2,
        magnitude?_toDigits hn]
      simp [Binary64.ofInt, Binary64.neg, Int.negSucc_lt_zero]

end Numeral

namespace Script

-- Unfolded at a rank, the definition would have its power of two evaluated.
theorem magnitudeText_eq : magnitudeText = fun rank =>
    match (Binary64.integer? rank).filter (· < 1000000000000000) with
    | some n => Nat.toDigits 10 n
    | none => (Decimal.shortest .up rank).positional := by
  delta magnitudeText
  rfl

theorem magnitudeText_of_integer {rank n : Nat} (hi : Binary64.integer? rank = some n) (h : n < 10 ^ 15) :
    magnitudeText rank = Nat.toDigits 10 n := by
  have hf : (Binary64.integer? rank).filter (· < 1000000000000000) = some n := by
    have hlt : n < 1000000000000000 := h
    rw [hi, Option.filter_some, if_pos (decide_eq_true hlt)]
  rw [magnitudeText_eq]
  simp only [hf]

theorem numberText_of_denotes {x : Binary64} {i : Int} (h : x.Denotes i) (hi : i.natAbs < 10 ^ 15) :
    numberText x = i.repr := by
  rw [numberText, magnitudeText_of_integer h.1 hi, h.2]
  cases i with
  | ofNat n => simp [Int.repr, Nat.repr_eq_ofList_toDigits]
  | negSucc n =>
      rw [Int.repr, Nat.repr_eq_ofList_toDigits, ← String.toList_inj]
      simp [Int.negSucc_lt_zero]

theorem numberText_ofInt {i : Int} (h : i.natAbs < 10 ^ 15) : numberText (.ofInt i) = i.repr :=
  numberText_of_denotes (Binary64.denotes_ofInt (by omega)) h

theorem exists_numberText {x : Binary64} {n : Nat} (h : Binary64.integer? x.rank = some n) (hn : n < 10 ^ 15) :
    ∃ i : Int, i.natAbs < 10 ^ 15 ∧ x.Equals (.ofInt i) ∧ numberText x = i.repr := by
  obtain ⟨i, hi, hd⟩ : ∃ i : Int, i.natAbs = n ∧ x.Denotes i := by
    cases hb : x.isBelowZero with
    | true =>
        have hz : n ≠ 0 := by
          rintro rfl
          rw [Binary64.isBelowZero, ← Binary64.nearest_of_integer? h (by omega), Binary64.nearest_zero] at hb
          simp at hb
        refine ⟨-n, by rw [Int.natAbs_neg, Int.natAbs_natCast], ?_, ?_⟩
        · rwa [Int.natAbs_neg, Int.natAbs_natCast]
        · rw [hb, eq_comm, decide_eq_true_eq]
          omega
    | false => exact ⟨n, Int.natAbs_natCast n, by rwa [Int.natAbs_natCast], by simp [hb]⟩
  have hlt : i.natAbs < 10 ^ 15 := hi ▸ hn
  exact ⟨i, hlt, hd.equals (by omega), numberText_of_denotes hd hlt⟩

theorem Literal.ofScalar_number {numeral : String} {x : Binary64} (hx : Numeral.read? numeral = some x)
    (hf : x.isFinite) : ofScalar (.number numeral) = .ok ⟨.number x, numberText x⟩ := by
  simp only [ofScalar, hx, Option.filter_some, if_pos hf]

theorem Literal.ofScalar_of_none {numeral : String} (h : (Numeral.read? numeral).filter Binary64.isFinite = none) :
    ofScalar (.number numeral) = .error (.number numeral) := by
  simp only [ofScalar, h]

theorem Literal.ofScalar_repr {i : Int} (h : i.natAbs < 10 ^ 15) :
    ofScalar (.number i.repr) = .ok ⟨.number (.ofInt i), i.repr⟩ := by
  have hlt : i.natAbs < 2 ^ 53 := by omega
  rw [ofScalar_number (Numeral.read?_repr h) ((Binary64.denotes_ofInt hlt).isFinite hlt), numberText_ofInt h]

end Script

end PhpTranspiler
