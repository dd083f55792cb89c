import PhpTranspiler.Proofs.Integers

namespace PhpTranspiler

namespace Binary64

theorem roundHalfEven_eq {n d k : Nat} (hl : 2 * (k * d) ≤ 2 * n + d) (hu : 2 * n ≤ 2 * (k * d) + d) (hd : 0 < d)
    (hodd : k % 2 = 1 → 2 * (k * d) < 2 * n + d ∧ 2 * n < 2 * (k * d) + d) : roundHalfEven n d = k := by
  have hdiv := Nat.div_add_mod n d
  have hmod := Nat.mod_lt n hd
  rw [Nat.mul_comm] at hdiv
  simp only [roundHalfEven]
  generalize n / d = q at *
  generalize n % d = r at *
  have hle : q ≤ k := by
    by_contra h
    have hmul := Nat.mul_le_mul_right d (show k + 1 ≤ q by omega)
    rw [Nat.add_mul] at hmul
    omega
  have hge : k ≤ q + 1 := by
    by_contra h
    have hmul := Nat.mul_le_mul_right d (show q + 2 ≤ k by omega)
    rw [Nat.add_mul] at hmul
    omega
  rcases Nat.lt_or_ge q k with hlt | hge'
  · obtain rfl : k = q + 1 := by omega
    rw [Nat.add_mul] at *
    rw [if_pos (by omega)]
  · obtain rfl : k = q := by omega
    rw [if_neg (by omega)]

theorem log2_div_sub {n d e : Nat} (hd : 0 < d) (hl : e ≠ 0 → binade * (2 ^ e * d) ≤ n)
    (hu : n < 2 * binade * (2 ^ e * d)) : (n / d).log2 - 52 = e := by
  have hb : binade = 2 ^ 52 := rfl
  have hb' : 2 * binade = 2 ^ 53 := rfl
  have hq : n / d < 2 ^ (53 + e) := by
    rw [Nat.div_lt_iff_lt_mul hd, Nat.pow_add, Nat.mul_assoc, ← hb']
    exact hu
  have hle : (n / d).log2 < 53 + e := by
    by_cases hz : n / d = 0
    · rw [hz, Nat.log2_zero]
      omega
    · exact (Nat.log2_lt hz).2 hq
  by_cases he : e = 0
  · omega
  · have hge : 2 ^ (52 + e) ≤ n / d := by
      rw [Nat.le_div_iff_mul_le hd, Nat.pow_add, Nat.mul_assoc, ← hb]
      exact hl he
    have hpos := Nat.two_pow_pos (52 + e)
    have hlog := (Nat.le_log2 (by omega)).2 hge
    omega

theorem nearest_of_near {n d e k : Nat} (hd : 0 < d) (hl : e ≠ 0 → binade * (2 ^ e * d) ≤ n * oneUnits)
    (hu : n * oneUnits < 2 * binade * (2 ^ e * d)) (hlow : 2 * (k * (2 ^ e * d)) ≤ 2 * (n * oneUnits) + 2 ^ e * d)
    (hhigh : 2 * (n * oneUnits) ≤ 2 * (k * (2 ^ e * d)) + 2 ^ e * d)
    (hodd : k % 2 = 1 → 2 * (k * (2 ^ e * d)) < 2 * (n * oneUnits) + 2 ^ e * d ∧
      2 * (n * oneUnits) < 2 * (k * (2 ^ e * d)) + 2 ^ e * d) :
    nearest n d = min infinityRank (e * binade + k) := by
  have hpow (a b : Nat) : Nat.pow a b = a ^ b := rfl
  have hround := roundHalfEven_eq hlow hhigh (Nat.mul_pos (Nat.two_pow_pos e) hd) hodd
  simp only [nearest, log2_div_sub hd hl hu, hpow, Nat.mul_comm d, hround]

/-- The lower end of the numbers that round to a magnitude, as a multiple of `2 ^ -1075`. Below a power of two the
magnitudes lie closer. -/
def lowest (rank : Nat) : Nat :=
  if mantissa rank = binade ∧ 0 < shift rank then
    2 * mantissa rank * Nat.pow 2 (shift rank) - Nat.pow 2 (shift rank - 1)
  else 2 * mantissa rank * Nat.pow 2 (shift rank) - Nat.pow 2 (shift rank)

def highest (rank : Nat) : Nat := 2 * mantissa rank * Nat.pow 2 (shift rank) + Nat.pow 2 (shift rank)

/-- The quotient `n / d` is one of the numbers that round to a magnitude. The two ends are if the mantissa is even. -/
structure Rounds (rank n d : Nat) : Prop where
  low : lowest rank * d ≤ 2 * (n * oneUnits)
  high : 2 * (n * oneUnits) ≤ highest rank * d
  odd : mantissa rank % 2 = 1 → lowest rank * d < 2 * (n * oneUnits) ∧ 2 * (n * oneUnits) < highest rank * d

/-- A quotient that is less than a power of two and is rounded up to it lies in the binade below it. -/
theorem nearest_of_below {n d e : Nat} (hd : 0 < d)
    (hlow : 2 * (binade * (2 ^ (e + 1) * d)) ≤ 2 * (n * oneUnits) + 2 ^ e * d)
    (hn : n * oneUnits < binade * (2 ^ (e + 1) * d)) :
    nearest n d = min infinityRank ((e + 1) * binade + binade) := by
  have heven : binade % 2 = 0 := by decide
  have hdouble : binade * (2 ^ (e + 1) * d) = 2 * (binade * (2 ^ e * d)) := by
    rw [Nat.pow_succ, Nat.mul_comm _ 2, Nat.mul_assoc, Nat.mul_left_comm]
  rw [hdouble] at hlow hn
  have hD : 0 < 2 ^ e * d := Nat.mul_pos (Nat.two_pow_pos e) hd
  have hle : 2 ^ e * d ≤ binade * (2 ^ e * d) := Nat.le_mul_of_pos_left _ (by decide)
  have hnear := @nearest_of_near n d e (2 * binade) hd (fun _ => by omega) (by rw [Nat.mul_assoc]; omega)
    (by rw [Nat.mul_assoc]; omega) (by rw [Nat.mul_assoc]; omega) (by omega)
  have he : (e + 1) * binade + binade = e * binade + 2 * binade := by rw [Nat.add_mul]; omega
  rw [hnear, he]

theorem Rounds.nearest_eq_of_lt {rank n d : Nat} (h : Rounds rank n d) (hd : 0 < d) (hlt : rank < binade) :
    nearest n d = rank := by
  obtain ⟨hlow, hhigh, hodd⟩ := h
  have hpow (k : Nat) : Nat.pow 2 k = 2 ^ k := rfl
  have hs : shift rank = 0 := by rw [shift, Nat.div_eq_of_lt hlt]
  have hm : mantissa rank = rank := by rw [mantissa, hs, Nat.zero_mul, Nat.sub_zero]
  have hfin : binade < infinityRank := by decide
  simp only [lowest, highest, hpow, Nat.add_mul, ite_mul, Nat.sub_mul, Nat.mul_assoc] at hlow hhigh hodd
  rw [hs, hm, if_neg (by omega)] at hlow hodd
  rw [hs, hm] at hhigh
  have hfit : (rank + 1) * (2 ^ 0 * d) ≤ binade * (2 ^ 0 * d) := Nat.mul_le_mul_right _ hlt
  rw [Nat.add_mul] at hfit
  have hD : 0 < 2 ^ 0 * d := by simpa using hd
  have hnear := @nearest_of_near n d 0 rank hd (by simp) (by rw [Nat.mul_assoc]; omega) (by omega) (by omega) (by omega)
  rw [hnear, Nat.zero_mul, Nat.zero_add, Nat.min_eq_right (by omega)]

theorem Rounds.nearest_eq {rank n d : Nat} (h : Rounds rank n d) (hd : 0 < d) (hlt : rank < infinityRank) :
    nearest n d = rank := by
  by_cases hsub : rank < binade
  · exact h.nearest_eq_of_lt hd hsub
  obtain ⟨hlow, hhigh, hodd⟩ := h
  have hpow (k : Nat) : Nat.pow 2 k = 2 ^ k := rfl
  have heven : binade % 2 = 0 := by decide
  simp only [lowest, highest, hpow, Nat.add_mul, ite_mul, Nat.sub_mul, Nat.mul_assoc] at hlow hhigh hodd
  obtain ⟨hr, hl, hu⟩ := mantissa_of_le (Nat.le_of_not_lt hsub)
  generalize mantissa rank = m at *
  generalize shift rank = e at *
  have hfit : (m + 1) * (2 ^ e * d) ≤ 2 * binade * (2 ^ e * d) := Nat.mul_le_mul_right _ hu
  rw [Nat.add_mul, Nat.mul_assoc 2 binade] at hfit
  have hD : 0 < 2 ^ e * d := Nat.mul_pos (Nat.two_pow_pos e) hd
  by_cases hbelow : (m = binade ∧ 0 < e) ∧ n * oneUnits < binade * (2 ^ e * d)
  · obtain ⟨⟨rfl, he⟩, hn⟩ := hbelow
    obtain ⟨e, rfl⟩ := Nat.exists_eq_add_one_of_ne_zero (by omega : e ≠ 0)
    rw [if_pos ⟨rfl, he⟩, Nat.add_sub_cancel] at hlow
    rw [nearest_of_below hd (by omega) hn, ← hr, Nat.min_eq_right (by omega)]
  · have hbin : e ≠ 0 → binade * (2 ^ e * d) ≤ n * oneUnits := by
      intro he
      by_cases hm : m = binade
      · by_contra hn
        exact hbelow ⟨⟨hm, by omega⟩, by omega⟩
      · rw [if_neg (fun hc => hm hc.1)] at hlow
        have hle : (binade + 1) * (2 ^ e * d) ≤ m * (2 ^ e * d) := Nat.mul_le_mul_right _ (by omega)
        rw [Nat.add_mul] at hle
        omega
    have hlow' : 2 * (m * (2 ^ e * d)) ≤ 2 * (n * oneUnits) + 2 ^ e * d := by
      by_cases hc : m = binade ∧ 0 < e
      · have hge := hbin (by omega)
        rw [hc.1]
        omega
      · rw [if_neg hc] at hlow
        omega
    have hodd' (hm : m % 2 = 1) : 2 * (m * (2 ^ e * d)) < 2 * (n * oneUnits) + 2 ^ e * d ∧
        2 * (n * oneUnits) < 2 * (m * (2 ^ e * d)) + 2 ^ e * d := by
      rw [if_neg (by omega)] at hodd
      have hends := hodd hm
      omega
    have hnear := nearest_of_near hd hbin (by rw [Nat.mul_assoc]; omega) hlow' hhigh hodd'
    rw [hnear, ← hr, Nat.min_eq_right (by omega)]

theorem rounds_iff {rank n d : Nat} :
    Rounds rank n d ↔
      if mantissa rank % 2 = 0 then
        lowest rank * d ≤ 2 * (n * oneUnits) ∧ 2 * (n * oneUnits) ≤ highest rank * d
      else lowest rank * d < 2 * (n * oneUnits) ∧ 2 * (n * oneUnits) < highest rank * d := by
  constructor
  · intro h
    split
    · exact ⟨h.low, h.high⟩
    · exact h.odd (by omega)
  · intro h
    split at h
    · exact ⟨h.1, h.2, fun ho => by omega⟩
    · exact ⟨h.1.le, h.2.le, fun _ => h⟩

instance (rank n d : Nat) : Decidable (Rounds rank n d) := decidable_of_iff _ rounds_iff.symm

theorem Rounds.of_mul_eq {rank n d n' d' : Nat} (h : Rounds rank n d) (hd : 0 < d) (hd' : 0 < d')
    (he : n * d' = n' * d) : Rounds rank n' d' := by
  have hscale : 2 * (n * oneUnits) * d' = 2 * (n' * oneUnits) * d := by
    rw [Nat.mul_assoc, Nat.mul_right_comm n, he, Nat.mul_right_comm n', ← Nat.mul_assoc]
  have hswap (a : Nat) : a * d * d' = a * d' * d := Nat.mul_right_comm a d d'
  constructor
  · have hle := Nat.mul_le_mul_right d' h.low
    rw [hscale, hswap] at hle
    exact Nat.le_of_mul_le_mul_right hle hd
  · have hle := Nat.mul_le_mul_right d' h.high
    rw [hscale, hswap] at hle
    exact Nat.le_of_mul_le_mul_right hle hd
  · intro hm
    obtain ⟨hl, hu⟩ := h.odd hm
    replace hl := Nat.mul_lt_mul_of_pos_right hl hd'
    replace hu := Nat.mul_lt_mul_of_pos_right hu hd'
    rw [hscale, hswap] at hl hu
    exact ⟨Nat.lt_of_mul_lt_mul_right hl, Nat.lt_of_mul_lt_mul_right hu⟩

section

variable {rank : Nat}

theorem mantissa_pos (h : 0 < rank) : 0 < mantissa rank := by
  by_cases hlow : rank < binade
  · rw [mantissa, shift, Nat.div_eq_of_lt hlow]
    omega
  · obtain ⟨_, hl, _⟩ := mantissa_of_le (Nat.le_of_not_lt hlow)
    exact Nat.lt_of_lt_of_le (by decide) hl

theorem mantissa_lt (rank : Nat) : mantissa rank < 2 * binade := by
  by_cases hlow : rank < binade
  · rw [mantissa]
    omega
  · exact (mantissa_of_le (Nat.le_of_not_lt hlow)).2.2

theorem shift_le (h : rank < infinityRank) : shift rank ≤ 2045 := by
  have hb : 0 < binade := by decide
  have hq : rank / binade < 2047 := (Nat.div_lt_iff_lt_mul hb).2 h
  rw [shift]
  omega

theorem ends (h : 0 < rank) :
    0 < lowest rank ∧ lowest rank < 2 * units rank ∧ 2 * units rank < highest rank := by
  have hm := mantissa_pos h
  have hpow (k : Nat) : Nat.pow 2 k = 2 ^ k := rfl
  simp only [lowest, highest, units, hpow, Nat.mul_assoc 2]
  have hpos := Nat.two_pow_pos (shift rank)
  have hpos' := Nat.two_pow_pos (shift rank - 1)
  have hle : 2 ^ shift rank ≤ mantissa rank * 2 ^ shift rank := Nat.le_mul_of_pos_left _ hm
  have hle' : 2 ^ (shift rank - 1) ≤ 2 ^ shift rank := Nat.pow_le_pow_right (by decide) (Nat.sub_le _ _)
  split <;> omega

/-- The interval is more than one part in `10 ^ 16` of the magnitude. -/
theorem units_lt_interval (rank : Nat) : 10 ^ 16 * lowest rank + 2 * units rank < 10 ^ 16 * highest rank := by
  have hu := mantissa_lt rank
  have hb : binade = 4503599627370496 := rfl
  have hpow (k : Nat) : Nat.pow 2 k = 2 ^ k := rfl
  simp only [lowest, highest, units, hpow, Nat.mul_assoc 2]
  generalize mantissa rank = m at *
  generalize shift rank = e at *
  have hpos := Nat.two_pow_pos e
  split
  · -- Below a power of two the interval is half as wide, but the mantissa is the least one.
    rename_i hc
    obtain ⟨rfl, he⟩ := hc
    obtain ⟨e, rfl⟩ := Nat.exists_eq_add_one_of_ne_zero (by omega : e ≠ 0)
    rw [Nat.add_sub_cancel]
    rw [hb, Nat.pow_succ] at *
    omega
  · have hlt : m * 2 ^ e < 2 * binade * 2 ^ e := Nat.mul_lt_mul_of_pos_right hu hpos
    rw [hb] at hlt
    omega

theorem oneUnits_pos : 0 < oneUnits := by
  obtain ⟨_, _, hone⟩ := oneUnits_eq
  rw [hone]
  exact Nat.two_pow_pos _

theorem two_pow_le_ten_pow {b c : Nat} (k : Nat) (h : 2 ^ b ≤ 10 ^ c) : 2 ^ (93 * k + b) ≤ 10 ^ (28 * k + c) := by
  rw [Nat.pow_add, Nat.pow_add, Nat.pow_mul, Nat.pow_mul]
  exact Nat.mul_le_mul (Nat.pow_le_pow_left (by decide) k) h

-- The exponents are variables so that no power of this size is evaluated.
theorem oneUnits_le {k : Nat} (hk : k = 324) : 2 * oneUnits ≤ 10 ^ k := by
  obtain ⟨j, hj, hone⟩ := oneUnits_eq
  obtain ⟨i, hi⟩ : ∃ i, i = 11 := ⟨11, rfl⟩
  have hj' : j + 1 = 93 * i + 52 := by omega
  have hk' : k = 28 * i + 16 := by omega
  rw [hone, Nat.mul_comm, ← Nat.pow_add_one, hj', hk']
  exact two_pow_le_ten_pow i (by decide)

theorem highest_le (h : rank < infinityRank) {k : Nat} (hk : k = 309) : highest rank ≤ 2 * oneUnits * 10 ^ k := by
  obtain ⟨j, hj, hone⟩ := oneUnits_eq
  obtain ⟨i, hi⟩ : ∃ i, i = 11 := ⟨11, rfl⟩
  have hpow (k : Nat) : Nat.pow 2 k = 2 ^ k := rfl
  have hm : 2 * mantissa rank + 1 ≤ 2 ^ 54 := by
    have hlt := mantissa_lt rank
    have hb : 4 * binade = 2 ^ 54 := rfl
    omega
  have hs : 54 + shift rank ≤ 1 + j + (93 * i + 1) := by
    have hle := shift_le h
    omega
  have hten : 2 ^ (93 * i + 1) ≤ 10 ^ k := by
    have hk' : k = 28 * i + 1 := by omega
    rw [hk']
    exact two_pow_le_ten_pow i (by decide)
  calc
    highest rank = (2 * mantissa rank + 1) * 2 ^ shift rank := by rw [highest, hpow, Nat.add_mul, Nat.one_mul]
    _ ≤ 2 ^ 54 * 2 ^ shift rank := Nat.mul_le_mul_right _ hm
    _ = 2 ^ (54 + shift rank) := (Nat.pow_add ..).symm
    _ ≤ 2 ^ (1 + j + (93 * i + 1)) := Nat.pow_le_pow_right (by decide) hs
    _ = 2 * 2 ^ j * 2 ^ (93 * i + 1) := by rw [Nat.pow_add, Nat.pow_add, Nat.pow_one]
    _ ≤ 2 * 2 ^ j * 10 ^ k := Nat.mul_le_mul_left _ hten
    _ = 2 * oneUnits * 10 ^ k := by rw [hone]

/-- What rounds to a finite magnitude other than zero is far from the ends of the format's range. -/
theorem Rounds.range {n d j k : Nat} (hr : Rounds rank n d) (h : 0 < rank) (hlt : rank < infinityRank) (hk : k = 324)
    (hj : j = 309) : d ≤ n * 10 ^ k ∧ n ≤ d * 10 ^ j := by
  have hlow := hr.low
  have hhigh := hr.high
  have hone := oneUnits_le hk
  have htop := Nat.mul_le_mul_right d (highest_le hlt hj)
  have hpos := oneUnits_pos
  generalize oneUnits = u at *
  constructor
  · calc
      d ≤ lowest rank * d := Nat.le_mul_of_pos_left _ (ends h).1
      _ ≤ 2 * (n * u) := hlow
      _ = n * (2 * u) := Nat.mul_left_comm ..
      _ ≤ n * 10 ^ k := Nat.mul_le_mul_left _ hone
  · refine Nat.le_of_mul_le_mul_left ?_ (show 0 < 2 * u by omega)
    calc
      2 * u * n = 2 * (n * u) := by rw [Nat.mul_assoc, Nat.mul_comm u]
      _ ≤ highest rank * d := hhigh
      _ ≤ 2 * u * 10 ^ j * d := htop
      _ = 2 * u * (d * 10 ^ j) := by rw [Nat.mul_assoc, Nat.mul_comm d]

end

end Binary64

end PhpTranspiler
