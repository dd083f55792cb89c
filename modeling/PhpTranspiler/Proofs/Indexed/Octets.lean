import PhpTranspiler.Proofs.Indexed.Access

namespace PhpTranspiler.Indexed

def octets (cs : List Char) : List UInt8 := cs.flatMap String.utf8EncodeChar

def octet (bs : List UInt8) (i : Nat) : Except Trap Char := (element bs i).map Char.ofUInt8

def octet? (bs : List UInt8) (i : Nat) : Option Char := bs[i]?.map Char.ofUInt8

def passWhile (p : Char → Bool) (bs : List UInt8) (i : Nat) : Except Trap Nat :=
  if _h : i < bs.length then do
    let b ← octet bs i
    if p b then passWhile p bs (i + 1) else return i
  else return i
termination_by bs.length - i

def IsHigh (b : UInt8) : Prop := 128 ≤ b.toNat

theorem isHigh_ofNat {n : Nat} (hl : 128 ≤ n) (hu : n < 256) : IsHigh (UInt8.ofNat n) := by
  rw [IsHigh, UInt8.toNat_ofNat', Nat.mod_eq_of_lt hu]
  exact hl

theorem toNat_ofUInt8 (b : UInt8) : (Char.ofUInt8 b).toNat = b.toNat := by
  simp [Char.ofUInt8, Char.toNat]

theorem utf8EncodeChar_cases (c : Char) :
    (c.toNat < 128 ∧ ∃ b, String.utf8EncodeChar c = [b] ∧ Char.ofUInt8 b = c) ∨
      (128 ≤ c.toNat ∧ ∃ b bs, String.utf8EncodeChar c = b :: bs ∧ IsHigh b ∧ ∀ x ∈ bs, IsHigh x) := by
  by_cases h : c.toNat < 128
  · refine .inl ⟨h, UInt8.ofNat c.toNat, ?_, ?_⟩
    · rw [String.utf8EncodeChar, if_pos (show c.val.toNat ≤ 127 from Nat.le_of_lt_succ h)]
      rfl
    · apply Char.ext
      apply UInt32.toNat_inj.1
      have he := toNat_ofUInt8 (UInt8.ofNat c.toNat)
      rw [UInt8.toNat_ofNat', Nat.mod_eq_of_lt (by omega)] at he
      exact he
  · refine .inr ⟨by omega, ?_⟩
    have h1 : ¬c.val.toNat ≤ 127 := fun hc => h (Nat.lt_succ_of_le hc)
    have hmod (n m k : Nat) (hm : 0 < m) (hk : 128 ≤ k) (hs : k + m ≤ 256) : IsHigh (UInt8.ofNat (n % m + k)) := by
      have hlt := Nat.mod_lt n hm
      exact isHigh_ofNat (by omega) (by omega)
    have hlow (n : Nat) : IsHigh (UInt8.ofNat (n % 64 + 128)) := hmod n 64 128 (by decide) (by decide) (by decide)
    simp only [String.utf8EncodeChar, h1, if_false]
    split
    · refine ⟨_, _, rfl, hmod _ 32 192 (by decide) (by decide) (by decide), ?_⟩
      simp only [List.forall_mem_cons, List.not_mem_nil, false_implies, implies_true, and_true]
      exact hlow _
    · split
      · refine ⟨_, _, rfl, hmod _ 16 224 (by decide) (by decide) (by decide), ?_⟩
        simp only [List.forall_mem_cons, List.not_mem_nil, false_implies, implies_true, and_true]
        exact ⟨hlow _, hlow _⟩
      · refine ⟨_, _, rfl, hmod _ 8 240 (by decide) (by decide) (by decide), ?_⟩
        simp only [List.forall_mem_cons, List.not_mem_nil, false_implies, implies_true, and_true]
        exact ⟨hlow _, hlow _, hlow _⟩

theorem octets_cons (c : Char) (cs : List Char) : octets (c :: cs) = String.utf8EncodeChar c ++ octets cs :=
  List.flatMap_cons

theorem octets_append (cs ds : List Char) : octets (cs ++ ds) = octets cs ++ octets ds := List.flatMap_append

theorem length_octets (cs : List Char) : (octets cs).length = Text.size cs := by
  induction cs with
  | nil => rfl
  | cons c cs ih => rw [octets_cons, List.length_append, ih, String.length_utf8EncodeChar, Text.size_cons]

theorem utf8Size_of_lt {c : Char} (h : c.toNat < 128) : c.utf8Size = 1 := by
  apply Char.utf8Size_eq_one_iff.2
  rw [UInt32.le_iff_toNat_le]
  exact Nat.le_of_lt_succ h

/-- The bytes from `i` on are those of `cs`. -/
def At (bs : List UInt8) (i : Nat) (cs : List Char) : Prop := Rest bs i (octets cs)

section

variable {bs : List UInt8} {i : Nat} {c : Char} {cs : List Char}

theorem Rest.read {b : UInt8} {ys : List UInt8} (h : Rest bs i (b :: ys)) : octet bs i = .ok (Char.ofUInt8 b) := by
  rw [octet, h.element]
  rfl

theorem At.nil (h : At bs i []) : bs.length = i := by simpa [octets] using h.length_eq

theorem At.append {ds : List Char} (h : At bs i (cs ++ ds)) : At bs (i + Text.size cs) ds := by
  rw [At, octets_append] at h
  rw [At, ← length_octets]
  exact Rest.append h

theorem At.tail (h : At bs i (c :: cs)) : At bs (i + c.utf8Size) cs := by
  simpa using At.append (show At bs i ([c] ++ cs) from h)

theorem At.lt (h : At bs i (c :: cs)) : i < bs.length := by
  have hl := h.length_eq
  have hc := c.utf8Size_pos
  rw [length_octets, Text.size_cons] at hl
  omega

/-- What a byte shows of the character that starts with it: all of it, or that it is not of ASCII. -/
theorem At.read (h : At bs i (c :: cs)) :
    ∃ b, octet bs i = .ok b ∧ (b = c ∧ c.toNat < 128 ∨ 128 ≤ b.toNat ∧ 128 ≤ c.toNat) := by
  rw [At, octets_cons] at h
  rcases utf8EncodeChar_cases c with ⟨hc, b, hb, he⟩ | ⟨hc, b, hs, hb, hh, _⟩
  · rw [hb] at h
    exact ⟨_, Rest.read h, .inl ⟨he, hc⟩⟩
  · rw [hb] at h
    exact ⟨_, Rest.read h, .inr ⟨by rw [toNat_ofUInt8]; exact hh, hc⟩⟩

theorem octet?_of_octet {b : Char} (h : octet bs i = .ok b) : octet? bs i = some b := by
  unfold octet element at h
  split at h
  · rename_i x hx
    rw [octet?, hx]
    exact congrArg some (Except.ok.inj h)
  · cases h

/-- A test that all characters outside of ASCII pass, or none of them, gives the same on bytes as on characters. -/
theorem At.octet?_any {p : Char → Bool} {all : Bool} (h : At bs i cs) (hp : ∀ x : Char, 128 ≤ x.toNat → p x = all) :
    (octet? bs i).any p = cs.head?.any p := by
  cases cs with
  | nil =>
      rw [octet?, List.getElem?_eq_none (by rw [h.nil])]
      rfl
  | cons c cs =>
      obtain ⟨b, hb, hc⟩ := h.read
      rw [octet?_of_octet hb]
      rcases hc with ⟨rfl, _⟩ | ⟨hb, hc⟩
      · rfl
      · simp [hp b hb, hp c hc]

theorem ne_of_le_toNat {d : Char} (hd : d.toNat < 128) (h : 128 ≤ c.toNat) : c ≠ d := by
  rintro rfl
  omega

theorem At.octet?_eq {d : Char} (h : At bs i cs) (hd : d.toNat < 128) :
    octet? bs i = some d ↔ cs.head? = some d := by
  have ha := h.octet?_any (p := (· == d)) fun x hx => beq_eq_false_iff_ne.2 (ne_of_le_toNat hd hx)
  have hiff (o : Option Char) : o.any (· == d) ↔ o = some d := by cases o <;> simp
  rw [← hiff, ← hiff, ha]

theorem Rest.pass_high {α : Type} {f : Nat → Except Trap α} {hs ys : List UInt8} (h : Rest bs i (hs ++ ys))
    (hh : ∀ b ∈ hs, IsHigh b)
    (hf : ∀ j b, j < bs.length → octet bs j = .ok b → 128 ≤ b.toNat → f j = f (j + 1)) :
    f i = f (i + hs.length) := by
  induction hs generalizing i with
  | nil => rfl
  | cons b hs ih =>
      have hb : 128 ≤ (Char.ofUInt8 b).toNat := by
        rw [toNat_ofUInt8]
        exact hh b (.head _)
      rw [hf i _ h.lt h.read hb, ih h.tail fun x hx => hh x (.tail _ hx)]
      congr 1
      rw [List.length_cons]
      omega

theorem At.pass_high {α : Type} {f : Nat → Except Trap α} (h : At bs i (c :: cs)) (hc : 128 ≤ c.toNat)
    (hf : ∀ j b, j < bs.length → octet bs j = .ok b → 128 ≤ b.toNat → f j = f (j + 1)) :
    f i = f (i + c.utf8Size) := by
  rw [At, octets_cons] at h
  rcases utf8EncodeChar_cases c with ⟨hc', _⟩ | ⟨_, b, hs, hb, hh, hhs⟩
  · omega
  · rw [← String.length_utf8EncodeChar]
    apply Rest.pass_high h _ hf
    rw [hb]
    intro x hx
    rcases List.mem_cons.1 hx with rfl | hx
    · exact hh
    · exact hhs x hx

/-- What follows the first byte of a character: its other bytes, which are high, and the next characters. -/
theorem At.tail_high (h : At bs i (c :: cs)) :
    ∃ hs, Rest bs (i + 1) (hs ++ octets cs) ∧ (∀ b ∈ hs, IsHigh b) ∧ hs.length + 1 = c.utf8Size := by
  rw [At, octets_cons] at h
  rcases utf8EncodeChar_cases c with ⟨_, b, hb, _⟩ | ⟨_, b, hs, hb, _, hhs⟩
  · rw [hb] at h
    exact ⟨[], Rest.tail h, by simp, by rw [← String.length_utf8EncodeChar, hb]; rfl⟩
  · rw [hb] at h
    exact ⟨hs, Rest.tail h, hhs, by rw [← String.length_utf8EncodeChar, hb]; rfl⟩

theorem passWhile_of_pos {p : Char → Bool} {b : Char} (hl : i < bs.length) (hb : octet bs i = .ok b) (hp : p b) :
    passWhile p bs i = passWhile p bs (i + 1) := by
  conv_lhs => rw [passWhile]
  rw [dif_pos hl, hb, ok_bind, if_pos hp]

theorem passWhile_of_neg {p : Char → Bool} {b : Char} (hl : i < bs.length) (hb : octet bs i = .ok b)
    (hp : p b = false) : passWhile p bs i = .ok i := by
  rw [passWhile, dif_pos hl, hb, ok_bind, hp]
  rfl

theorem At.passWhile_eq {p : Char → Bool} {all : Bool} (hp : ∀ x : Char, 128 ≤ x.toNat → p x = all)
    (h : At bs i cs) : passWhile p bs i = .ok (i + Text.size (cs.takeWhile p)) := by
  induction cs generalizing i with
  | nil =>
      rw [passWhile, dif_neg (by rw [h.nil]; omega)]
      rfl
  | cons c cs ih =>
      obtain ⟨b, hb, hc⟩ := h.read
      have hpc : p b = p c := by
        rcases hc with ⟨rfl, _⟩ | ⟨hb, hc⟩
        · rfl
        · rw [hp b hb, hp c hc]
      cases hpb : p c with
      | false =>
          rw [passWhile_of_neg h.lt hb (hpc.trans hpb), List.takeWhile_cons_of_neg (by simp [hpb])]
          rfl
      | true =>
          have hstep : passWhile p bs i = passWhile p bs (i + c.utf8Size) := by
            rcases hc with ⟨rfl, hlt⟩ | ⟨_, hc⟩
            · rw [utf8Size_of_lt hlt]
              exact passWhile_of_pos h.lt hb hpb
            · apply h.pass_high hc
              intro j x hj hx hh
              exact passWhile_of_pos hj hx (by rw [hp x hh, ← hp c hc, hpb])
          rw [hstep, ih h.tail, List.takeWhile_cons_of_pos hpb, Text.size_cons, Nat.add_assoc]

end

end PhpTranspiler.Indexed
