import PhpTranspiler.Proofs.Indexed.Octets
import PhpTranspiler.Proofs.Relexing

namespace PhpTranspiler.Indexed

open Lexer

def closesAt (bs : List UInt8) (j : Nat) : Except Trap Bool := do
  if (← octet bs j) = '*' then return (← octet bs (j + 1)) = '/' else return false

def blockEnd (bs : List UInt8) (j : Nat) : Except Trap Nat :=
  if _h : j + 1 < bs.length then do
    if ← closesAt bs j then return j + 2 else blockEnd bs (j + 1)
  else return bs.length
termination_by bs.length - j

/-- Where a string ends that is open at `j`, and whether it is closed. A backslash takes the byte behind it with it,
which may be a part of a character only, or none at all. -/
def stringEnd (quote : Char) (bs : List UInt8) (j : Nat) : Except Trap (Nat × Bool) :=
  if _h : j < bs.length then do
    let b ← octet bs j
    if b = '\\' then stringEnd quote bs (j + 2)
    else if b = quote then return (j + 1, true)
    else stringEnd quote bs (j + 1)
  else return (bs.length, false)
termination_by bs.length - j

def isSignAt (bs : List UInt8) (i : Nat) (b : Char) : Except Trap Bool := do
  if b = '+' ∨ b = '-' then
    let previous ← octet bs (← minus i 1)
    return previous = 'e' || previous = 'E'
  else return false

def numberEnd (bs : List UInt8) (i : Nat) : Except Trap Nat :=
  if _h : i < bs.length then do
    let b ← octet bs i
    let isSign ← isSignAt bs i b
    if b.isAlphanum || b = '_' || b = '.' || isSign then numberEnd bs (i + 1) else return i
  else return i
termination_by bs.length - i

def gapEnd? (bs : List UInt8) (i : Nat) : Except Trap (Option Nat) := do
  let b ← octet bs i
  if Text.isAsciiBlank b then return some (← passWhile Text.isAsciiBlank bs i)
  else if b = '#' ∨ b = '/' ∧ octet? bs (i + 1) = some '/' then return some (← passWhile (· != '\n') bs i)
  else if b = '/' ∧ octet? bs (i + 1) = some '*' then return some (← blockEnd bs (i + 2))
  else return none

/-- The first `n` bytes of a text, if they are whole characters. -/
def start? (s : String) (n : Nat) : Option String :=
  if n ≤ s.utf8ByteSize ∧ isBoundary s.toList n then some (Text.slice s ⟨0, n⟩) else none

def lexemeAt (source : String) (bs : List UInt8) (i : Nat) : Except Trap (Token.Kind × Nat) := do
  let b ← octet bs i
  if b = '<' ∧ octet? bs (i + 1) = some '?' then
    let rest ← cut source (i + 2) source.utf8ByteSize
    if (start? rest 3).any (Text.sameWord · "php") then return (.openTag, i + 5)
    else if octet? bs (i + 2) = some '=' then return (.openTag, i + 3)
    else return (.openTag, i + 2)
  else if b = '?' ∧ octet? bs (i + 1) = some '>' then return (.closeTag, i + 2)
  else match Quote.ofChar? b with
    | some quote =>
      let (stop, closed) ← stringEnd b bs (i + 1)
      return (.quoted quote closed, stop)
    | none =>
      if b = '$' ∧ (octet? bs (i + 1)).any isWordStart then return (.variable, ← passWhile isWordRest bs (i + 1))
      else if b.isDigit then return (.number, ← numberEnd bs i)
      else if isWordStart b then return (.word, ← passWhile isWordRest bs i)
      else return (single b, i + 1)

structure Spot where
  kind : Token.Kind
  span : Span
  deriving DecidableEq, Repr

def Spot.ofToken (t : Token) : Spot := ⟨t.kind, t.span⟩

@[simp] theorem Spot.kind_ofToken (t : Token) : (Spot.ofToken t).kind = t.kind := rfl

@[simp] theorem Spot.span_ofToken (t : Token) : (Spot.ofToken t).span = t.span := rfl

def spotsFrom (source : String) (bs : List UInt8) : Nat → Nat → Except Trap (List Spot)
  | 0, _ => .error .endless
  | rounds + 1, i => do
    if i < bs.length then
      match ← gapEnd? bs i with
      | some next => spotsFrom source bs rounds next
      | none =>
        let (kind, stop) ← lexemeAt source bs i
        return ⟨kind, ⟨i, stop⟩⟩ :: (← spotsFrom source bs rounds stop)
    else return []

def tokenize (source : String) : Except Trap (List Spot) :=
  let bs := octets source.toList
  spotsFrom source bs (bs.length + 1) 0

section

variable {bs : List UInt8} {i j : Nat} {b c : Char} {cs : List Char}

theorem blockEnd_of_le (h : bs.length ≤ j + 1) : blockEnd bs j = .ok bs.length := by
  rw [blockEnd, dif_neg (by omega)]
  rfl

theorem blockEnd_of_ne (hb : octet bs j = .ok b) (hn : b ≠ '*') : blockEnd bs j = blockEnd bs (j + 1) := by
  by_cases hl : j + 1 < bs.length
  · have hc : closesAt bs j = .ok false := by
      rw [closesAt, hb, ok_bind, if_neg hn]
      rfl
    conv_lhs => rw [blockEnd]
    rw [dif_pos hl, hc, ok_bind]
    rfl
  · rw [blockEnd_of_le (by omega), blockEnd_of_le (by omega)]

theorem blockEnd_of_star (hl : j + 1 < bs.length) (hj : octet bs j = .ok '*') (hb : octet bs (j + 1) = .ok b) :
    blockEnd bs j = if b = '/' then .ok (j + 2) else blockEnd bs (j + 1) := by
  have hc : closesAt bs j = .ok (decide (b = '/')) := by
    rw [closesAt, hj, ok_bind, if_pos rfl, hb, ok_bind]
    rfl
  conv_lhs => rw [blockEnd]
  rw [dif_pos hl, hc, ok_bind]
  simp only [decide_eq_true_eq]
  rfl

theorem At.octet_of_lt (h : At bs i (c :: cs)) (hc : c.toNat < 128) : octet bs i = .ok c := by
  obtain ⟨b, hb, ⟨rfl, _⟩ | ⟨_, hh⟩⟩ := h.read
  · exact hb
  · omega

theorem At.tail_of_lt (h : At bs i (c :: cs)) (hc : c.toNat < 128) : At bs (i + 1) cs := by
  have ht := h.tail
  rwa [utf8Size_of_lt hc] at ht

/-- The first `n` characters of `cs` are the rest of a comment that is open at `j`. -/
def EndsBlock (bs : List UInt8) (j : Nat) (cs : List Char) (n : Nat) : Prop :=
  blockEnd bs j = .ok (j + Text.size (cs.take n)) ∧ gapLength .block cs = n + gapLength .blanks (cs.drop n)

theorem EndsBlock.pass {n : Nat} (h : EndsBlock bs (j + c.utf8Size) cs n)
    (hstep : blockEnd bs j = blockEnd bs (j + c.utf8Size)) (hn : ∀ ds, c = '*' → cs = '/' :: ds → False) :
    EndsBlock bs j (c :: cs) (n + 1) := by
  obtain ⟨he, hg⟩ := h
  constructor
  · rw [hstep, he, List.take_succ_cons, Text.size_cons, Nat.add_assoc]
  · rw [gapLength.eq_6 _ _ hn, hg, List.drop_succ_cons]
    omega

theorem At.endsBlock_star (h : At bs j ('*' :: cs)) (ih : ∃ n, EndsBlock bs (j + 1) cs n) :
    ∃ n, EndsBlock bs j ('*' :: cs) n := by
  obtain ⟨n, ih⟩ := ih
  have hj := h.octet_of_lt (by decide)
  have ht := h.tail_of_lt (by decide)
  cases cs with
  | nil =>
      refine ⟨n + 1, ih.pass ?_ (by simp)⟩
      rw [blockEnd_of_le (by rw [ht.nil])]
      exact (blockEnd_of_le (by rw [ht.nil]; omega)).symm
  | cons d ds =>
      obtain ⟨x, hx, hd⟩ := ht.read
      have hl := ht.lt
      by_cases hslash : d = '/'
      · subst hslash
        refine ⟨2, ?_, ?_⟩
        · rw [blockEnd_of_star hl hj (ht.octet_of_lt (by decide)), if_pos rfl]
          rfl
        · rw [gapLength, List.drop_succ_cons, List.drop_succ_cons, List.drop_zero, Nat.add_comm]
      · refine ⟨n + 1, ih.pass ?_ fun _ _ he => hslash (List.cons_eq_cons.1 he).1⟩
        have hxs : x ≠ '/' := by
          rcases hd with ⟨rfl, _⟩ | ⟨hx, _⟩
          · exact hslash
          · exact ne_of_le_toNat (by decide) hx
        rw [blockEnd_of_star hl hj hx, if_neg hxs]
        rfl

theorem At.endsBlock (h : At bs j cs) : ∃ n, EndsBlock bs j cs n := by
  induction cs generalizing j with
  | nil => exact ⟨0, by rw [blockEnd_of_le (by rw [h.nil]; omega), h.nil]; rfl, rfl⟩
  | cons c cs ih =>
      by_cases hstar : c = '*'
      · subst hstar
        exact h.endsBlock_star (ih (h.tail_of_lt (by decide)))
      · obtain ⟨b, hb, hc⟩ := h.read
        obtain ⟨n, hn⟩ := ih h.tail
        refine ⟨n + 1, hn.pass ?_ fun _ he _ => hstar he⟩
        rcases hc with ⟨rfl, hlt⟩ | ⟨_, hc⟩
        · rw [utf8Size_of_lt hlt]
          exact blockEnd_of_ne hb hstar
        · exact h.pass_high hc fun _ _ _ hx hh => blockEnd_of_ne hx (ne_of_le_toNat (by decide) hh)

theorem isAsciiBlank_of_le (h : 128 ≤ c.toNat) : Text.isAsciiBlank c = false := by
  have hne (d : Char) (hd : d.toNat < 128) := ne_of_le_toNat hd h
  simp [Text.isAsciiBlank, hne ' ' (by decide), hne '\t' (by decide), hne '\n' (by decide), hne '\r' (by decide),
    hne '\x0c' (by decide)]

theorem gapLength_line (cs : List Char) :
    gapLength .line cs = (cs.takeWhile (· != '\n')).length + gapLength .blanks (cs.dropWhile (· != '\n')) := by
  induction cs with
  | nil => rfl
  | cons c cs ih =>
      by_cases hc : c = '\n'
      · subst hc
        rw [List.takeWhile_cons_of_neg (by decide), List.dropWhile_cons_of_neg (by decide),
          gapLength_of_blank (by decide), List.length_nil, Nat.zero_add]
        rfl
      · rw [List.takeWhile_cons_of_pos (by simp [hc]), List.dropWhile_cons_of_pos (by simp [hc]), gapLength, if_neg hc,
          ih, List.length_cons]
        omega

theorem gapLength_blanks (cs : List Char) :
    gapLength .blanks cs =
      (cs.takeWhile Text.isAsciiBlank).length + gapLength .blanks (cs.dropWhile Text.isAsciiBlank) := by
  induction cs with
  | nil => rfl
  | cons c cs ih =>
      by_cases hc : Text.isAsciiBlank c
      · rw [List.takeWhile_cons_of_pos hc, List.dropWhile_cons_of_pos hc, gapLength_of_blank hc, ih, List.length_cons]
        omega
      · rw [List.takeWhile_cons_of_neg hc, List.dropWhile_cons_of_neg hc, List.length_nil, Nat.zero_add]

theorem take_takeWhile {α : Type} (p : α → Bool) (xs : List α) :
    xs.take (xs.takeWhile p).length = xs.takeWhile p ∧ xs.drop (xs.takeWhile p).length = xs.dropWhile p := by
  have h := List.takeWhile_append_dropWhile (p := p) (l := xs)
  constructor
  · conv_lhs => rw [← h]
    exact List.take_left' (by rw [h])
  · conv_lhs => rw [← h]
    exact List.drop_left' (by rw [h])

theorem At.gap_of_passWhile {p : Char → Bool} {all : Bool} (h : At bs i (c :: cs))
    (hp : ∀ x : Char, 128 ≤ x.toNat → p x = all) (hc : p c)
    (hg : gapLength .blanks (c :: cs) =
      ((c :: cs).takeWhile p).length + gapLength .blanks ((c :: cs).dropWhile p)) :
    ∃ n, 0 < n ∧ passWhile p bs i = .ok (i + Text.size ((c :: cs).take n)) ∧
      gapLength .blanks (c :: cs) = n + gapLength .blanks ((c :: cs).drop n) := by
  refine ⟨((c :: cs).takeWhile p).length, ?_, ?_, ?_⟩
  · rw [List.takeWhile_cons_of_pos hc, List.length_cons]
    omega
  · rw [h.passWhile_eq hp, (take_takeWhile p _).1]
  · rw [(take_takeWhile p _).2, hg]

theorem gapLength_eq_line (h : c = '#' ∨ c = '/' ∧ cs.head? = some '/') :
    gapLength .blanks (c :: cs) = gapLength .line (c :: cs) := by
  rcases h with rfl | ⟨rfl, hs⟩
  · rfl
  · obtain ⟨ds, rfl⟩ := List.head?_eq_some_iff.1 hs
    rfl

theorem gapEnd?_of_high (hb : octet bs i = .ok b) (h : 128 ≤ b.toNat) : gapEnd? bs i = .ok none := by
  have hne (d : Char) (hd : d.toNat < 128) := ne_of_le_toNat hd h
  rw [gapEnd?, hb, ok_bind, if_neg (by simp [isAsciiBlank_of_le h]),
    if_neg (by simp [hne '#' (by decide), hne '/' (by decide)]), if_neg (by simp [hne '/' (by decide)])]
  rfl

theorem gapLength_of_high (h : 128 ≤ c.toNat) (cs : List Char) : gapLength .blanks (c :: cs) = 0 := by
  have hne (d : Char) (hd : d.toNat < 128) := ne_of_le_toNat hd h
  rw [gapLength_of_ne (hne '/' (by decide)), if_neg (hne '#' (by decide)), if_neg (by simp [isAsciiBlank_of_le h])]

theorem At.gapEnd?_cases (h : At bs i (c :: cs)) :
    (∃ n, 0 < n ∧ gapEnd? bs i = .ok (some (i + Text.size ((c :: cs).take n))) ∧
      gapLength .blanks (c :: cs) = n + gapLength .blanks ((c :: cs).drop n)) ∨
    (gapEnd? bs i = .ok none ∧ gapLength .blanks (c :: cs) = 0) := by
  obtain ⟨b, hb, hc⟩ := h.read
  rcases hc with ⟨rfl, hlt⟩ | ⟨hb', hc⟩
  · have ht := h.tail_of_lt hlt
    have hslash := ht.octet?_eq (show ('/' : Char).toNat < 128 by decide)
    have hstar := ht.octet?_eq (show ('*' : Char).toNat < 128 by decide)
    simp only [gapEnd?, hb, ok_bind, hslash, hstar]
    by_cases hblank : Text.isAsciiBlank b
    · obtain ⟨n, hn, hp, hg⟩ := h.gap_of_passWhile (fun x => isAsciiBlank_of_le) hblank (gapLength_blanks _)
      exact .inl ⟨n, hn, by rw [if_pos hblank, hp]; rfl, hg⟩
    by_cases hline : b = '#' ∨ b = '/' ∧ cs.head? = some '/'
    · have hnl : b ≠ '\n' := by
        rintro rfl
        exact hblank (by decide)
      obtain ⟨n, hn, hp, hg⟩ := h.gap_of_passWhile (p := (· != '\n'))
        (fun x hx => bne_iff_ne.2 (ne_of_le_toNat (by decide) hx)) (bne_iff_ne.2 hnl)
        (by rw [gapLength_eq_line hline, gapLength_line])
      exact .inl ⟨n, hn, by rw [if_neg hblank, if_pos hline, hp]; rfl, hg⟩
    by_cases hblock : b = '/' ∧ cs.head? = some '*'
    · obtain ⟨rfl, hs⟩ := hblock
      obtain ⟨ds, rfl⟩ := List.head?_eq_some_iff.1 hs
      obtain ⟨n, he, hg⟩ := (ht.tail_of_lt (by decide)).endsBlock
      refine .inl ⟨n + 2, by omega, ?_, ?_⟩
      · rw [if_neg hblank, if_neg hline, if_pos ⟨rfl, hs⟩, he, List.take_succ_cons, List.take_succ_cons, Text.size_cons,
          Text.size_cons, ← Nat.add_assoc, ← Nat.add_assoc]
        rfl
      · rw [gapLength, hg, List.drop_succ_cons, List.drop_succ_cons]
        omega
    · refine .inr ⟨by rw [if_neg hblank, if_neg hline, if_neg hblock]; rfl, ?_⟩
      rw [gapLength.eq_3, if_neg (fun hs => hline (.inl hs)), if_neg hblank]
      · exact fun _ hs he => hline (.inr ⟨hs, by rw [he]; rfl⟩)
      · exact fun _ hs he => hblock ⟨hs, by rw [he]; rfl⟩
  · exact .inr ⟨gapEnd?_of_high hb hb', gapLength_of_high hc cs⟩

theorem stringEnd_of_le (quote : Char) (h : bs.length ≤ j) : stringEnd quote bs j = .ok (bs.length, false) := by
  rw [stringEnd, dif_neg (by omega)]
  rfl

theorem stringEnd_of_backslash (quote : Char) (hl : j < bs.length) (hb : octet bs j = .ok '\\') :
    stringEnd quote bs j = stringEnd quote bs (j + 2) := by
  conv_lhs => rw [stringEnd]
  rw [dif_pos hl, hb, ok_bind, if_pos rfl]

theorem stringEnd_of_ne {quote : Char} (hl : j < bs.length) (hb : octet bs j = .ok b) (hs : b ≠ '\\') :
    stringEnd quote bs j = if b = quote then .ok (j + 1, true) else stringEnd quote bs (j + 1) := by
  conv_lhs => rw [stringEnd]
  rw [dif_pos hl, hb, ok_bind, if_neg hs]
  rfl

/-- A string ends at the same place, whether bytes are read or characters. What is left of a character behind a
backslash that took its first byte is passed, since its bytes are high. -/
theorem At.stringEnd_eq {quote : Char} (hq : quote.toNat < 128) (h : At bs j cs) :
    stringEnd quote bs j =
      .ok (j + Text.size (cs.take (quotedLength quote cs).1), (quotedLength quote cs).2) := by
  have hpass (k : Nat) (x : Char) (hk : k < bs.length) (hx : octet bs k = .ok x) (hh : 128 ≤ x.toNat) :
      stringEnd quote bs k = stringEnd quote bs (k + 1) := by
    rw [stringEnd_of_ne hk hx (ne_of_le_toNat (by decide) hh), if_neg (ne_of_le_toNat hq hh)]
  fun_induction quotedLength quote cs generalizing j with
  | case1 =>
      rw [stringEnd_of_le quote (by rw [h.nil]), h.nil]
      rfl
  | case2 =>
      have ht := h.tail_of_lt (by decide)
      rw [stringEnd_of_backslash quote h.lt (h.octet_of_lt (by decide)), stringEnd_of_le quote (by rw [ht.nil]; omega),
        ht.nil]
      rfl
  | case3 d cs n closed he ih =>
      have ht := h.tail_of_lt (by decide)
      have hd : stringEnd quote bs (j + 2) = stringEnd quote bs (j + 1 + d.utf8Size) := by
        obtain ⟨hs, hr, hh, hl⟩ := ht.tail_high
        rw [hr.pass_high hh hpass, ← hl]
        congr 1
        omega
      rw [stringEnd_of_backslash quote h.lt (h.octet_of_lt (by decide)), hd, ih ht.tail, he]
      simp only [List.take_succ_cons, Text.size_cons]
      rw [← Nat.add_assoc, ← Nat.add_assoc]
      rfl
  | case4 cs h1 h2 =>
      rw [stringEnd_of_ne h.lt (h.octet_of_lt hq) (ne_backslash h1 h2), if_pos rfl]
      simp [utf8Size_of_lt hq]
  | case5 c cs h1 h2 hne n closed he ih =>
      have hs := ne_backslash h1 h2
      have hstep : stringEnd quote bs j = stringEnd quote bs (j + c.utf8Size) := by
        obtain ⟨b, hb, ⟨rfl, hlt⟩ | ⟨_, hc⟩⟩ := h.read
        · rw [stringEnd_of_ne h.lt hb hs, if_neg hne, utf8Size_of_lt hlt]
        · exact h.pass_high hc hpass
      rw [hstep, ih h.tail, he]
      simp only [List.take_succ_cons, Text.size_cons]
      rw [← Nat.add_assoc]

theorem isAlphanum_of_le (h : 128 ≤ c.toNat) : c.isAlphanum = false := by
  have hv : c.val.toNat = c.toNat := rfl
  simp only [Char.isAlphanum, Char.isAlpha, Char.isUpper, Char.isLower, Char.isDigit, ge_iff_le,
    UInt32.le_iff_toNat_le, Bool.or_eq_false_iff, Bool.and_eq_false_iff, decide_eq_false_iff_not, hv]
  have hl (d : Char) (hd : d.val.toNat < 128) : ¬c.toNat ≤ d.val.toNat := by omega
  exact ⟨⟨fun h => hl 'Z' (by decide) h.2, .inr (hl 'z' (by decide))⟩, .inr (hl '9' (by decide))⟩

theorem isWordStart_of_le (h : 128 ≤ c.toNat) : isWordStart c = true := by simp [isWordStart, h]

theorem isWordRest_of_le (h : 128 ≤ c.toNat) : isWordRest c = true := by simp [isWordRest, isWordStart_of_le h]

theorem ofChar?_of_le (h : 128 ≤ c.toNat) : Quote.ofChar? c = none := by
  rw [Quote.ofChar?, if_neg (ne_of_le_toNat (by decide) h), if_neg (ne_of_le_toNat (by decide) h)]

theorem isDigit_of_le (h : 128 ≤ c.toNat) : c.isDigit = false := by
  have ha := isAlphanum_of_le h
  rw [Char.isAlphanum, Bool.or_eq_false_iff] at ha
  exact ha.2

theorem isSignAt_eq {previous : Char} (hi : 0 < i) (hp : octet bs (i - 1) = .ok previous) (b : Char) :
    isSignAt bs i b = .ok ((b = '+' || b = '-') && (previous = 'e' || previous = 'E')) := by
  rw [isSignAt, minus_of_le hi, ok_bind, hp]
  split
  · rename_i hb
    simp only [ok_bind]
    rcases hb with rfl | rfl <;> rfl
  · rename_i hb
    rw [not_or] at hb
    simp only [hb.1, hb.2]
    rfl

theorem numberEnd_step (hl : i < bs.length) (hb : octet bs i = .ok b) {isSign : Bool}
    (hs : isSignAt bs i b = .ok isSign) :
    numberEnd bs i =
      if b.isAlphanum || b = '_' || b = '.' || isSign then numberEnd bs (i + 1) else .ok i := by
  conv_lhs => rw [numberEnd]
  rw [dif_pos hl, hb, ok_bind, hs, ok_bind]
  rfl

theorem At.numberEnd_eq {previous : Char} (h : At bs i cs) (hi : 0 < i) (hp : octet bs (i - 1) = .ok previous) :
    numberEnd bs i = .ok (i + Text.size (cs.take (numberLength previous cs))) := by
  induction cs generalizing i previous with
  | nil =>
      rw [numberEnd, dif_neg (by rw [h.nil]; omega)]
      rfl
  | cons c cs ih =>
      obtain ⟨b, hb, hc⟩ := h.read
      rw [numberEnd_step h.lt hb (isSignAt_eq hi hp b), numberLength]
      rcases hc with ⟨rfl, hlt⟩ | ⟨hb', hc⟩
      · split
        · rw [ih (h.tail_of_lt hlt) (Nat.succ_pos i) hb, List.take_succ_cons, Text.size_cons, utf8Size_of_lt hlt,
            Nat.add_assoc]
        · rfl
      · have hstop {x : Char} (hx : 128 ≤ x.toNat) : (x.isAlphanum || x = '_' || x = '.' ||
            ((x = '+' || x = '-') && (previous = 'e' || previous = 'E'))) = false := by
          have hne (d : Char) (hd : d.toNat < 128) := ne_of_le_toNat hd hx
          simp [isAlphanum_of_le hx, hne '_' (by decide), hne '.' (by decide), hne '+' (by decide), hne '-' (by decide)]
        simp only [hstop hb', hstop hc]
        rfl

theorem takeBytes_eq_take (n : Nat) (cs : List Char) :
    Text.takeBytes n cs = cs.take (Text.takeBytes n cs).length := by
  fun_induction Text.takeBytes n cs with
  | case1 => rfl
  | case2 => rfl
  | case3 n c cs ih =>
      rw [List.length_cons, List.take_succ_cons]
      exact congrArg _ ih

theorem lt_of_toLower (h : c.toLower.toNat < 128) : c.toNat < 128 := by
  have hv : c.val.toNat = c.toNat := rfl
  unfold Char.toLower at h
  split at h
  · rename_i hu
    simp only [ge_iff_le, UInt32.le_iff_toNat_le] at hu
    have hz : ('Z' : Char).val.toNat = 90 := rfl
    omega
  · exact h

theorem sameWord_php_iff (w : List Char) :
    Text.sameWord (String.ofList w) "php" ↔ w.map Char.toLower = ['p', 'h', 'p'] := by simp [Text.sameWord]

theorem size_of_sameWord_php {w : List Char} (h : Text.sameWord (String.ofList w) "php") : Text.size w = 3 := by
  have hw := (sameWord_php_iff w).1 h
  have hone (x : Char) (hx : x ∈ w) : x.utf8Size = 1 := by
    apply utf8Size_of_lt
    apply lt_of_toLower
    have hm : x.toLower ∈ ['p', 'h', 'p'] := hw ▸ List.mem_map_of_mem hx
    simp only [List.mem_cons, List.not_mem_nil, or_false] at hm
    rcases hm with hm | hm | hm <;> rw [hm] <;> decide
  have hl : w.length = 3 := by simpa using congrArg List.length hw
  obtain ⟨x, y, z, rfl⟩ := List.length_eq_three.1 hl
  simp [hone]

/-- The look-ahead for the letters of an opening tag finds them in the same texts, whether it takes bytes or
characters. -/
theorem start?_any_php (cs : List Char) :
    (start? (String.ofList cs) 3).any (Text.sameWord · "php") = Text.sameWord (String.ofList (cs.take 3)) "php" := by
  rw [Bool.eq_iff_iff]
  constructor
  · intro h
    unfold start? at h
    split at h
    · have hw : (Text.takeBytes 3 cs).map Char.toLower = ['p', 'h', 'p'] := by
        rw [Option.any_some, Text.slice, sameWord_php_iff, String.toList_ofList] at h
        cases cs <;> exact h
      have hl : (Text.takeBytes 3 cs).length = 3 := by simpa using congrArg List.length hw
      rw [takeBytes_eq_take, hl] at hw
      exact (sameWord_php_iff _).2 hw
    · simp at h
  · intro h
    have hsize := size_of_sameWord_php h
    have hcs : String.ofList cs = "" ++ String.ofList (cs.take 3) ++ String.ofList (cs.drop 3) := by
      apply String.toList_injective
      simp
    have hslice : Text.slice (String.ofList cs) ⟨0, 3⟩ = String.ofList (cs.take 3) := by
      have hs := Text.slice_append "" (String.ofList (cs.take 3)) (String.ofList (cs.drop 3))
      rw [← hcs, Text.utf8ByteSize_ofList (cs.take 3), hsize] at hs
      exact hs
    have hbound : isBoundary cs 3 := by
      have hb := isBoundary_size (cs.take 3) (cs.drop 3)
      rwa [hsize, List.take_append_drop] at hb
    have hle : 3 ≤ Text.size cs := by
      have hs := Text.size_append (cs.take 3) (cs.drop 3)
      rw [List.take_append_drop, hsize] at hs
      omega
    rw [start?, if_pos ⟨by simpa using hle, by simpa using hbound⟩, hslice]
    exact h

/-- The tests for the kinds of tokens exclude each other, so that their order does not matter. -/
theorem lexeme_eq (c : Char) (cs : List Char) :
    lexeme c cs =
      if c = '<' ∧ cs.head? = some '?' then (.openTag, openTagLength cs.tail + 1)
      else if c = '?' ∧ cs.head? = some '>' then (.closeTag, 1)
      else match Quote.ofChar? c with
        | some quote => (.quoted quote (quotedLength c cs).2, (quotedLength c cs).1)
        | none =>
          if c = '$' ∧ cs.head?.any isWordStart then (.variable, wordLength cs)
          else if c.isDigit then (.number, numberLength c cs)
          else if isWordStart c then (.word, wordLength cs)
          else (single c, 0) := by
  by_cases hm : c ∈ ['<', '?', '"', '\'', '$']
  · have hno : ['<', '?', '"', '\'', '$'].all fun d => !d.isDigit && !isWordStart d := by decide
    have hc := List.all_eq_true.1 hno c hm
    simp only [Bool.and_eq_true, Bool.not_eq_true'] at hc
    obtain ⟨hd, hw⟩ := hc
    simp only [List.mem_cons, List.not_mem_nil, or_false] at hm
    rcases hm with rfl | rfl | rfl | rfl | rfl
    all_goals simp [lexeme, Quote.ofChar?, hd, hw]
  · simp only [List.mem_cons, List.not_mem_nil, or_false, not_or] at hm
    simp [lexeme, Quote.ofChar?, hm]

theorem at_octets {source : String} {before : List Char} (hs : source.toList = before ++ cs) :
    At (octets source.toList) (Text.size before) cs :=
  ⟨octets before, by rw [hs, octets_append], length_octets before⟩

theorem At.passWhile_word (h : At bs i cs) :
    passWhile isWordRest bs i = .ok (i + Text.size (cs.take (wordLength cs))) := by
  rw [h.passWhile_eq fun x => isWordRest_of_le, wordLength, (take_takeWhile isWordRest cs).1]

theorem At.passWhile_wordStart (h : At bs i (c :: cs)) (hc : isWordStart c) :
    passWhile isWordRest bs i = .ok (i + Text.size (c :: cs.take (wordLength cs))) := by
  have hl : wordLength (c :: cs) = wordLength cs + 1 := by
    rw [wordLength, List.takeWhile_cons_of_pos (by simp [isWordRest, hc]), List.length_cons, wordLength]
  rw [h.passWhile_word, hl, List.take_succ_cons]

theorem At.numberEnd_digit (h : At bs i (c :: cs)) (hb : octet bs i = .ok c) (hc : c.isDigit) :
    numberEnd bs i = .ok (i + Text.size (c :: cs.take (numberLength c cs))) := by
  have hsign : isSignAt bs i c = .ok false := by
    rw [isSignAt, if_neg]
    · rfl
    · rintro (rfl | rfl) <;> exact absurd hc (by decide)
  have hlt : c.toNat < 128 := by
    by_contra hge
    rw [isDigit_of_le (by omega)] at hc
    exact Bool.false_ne_true hc
  have hd : c.isAlphanum := by simp [Char.isAlphanum, hc]
  rw [numberEnd_step h.lt hb hsign, if_pos (by simp [hd]), (h.tail_of_lt hlt).numberEnd_eq (Nat.succ_pos i) hb,
    Text.size_cons, utf8Size_of_lt hlt, Nat.add_assoc]

theorem lexemeAt_openTag {source : String} {before : List Char}
    (hs : source.toList = before ++ '<' :: '?' :: cs) :
    lexemeAt source (octets source.toList) (Text.size before) =
      .ok (.openTag, Text.size before + 2 + Text.size (cs.take (openTagLength cs))) := by
  have h := at_octets hs
  have ht := h.tail_of_lt (by decide)
  have htt := ht.tail_of_lt (by decide)
  have hask := (ht.octet?_eq (show ('?' : Char).toNat < 128 by decide)).2 rfl
  have hequals := htt.octet?_eq (show ('=' : Char).toNat < 128 by decide)
  have hcut : cut source (Text.size before + 2) source.utf8ByteSize = .ok (String.ofList cs) := by
    have hc := cut_suffix (show source.toList = (before ++ ['<', '?']) ++ cs by simp [hs])
    rw [Text.size_append] at hc
    exact hc
  rw [lexemeAt, h.octet_of_lt (by decide), ok_bind, if_pos ⟨rfl, hask⟩, hcut, ok_bind, start?_any_php, openTagLength]
  split
  · rename_i hw
    rw [size_of_sameWord_php hw]
    rfl
  · simp only [hequals]
    split
    · rename_i he
      obtain ⟨ds, rfl⟩ := List.head?_eq_some_iff.1 he
      rfl
    · rfl

theorem lexemeAt_ascii {source : String} {before : List Char} (hs : source.toList = before ++ c :: cs)
    (htag : ¬(c = '<' ∧ cs.head? = some '?')) (hlt : c.toNat < 128) :
    lexemeAt source (octets source.toList) (Text.size before) =
      .ok ((lexeme c cs).1, Text.size before + Text.size (c :: cs.take (lexeme c cs).2)) := by
  have h := at_octets hs
  have hb := h.octet_of_lt hlt
  have ht := h.tail_of_lt hlt
  have hone := utf8Size_of_lt hlt
  have hask := ht.octet?_eq (show ('?' : Char).toNat < 128 by decide)
  have hgreater := ht.octet?_eq (show ('>' : Char).toNat < 128 by decide)
  rw [lexeme_eq, if_neg htag]
  simp only [lexemeAt, hb, ok_bind, hask, hgreater, htag, if_false]
  by_cases hclose : c = '?' ∧ cs.head? = some '>'
  · obtain ⟨rfl, hg⟩ := hclose
    obtain ⟨ds, rfl⟩ := List.head?_eq_some_iff.1 hg
    rfl
  rw [if_neg hclose, if_neg hclose]
  cases hquote : Quote.ofChar? c with
  | some quote =>
      simp only [ht.stringEnd_eq hlt, ok_bind, Text.size_cons, hone]
      rw [Nat.add_assoc]
      rfl
  | none =>
      have hword := ht.octet?_any fun x => isWordStart_of_le
      simp only [hword]
      by_cases hvar : c = '$' ∧ cs.head?.any isWordStart
      · rw [if_pos hvar, if_pos hvar, ht.passWhile_word, ok_bind, Text.size_cons, hone, Nat.add_assoc]
        rfl
      rw [if_neg hvar, if_neg hvar]
      by_cases hdigit : c.isDigit
      · rw [if_pos hdigit, if_pos hdigit, h.numberEnd_digit hb hdigit]
        rfl
      rw [if_neg hdigit, if_neg hdigit]
      by_cases hstart : isWordStart c
      · rw [if_pos hstart, if_pos hstart, h.passWhile_wordStart hstart]
        rfl
      · rw [if_neg hstart, if_neg hstart, Text.size_cons, hone]
        rfl

theorem lexemeAt_high {source : String} {before : List Char} {b : Char} (hs : source.toList = before ++ c :: cs)
    (hb : octet (octets source.toList) (Text.size before) = .ok b) (hhigh : 128 ≤ b.toNat) (hc : 128 ≤ c.toNat) :
    lexemeAt source (octets source.toList) (Text.size before) =
      .ok ((lexeme c cs).1, Text.size before + Text.size (c :: cs.take (lexeme c cs).2)) := by
  have h := at_octets hs
  have hne (d : Char) (hd : d.toNat < 128) := ne_of_le_toNat hd hhigh
  have hne' (d : Char) (hd : d.toNat < 128) := ne_of_le_toNat hd hc
  simp only [lexeme_eq, lexemeAt, hb, ok_bind, hne '<' (by decide), hne '?' (by decide), hne '$' (by decide),
    ofChar?_of_le hhigh, isDigit_of_le hhigh, isWordStart_of_le hhigh, hne' '<' (by decide), hne' '?' (by decide),
    hne' '$' (by decide), ofChar?_of_le hc, isDigit_of_le hc, isWordStart_of_le hc,
    h.passWhile_wordStart (isWordStart_of_le hc), false_and, if_false, if_true, Bool.false_eq_true, pure_ok]

theorem lexemeAt_eq {source : String} {before : List Char} (hs : source.toList = before ++ c :: cs) :
    lexemeAt source (octets source.toList) (Text.size before) =
      .ok ((lexeme c cs).1, Text.size before + Text.size (c :: cs.take (lexeme c cs).2)) := by
  by_cases htag : c = '<' ∧ cs.head? = some '?'
  · have hkind := lexeme_eq c cs
    rw [if_pos htag] at hkind
    obtain ⟨rfl, hq⟩ := htag
    obtain ⟨ds, rfl⟩ := List.head?_eq_some_iff.1 hq
    rw [lexemeAt_openTag hs, hkind]
    simp only [List.tail_cons, List.take_succ_cons, Text.size_cons]
    rw [← Nat.add_assoc, ← Nat.add_assoc]
    rfl
  obtain ⟨b, hb, ⟨_, hlt⟩ | ⟨hhigh, hc⟩⟩ := (at_octets hs).read
  · exact lexemeAt_ascii hs htag hlt
  · exact lexemeAt_high hs hb hhigh hc

end

theorem map_ofToken_of_gap {cs : List Char} {n : Nat}
    (h : gapLength .blanks cs = n + gapLength .blanks (cs.drop n)) (i : Nat) :
    (tokensFrom i cs).map Spot.ofToken =
      (tokensFrom (i + Text.size (cs.take n)) (cs.drop n)).map Spot.ofToken := by
  have hd : cs.drop (gapLength .blanks cs) = (cs.drop n).drop (gapLength .blanks (cs.drop n)) := by
    rw [h, List.drop_drop]
  have hsize : Text.size (cs.take (gapLength .blanks cs)) =
      Text.size (cs.take n) + Text.size ((cs.drop n).take (gapLength .blanks (cs.drop n))) := by
    rw [h, List.take_add, Text.size_append]
  cases he : cs.drop (gapLength .blanks cs) with
  | nil => rw [tokensFrom_of_gap he, tokensFrom_of_gap (hd ▸ he)]
  | cons c rest =>
      obtain ⟨kind, m, hl⟩ : ∃ kind m, lexeme c rest = (kind, m) := ⟨_, _, rfl⟩
      rw [tokensFrom_of_lexeme he hl i, tokensFrom_of_lexeme (hd.symm.trans he) hl (i + Text.size (cs.take n)), hsize]
      simp only [List.map_cons, Spot.ofToken, Token.span, Token.stop, Nat.add_assoc]

/-- The loop of the lexer ends before its rounds do, since each of them takes a character at least. -/
theorem spotsFrom_eq {source : String} {before cs : List Char} (hs : source.toList = before ++ cs) {rounds : Nat}
    (hr : cs.length < rounds) :
    spotsFrom source (octets source.toList) rounds (Text.size before) =
      .ok ((tokensFrom (Text.size before) cs).map Spot.ofToken) := by
  induction rounds generalizing before cs with
  | zero => omega
  | succ rounds ih =>
      have h := at_octets hs
      -- what is left when the first `n` characters are taken
      have hnext (n : Nat) (hn : 0 < n) (hc : cs ≠ []) :
          spotsFrom source (octets source.toList) rounds (Text.size before + Text.size (cs.take n)) =
            .ok ((tokensFrom (Text.size before + Text.size (cs.take n)) (cs.drop n)).map Spot.ofToken) := by
        rw [← Text.size_append]
        apply ih
        · rw [hs, List.append_assoc, List.take_append_drop]
        · have hl := List.length_pos_iff.2 hc
          rw [List.length_drop]
          omega
      cases cs with
      | nil =>
          rw [spotsFrom, if_neg (by rw [h.nil]; omega), tokensFrom_of_gap rfl]
          rfl
      | cons c cs =>
          rw [spotsFrom, if_pos h.lt]
          rcases h.gapEnd?_cases with ⟨n, hn, hg, hl⟩ | ⟨hg, hl⟩
          · rw [hg, ok_bind, map_ofToken_of_gap hl]
            exact hnext n hn (by simp)
          · have hd : (c :: cs).drop (gapLength .blanks (c :: cs)) = c :: cs := by rw [hl, List.drop_zero]
            rw [hg, ok_bind]
            simp only [lexemeAt_eq hs, ok_bind]
            rw [tokensFrom_of_lexeme hd (show lexeme c cs = ((lexeme c cs).1, (lexeme c cs).2) from rfl), hl]
            have hn := hnext ((lexeme c cs).2 + 1) (by omega) (by simp)
            rw [List.take_succ_cons, List.drop_succ_cons] at hn
            rw [hn]
            simp [Spot.ofToken, Token.span, Token.stop]

/-- Every byte that the lexer reads is there, and every text that it looks at starts and ends between characters. -/
theorem tokenize_eq (source : String) : tokenize source = .ok ((Lexer.tokenize source).map Spot.ofToken) := by
  apply spotsFrom_eq (show source.toList = [] ++ source.toList from rfl)
  have hle (cs : List Char) : cs.length ≤ Text.size cs := by
    induction cs with
    | nil => exact Nat.le_refl 0
    | cons c cs ih =>
        have hc := c.utf8Size_pos
        rw [Text.size_cons, List.length_cons]
        omega
  have hl := hle source.toList
  rw [length_octets]
  omega

end PhpTranspiler.Indexed
