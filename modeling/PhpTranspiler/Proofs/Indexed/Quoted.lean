import PhpTranspiler.Proofs.Indexed.Lexer
import PhpTranspiler.Proofs.Rereading

namespace PhpTranspiler.Indexed

open Quoted

def digitRun (bs : List UInt8) (most base : Nat) : Nat × Nat :=
  let digits := ((bs.take most).map Char.ofUInt8).takeWhile (Digits.isDigit base)
  (Digits.value base digits, digits.length)

def escapeAt (body : List UInt8) (next : UInt8) (i : Nat) : Except Trap (Option (List UInt8 × Nat)) :=
  match simple? (Char.ofUInt8 next) with
  | some b => return some ([b], i)
  | none => do
    if Digits.isDigit 8 (Char.ofUInt8 next) then
      let (value, n) := digitRun (← stretch body (← minus i 1) body.length) 3 8
      return some ([UInt8.ofNat value], i + (← minus n 1))
    else if Char.ofUInt8 next = 'x' ∧ (octet? body i).any (Digits.isDigit 16) then
      let (value, n) := digitRun (← stretch body i body.length) 2 16
      return some ([UInt8.ofNat value], i + n)
    else if Char.ofUInt8 next = 'u' ∧ octet? body i = some '{' then
      match (← stretch body i body.length).findIdx? (Char.ofUInt8 · == '}') with
      | none => return none
      | some n =>
        let hex ← stretch body (i + 1) (i + n)
        return (String.fromUTF8? ⟨hex.toArray⟩).bind fun hex =>
          ((Digits.word32? 16 hex.toList).bind char?).map fun c => (bytes c, i + n + 1)
    else return some ([0x5c, next], i)

def unescape (quote : Quote) (body : List UInt8) : Nat → Nat → Except Trap (Option (List UInt8))
  | 0, _ => .error .endless
  | rounds + 1, i => do
    if i < body.length then
      let b ← element body i
      if Char.ofUInt8 b ≠ '\\' then return (← unescape quote body rounds (i + 1)).map (b :: ·)
      else match body[i + 1]? with
        | none => return some [0x5c]
        | some next =>
          match quote with
          | .single =>
            if Char.ofUInt8 next = '\\' ∨ Char.ofUInt8 next = '\'' then
              return (← unescape quote body rounds (i + 2)).map (next :: ·)
            else return (← unescape quote body rounds (i + 1)).map (0x5c :: ·)
          | .double =>
            match ← escapeAt body next (i + 2) with
            | none => return none
            | some (out, j) => return (← unescape quote body rounds j).map (out ++ ·)
    else return some []

def stripClosing (quote : Quote) (bs : List UInt8) : List UInt8 :=
  if bs.getLast?.map Char.ofUInt8 = some quote.char then bs.dropLast else bs

def unquote (text : String) : Except Trap (Option String) := do
  let bs := octets text.toList
  match (octet? bs 0).bind Quote.ofChar? with
  | none => return some text
  | some quote =>
    let body := stripClosing quote (← stretch bs 1 bs.length)
    let out ← unescape quote body (body.length + 1) 0
    return out.bind fun out => String.fromUTF8? ⟨out.toArray⟩

theorem digit_of_le {c : Char} (h : 128 ≤ c.toNat) : Digits.digit c = none := by
  have hl (d : Char) (hd : d.toNat < 128) : ¬c ≤ d := by
    intro hle
    have hn := UInt32.le_iff_toNat_le.1 (Char.le_def.1 hle)
    have hv : c.val.toNat = c.toNat := rfl
    have hw : d.val.toNat = d.toNat := rfl
    omega
  rw [Digits.digit, if_neg fun h => hl '9' (by decide) h.2, if_neg fun h => hl 'f' (by decide) h.2,
    if_neg fun h => hl 'F' (by decide) h.2]

theorem isDigit_of_high {c : Char} (base : Nat) (h : 128 ≤ c.toNat) : Digits.isDigit base c = false := by
  rw [Digits.isDigit, digit_of_le h]
  rfl

theorem takeWhile_octets {p : Char → Bool} (hp : ∀ x : Char, 128 ≤ x.toNat → p x = false) (n : Nat) (cs : List Char) :
    (((octets cs).take n).map Char.ofUInt8).takeWhile p = (cs.take n).takeWhile p := by
  induction cs generalizing n with
  | nil => simp [octets]
  | cons c cs ih =>
      cases n with
      | zero => rfl
      | succ n =>
          rw [octets_cons]
          rcases utf8EncodeChar_cases c with ⟨_, b, hb, rfl⟩ | ⟨hc, b, bs, hb, hh, _⟩
          · rw [hb, List.singleton_append, List.take_succ_cons, List.map_cons, List.take_succ_cons, List.takeWhile_cons,
              List.takeWhile_cons, ih]
          · rw [hb, List.cons_append, List.take_succ_cons, List.map_cons, List.take_succ_cons,
              List.takeWhile_cons_of_neg, List.takeWhile_cons_of_neg]
            · rw [hp c hc]
              exact Bool.false_ne_true
            · rw [hp (Char.ofUInt8 b) (by rw [toNat_ofUInt8]; exact hh)]
              exact Bool.false_ne_true

theorem digitRun_octets (cs : List Char) (most base : Nat) :
    digitRun (octets cs) most base =
      (Digits.value base ((cs.take most).takeWhile (Digits.isDigit base)),
        ((cs.take most).takeWhile (Digits.isDigit base)).length) := by
  rw [digitRun, takeWhile_octets fun x => isDigit_of_high base]

theorem size_of_ascii {cs : List Char} (h : ∀ c ∈ cs, c.toNat < 128) : Text.size cs = cs.length := by
  induction cs with
  | nil => rfl
  | cons c cs ih =>
      rw [Text.size_cons, utf8Size_of_lt (h c (.head _)), ih fun x hx => h x (.tail _ hx), List.length_cons,
        Nat.add_comm]

theorem size_take_digits (cs : List Char) (most base : Nat) :
    Text.size (cs.take ((cs.take most).takeWhile (Digits.isDigit base)).length) =
      ((cs.take most).takeWhile (Digits.isDigit base)).length := by
  have hp : (cs.take most).takeWhile (Digits.isDigit base) <+: cs :=
    (List.takeWhile_prefix _).trans (List.take_prefix most cs)
  rw [← List.prefix_iff_eq_take.1 hp]
  apply size_of_ascii
  intro c hc
  by_contra hge
  have hd := List.mem_takeWhile_imp hc
  rw [isDigit_of_high base (by omega)] at hd
  exact Bool.false_ne_true hd

theorem ne_of_mem_utf8EncodeChar {c d : Char} (hd : d.toNat < 128) (hc : c ≠ d) :
    ∀ b ∈ String.utf8EncodeChar c, Char.ofUInt8 b ≠ d := by
  have hhigh {b : UInt8} (hb : IsHigh b) : Char.ofUInt8 b ≠ d :=
    ne_of_le_toNat hd (by rw [toNat_ofUInt8]; exact hb)
  rcases utf8EncodeChar_cases c with ⟨_, b, hb, he⟩ | ⟨_, b, bs, hb, hh, hhs⟩
  · rw [hb]
    intro x hx
    rw [List.mem_singleton.1 hx, he]
    exact hc
  · rw [hb]
    intro x hx
    rcases List.mem_cons.1 hx with rfl | hx
    · exact hhigh hh
    · exact hhigh (hhs x hx)

theorem findIdx?_octets {d : Char} (hd : d.toNat < 128) (cs : List Char) :
    (octets cs).findIdx? (Char.ofUInt8 · == d) =
      if (cs.takeWhile (· != d)).length = cs.length then none else some (Text.size (cs.takeWhile (· != d))) := by
  induction cs with
  | nil => rfl
  | cons c cs ih =>
      rw [octets_cons, List.findIdx?_append, ih]
      by_cases hc : c = d
      · subst hc
        rcases utf8EncodeChar_cases c with ⟨_, b, hb, he⟩ | ⟨hge, _⟩
        · rw [List.takeWhile_cons_of_neg (by simp)]
          simp [hb, he]
        · omega
      · have hnone : (String.utf8EncodeChar c).findIdx? (Char.ofUInt8 · == d) = none := by
          rw [List.findIdx?_eq_none_iff]
          intro b hb
          exact beq_eq_false_iff_ne.2 (ne_of_mem_utf8EncodeChar hd hc b hb)
        rw [hnone, Option.none_or, List.takeWhile_cons_of_pos (by simpa using hc), List.length_cons, List.length_cons,
          Text.size_cons, String.length_utf8EncodeChar]
        simp only [Nat.add_right_cancel_iff]
        split
        · rfl
        · rw [Option.map_some, Nat.add_comm]

theorem At.stretch_append {bs : List UInt8} {i : Nat} {cs ds : List Char} (h : At bs i (cs ++ ds)) :
    stretch bs i (i + Text.size cs) = .ok (octets cs) := by
  obtain ⟨before, hb, rfl⟩ := h
  rw [octets_append, ← List.append_assoc] at hb
  have hs := stretch_eq hb
  rwa [length_octets] at hs

section

variable {body : List UInt8} {next : UInt8} {i : Nat} {c : Char} {cs : List Char}

theorem take_through_closing {d : Char} (h : (cs.takeWhile (· != d)).length ≠ cs.length) :
    cs.take ((cs.takeWhile (· != d)).length + 1) = cs.takeWhile (· != d) ++ [d] := by
  induction cs with
  | nil => exact absurd rfl h
  | cons c cs ih =>
      by_cases hc : c = d
      · subst hc
        rw [List.takeWhile_cons_of_neg (by simp)]
        rfl
      · rw [List.takeWhile_cons_of_pos (by simpa using hc)] at h ⊢
        rw [List.length_cons, List.take_succ_cons, ih (fun he => h (congrArg Nat.succ he)), List.cons_append]

/-- An escape by code point ends with the brace that closes it, and what stands between the braces is not cut. -/
theorem escapeAt_codePoint (h : At body i ('{' :: cs)) (hn : Char.ofUInt8 next = 'u') :
    escapeAt body next i = .ok ((codePoint? cs).map fun e => (e.1, i + Text.size (('{' :: cs).take (e.2)))) := by
  have hopen := (h.octet?_eq (show ('{' : Char).toNat < 128 by decide)).2 rfl
  have htake : ('{' :: cs).takeWhile (· != '}') = '{' :: cs.takeWhile (· != '}') := rfl
  have ht := h.tail_of_lt (by decide)
  rw [escapeAt, hn, show simple? 'u' = none from rfl]
  simp only [show Digits.isDigit 8 'u' = false from rfl, hopen, stretch_of_rest h, ok_bind,
    findIdx?_octets (show ('}' : Char).toNat < 128 by decide), htake, List.length_cons, Nat.add_right_cancel_iff,
    codePoint?]
  by_cases hall : (cs.takeWhile (· != '}')).length = cs.length
  · simp [hall]
  · have hclose := take_through_closing hall
    have hhex : stretch body (i + 1) (i + Text.size ('{' :: cs.takeWhile (· != '}'))) =
        .ok (octets (cs.takeWhile (· != '}'))) := by
      rw [← List.takeWhile_append_dropWhile (p := (· != '}')) (l := cs)] at ht
      rw [Text.size_cons, ← Nat.add_assoc]
      exact ht.stretch_append
    have hutf : String.fromUTF8? ⟨(octets (cs.takeWhile (· != '}'))).toArray⟩ =
        some (String.ofList (cs.takeWhile (· != '}'))) := fromUTF8?_bytes _
    have hstop : i + Text.size ('{' :: cs.takeWhile (· != '}')) + 1 =
        i + Text.size (('{' :: cs).take ((cs.takeWhile (· != '}')).length + 2)) := by
      rw [List.take_succ_cons, hclose, Text.size_cons, Text.size_cons, Text.size_append, Nat.add_assoc, Nat.add_assoc]
      rfl
    simp only [if_neg hall, hhex, ok_bind, hutf, Option.bind_some, String.toList_ofList, hstop, Option.map_map]
    rfl

theorem escapeAt_eq (h : At body i (c :: cs)) (hb : String.utf8EncodeChar c = [next]) (hn : Char.ofUInt8 next = c) :
    escapeAt body next (i + 1) = .ok ((escape? c cs).map fun e => (e.1, i + 1 + Text.size (cs.take e.2))) := by
  have ht : At body (i + 1) cs := by
    have ht := h.tail
    rwa [← String.length_utf8EncodeChar, hb] at ht
  by_cases hu : c = 'u' ∧ cs.head? = some '{'
  · obtain ⟨rfl, hs⟩ := hu
    obtain ⟨ds, rfl⟩ := List.head?_eq_some_iff.1 hs
    exact escapeAt_codePoint ht hn
  rw [escapeAt, escape?, hn]
  cases simple? c with
  | some b => simp
  | none =>
      have hhex := ht.octet?_any fun x => isDigit_of_high 16
      have hopen := ht.octet?_eq (show ('{' : Char).toNat < 128 by decide)
      simp only [hhex, hopen, if_neg hu]
      split
      · rename_i hd
        have hrun : ((c :: cs).take 3).takeWhile (Digits.isDigit 8) = c :: (cs.take 2).takeWhile (Digits.isDigit 8) :=
          List.takeWhile_cons_of_pos hd
        rw [minus_of_le (by omega), ok_bind, Nat.add_sub_cancel, stretch_of_rest h, ok_bind, digitRun_octets, hrun,
          List.length_cons, minus_of_le (by omega), ok_bind, Nat.add_sub_cancel, Option.map_some, size_take_digits]
        rfl
      · split
        · rw [stretch_of_rest ht, ok_bind, digitRun_octets, Option.map_some, size_take_digits]
          rfl
        · rw [Option.map_some, bytes, hb]
          rfl

theorem simple?_of_le (h : 128 ≤ c.toNat) : simple? c = none := by
  unfold simple?
  split
  case h_10 => rfl
  all_goals exact absurd h (by decide)

theorem escape?_of_le (h : 128 ≤ c.toNat) (cs : List Char) : escape? c cs = some (0x5c :: bytes c, 0) := by
  have hx := ne_of_le_toNat (show ('x' : Char).toNat < 128 by decide) h
  have hu := ne_of_le_toNat (show ('u' : Char).toNat < 128 by decide) h
  simp [escape?, simple?_of_le h, isDigit_of_high 8 h, hx, hu]

theorem escapeAt_of_le (h : 128 ≤ (Char.ofUInt8 next).toNat) (i : Nat) :
    escapeAt body next i = .ok (some ([0x5c, next], i)) := by
  have hx := ne_of_le_toNat (show ('x' : Char).toNat < 128 by decide) h
  have hu := ne_of_le_toNat (show ('u' : Char).toNat < 128 by decide) h
  simp [escapeAt, simple?_of_le h, isDigit_of_high 8 h, hx, hu]

def decoded (quote : Quote) (cs : List Char) : Option (List UInt8) :=
  match quote with
  | .single => some ((singleText cs).flatMap bytes)
  | .double => doubleBytes? cs

theorem decoded_nil (quote : Quote) : decoded quote [] = some [] := by
  cases quote with
  | single => rfl
  | double => rw [decoded, doubleBytes?]

theorem decoded_cons (quote : Quote) (hc : c ≠ '\\') (cs : List Char) :
    decoded quote (c :: cs) = (decoded quote cs).map (bytes c ++ ·) := by
  cases quote with
  | single =>
      rw [decoded, singleText.eq_3 c cs (fun _ h _ => hc h) (fun _ h _ => hc h)]
      rfl
  | double => exact doubleBytes?_of_ne hc cs

theorem decoded_backslash (quote : Quote) : decoded quote ['\\'] = some [0x5c] := by
  cases quote with
  | single => rfl
  | double => simp [decoded, doubleBytes?]

theorem decoded_escape {bs : List UInt8} {n : Nat} (h : escape? c cs = some (bs, n)) :
    decoded .double ('\\' :: c :: cs) = (decoded .double (cs.drop n)).map (bs ++ ·) := doubleBytes?_escape h

theorem decoded_single_of_escape (h : c = '\\' ∨ c = '\'') :
    decoded .single ('\\' :: c :: cs) = (decoded .single cs).map (bytes c ++ ·) := by
  rcases h with rfl | rfl <;> rfl

theorem decoded_single_of_plain (h : ¬(c = '\\' ∨ c = '\'')) :
    decoded .single ('\\' :: c :: cs) = (decoded .single (c :: cs)).map (0x5c :: ·) := by
  rw [not_or] at h
  have hs : singleText ('\\' :: c :: cs) = '\\' :: singleText (c :: cs) :=
    singleText.eq_3 _ _ (fun _ _ he => h.1 (List.cons_eq_cons.1 he).1) fun _ _ he => h.2 (List.cons_eq_cons.1 he).1
  rw [decoded, hs]
  rfl

theorem exists_utf8EncodeChar (c : Char) :
    ∃ b bs, String.utf8EncodeChar c = b :: bs ∧ (∀ x ∈ bs, IsHigh x) ∧
      (c.toNat < 128 ∧ Char.ofUInt8 b = c ∧ bs = [] ∨ 128 ≤ c.toNat ∧ 128 ≤ (Char.ofUInt8 b).toNat) := by
  rcases utf8EncodeChar_cases c with ⟨hc, b, hb, he⟩ | ⟨hc, b, bs, hb, hh, hhs⟩
  · exact ⟨b, [], hb, by simp, .inl ⟨hc, he, rfl⟩⟩
  · exact ⟨b, bs, hb, hhs, .inr ⟨hc, by rw [toNat_ofUInt8]; exact hh⟩⟩

theorem unescape_of_ne {quote : Quote} {rounds : Nat} {b : UInt8} {ys : List UInt8} {out : Option (List UInt8)}
    (h : Rest body i (b :: ys)) (hb : Char.ofUInt8 b ≠ '\\') (hr : unescape quote body rounds (i + 1) = .ok out) :
    unescape quote body (rounds + 1) i = .ok (out.map (b :: ·)) := by
  rw [unescape, if_pos h.lt, h.element, ok_bind, if_pos hb, hr]
  rfl

theorem unescape_of_none {rounds : Nat} {ys : List UInt8} {b : UInt8} (h : Rest body i (b :: next :: ys))
    (hb : Char.ofUInt8 b = '\\') (he : escapeAt body next (i + 2) = .ok none) :
    unescape .double body (rounds + 1) i = .ok none := by
  have hget : body[i + 1]? = some next := h.tail.get 0
  rw [unescape, if_pos h.lt, h.element, ok_bind, if_neg (not_not_intro hb)]
  simp only [hget, he, ok_bind]
  rfl

theorem unescape_of_some {rounds j : Nat} {ys bs : List UInt8} {b : UInt8} {out : Option (List UInt8)}
    (h : Rest body i (b :: next :: ys)) (hb : Char.ofUInt8 b = '\\')
    (he : escapeAt body next (i + 2) = .ok (some (bs, j))) (hr : unescape .double body rounds j = .ok out) :
    unescape .double body (rounds + 1) i = .ok (out.map (bs ++ ·)) := by
  have hget : body[i + 1]? = some next := h.tail.get 0
  rw [unescape, if_pos h.lt, h.element, ok_bind, if_neg (not_not_intro hb)]
  simp only [hget, he, ok_bind, hr]
  rfl

theorem unescape_single {rounds : Nat} {ys : List UInt8} {b : UInt8} (h : Rest body i (b :: next :: ys))
    (hb : Char.ofUInt8 b = '\\') :
    unescape .single body (rounds + 1) i =
      if Char.ofUInt8 next = '\\' ∨ Char.ofUInt8 next = '\'' then
        do return (← unescape .single body rounds (i + 2)).map (next :: ·)
      else do return (← unescape .single body rounds (i + 1)).map (0x5c :: ·) := by
  have hget : body[i + 1]? = some next := h.tail.get 0
  rw [unescape, if_pos h.lt, h.element, ok_bind, if_neg (not_not_intro hb)]
  simp only [hget]

/-- The rounds that start behind `i` read what the rest stands for, also where a character was begun. -/
def ReadsBehind (quote : Quote) (body : List UInt8) (rounds i : Nat) : Prop :=
  ∀ {j : Nat} {hs : List UInt8} {ds : List Char}, i < j → Rest body j (hs ++ octets ds) → (∀ b ∈ hs, IsHigh b) →
    unescape quote body rounds j = .ok ((decoded quote ds).map (hs ++ ·))

/-- One round at an escape between double quotes. A character beyond ASCII behind the backslash is cut after its first
byte. -/
theorem unescape_double_escape {rounds : Nat} (h : At body i ('\\' :: c :: cs))
    (ih : ReadsBehind .double body rounds i) :
    unescape .double body (rounds + 1) i = .ok (decoded .double ('\\' :: c :: cs)) := by
  have hrest : Rest body i (0x5c :: octets (c :: cs)) := h
  have hslash : Char.ofUInt8 0x5c = '\\' := rfl
  obtain ⟨b, bs, hb, hbs, he⟩ := exists_utf8EncodeChar c
  rw [octets_cons, hb] at hrest
  have hnext := hrest.tail.tail
  rcases he with ⟨_, he, rfl⟩ | ⟨hge, he⟩
  · have hx := escapeAt_eq h.tail hb he
    cases hes : escape? c cs with
    | none =>
        rw [hes] at hx
        rw [unescape_of_none hrest hslash hx, decoded, doubleBytes?.eq_def]
        simp [hes]
    | some e =>
        obtain ⟨out, n⟩ := e
        rw [hes] at hx
        have hdrop : Rest body (i + 2 + Text.size (cs.take n)) ([] ++ octets (cs.drop n)) := by
          apply At.append
          rw [List.take_append_drop]
          exact hnext
        rw [unescape_of_some hrest hslash hx (ih (by omega) hdrop (by simp)), Option.map_map, decoded_escape hes]
        rfl
  · rw [unescape_of_some hrest hslash (escapeAt_of_le he _) (ih (by omega) hnext hbs), Option.map_map,
      decoded_escape (escape?_of_le hge cs), bytes, hb]
    rfl

theorem unescape_single_escape {rounds : Nat} (h : At body i ('\\' :: c :: cs))
    (ih : ReadsBehind .single body rounds i) :
    unescape .single body (rounds + 1) i = .ok (decoded .single ('\\' :: c :: cs)) := by
  have hrest : Rest body i (0x5c :: octets (c :: cs)) := h
  obtain ⟨b, bs, hb, _, he⟩ := exists_utf8EncodeChar c
  rw [octets_cons, hb] at hrest
  rw [unescape_single hrest rfl]
  by_cases hq : Char.ofUInt8 b = '\\' ∨ Char.ofUInt8 b = '\''
  · rcases he with ⟨_, rfl, rfl⟩ | ⟨_, he⟩
    · have hnext : Rest body (i + 2) ([] ++ octets cs) := hrest.tail.tail
      rw [if_pos hq, ih (by omega) hnext (by simp), ok_bind, pure_ok, Option.map_map, decoded_single_of_escape hq,
        bytes, hb]
      rfl
    · rcases hq with hq | hq <;> rw [hq] at he <;> exact absurd he (by decide)
  · have hnext : Rest body (i + 1) ([] ++ octets (c :: cs)) := h.tail
    have hne : ¬(c = '\\' ∨ c = '\'') := by
      rcases he with ⟨_, rfl, _⟩ | ⟨hge, _⟩
      · exact hq
      · rw [not_or]
        exact ⟨ne_of_le_toNat (by decide) hge, ne_of_le_toNat (by decide) hge⟩
    rw [if_neg hq, ih (by omega) hnext (by simp), ok_bind, pure_ok, Option.map_map, decoded_single_of_plain hne]
    rfl

theorem unescape_backslash {quote : Quote} {rounds : Nat} (h : At body i ('\\' :: cs))
    (ih : ReadsBehind quote body rounds i) :
    unescape quote body (rounds + 1) i = .ok (decoded quote ('\\' :: cs)) := by
  cases cs with
  | nil =>
      have hrest : Rest body i [0x5c] := h
      have hslash : Char.ofUInt8 0x5c = '\\' := rfl
      have hget : body[i + 1]? = none := hrest.tail.get 0
      rw [unescape, if_pos h.lt, hrest.element, ok_bind, if_neg (not_not_intro hslash), decoded_backslash]
      simp only [hget]
      rfl
  | cons c cs =>
      cases quote with
      | double => exact unescape_double_escape h ih
      | single => exact unescape_single_escape h ih

/-- The bytes that the body of a string stands for, where `hs` is left of a character that was begun. -/
theorem unescape_eq {quote : Quote} {rounds : Nat} {hs : List UInt8} (h : Rest body i (hs ++ octets cs))
    (hh : ∀ b ∈ hs, IsHigh b) (hr : body.length < i + rounds) :
    unescape quote body rounds i = .ok ((decoded quote cs).map (hs ++ ·)) := by
  induction rounds generalizing i hs cs with
  | zero =>
      have hl := h.length_eq
      omega
  | succ rounds ih =>
      cases hs with
      | cons b hs =>
          have hb : Char.ofUInt8 b ≠ '\\' :=
            ne_of_le_toNat (by decide) (by rw [toNat_ofUInt8]; exact hh b (.head _))
          have hn := ih h.tail (fun x hx => hh x (.tail _ hx)) (by omega)
          rw [unescape_of_ne h hb hn, Option.map_map]
          rfl
      | nil =>
          rw [show ((decoded quote cs).map ([] ++ ·)) = decoded quote cs from Option.map_id']
          cases cs with
          | nil =>
              have hl := At.nil h
              rw [unescape, if_neg (by omega), decoded_nil]
              rfl
          | cons c cs =>
              by_cases hc : c = '\\'
              · subst hc
                exact unescape_backslash h fun hj hrest hhs => ih hrest hhs (by omega)
              · obtain ⟨b, bs, hb, hbs, he⟩ := exists_utf8EncodeChar c
                have hne : Char.ofUInt8 b ≠ '\\' := by
                  rcases he with ⟨_, rfl, _⟩ | ⟨_, he⟩
                  · exact hc
                  · exact ne_of_le_toNat (by decide) he
                rw [List.nil_append, octets_cons, hb] at h
                have hn := ih (Rest.tail h) hbs (by omega)
                rw [unescape_of_ne h hne hn, Option.map_map, decoded_cons quote hc, bytes, hb]
                rfl

end

theorem ofChar?_eq_some {c : Char} {quote : Quote} (h : Quote.ofChar? c = some quote) :
    c = quote.char ∧ c.toNat < 128 := by
  unfold Quote.ofChar? at h
  split at h
  · rename_i hc
    cases h
    subst hc
    decide
  · split at h
    · rename_i hc
      cases h
      subst hc
      decide
    · cases h

theorem stripClosing_octets {quote : Quote} (hq : quote.char.toNat < 128) (cs : List Char) :
    stripClosing quote (octets cs) = octets (dropClosing quote.char cs) := by
  rcases List.eq_nil_or_concat cs with rfl | ⟨init, last, rfl⟩
  · cases quote <;> rfl
  · have ho : octets (init ++ [last]) = octets init ++ String.utf8EncodeChar last := by
      rw [octets_append, octets, octets, List.flatMap_singleton]
    rw [List.concat_eq_append, dropClosing, List.getLast?_concat, List.dropLast_concat, stripClosing, ho]
    by_cases hl : last = quote.char
    · subst hl
      rcases utf8EncodeChar_cases quote.char with ⟨_, b, hb, he⟩ | ⟨hge, _⟩
      · rw [hb, List.getLast?_concat, List.dropLast_concat, Option.map_some, he, if_pos rfl, if_pos rfl]
      · omega
    · obtain ⟨b, bs, hb, _⟩ := exists_utf8EncodeChar last
      have hne : String.utf8EncodeChar last ≠ [] := by simp [hb]
      have hlast := ne_of_mem_utf8EncodeChar hq hl _ (List.getLast_mem hne)
      rw [List.getLast?_append, List.getLast?_eq_some_getLast hne, Option.some_or, Option.map_some,
        if_neg (by simpa using hlast), if_neg (by simpa using hl), ho]

/-- Every byte that is read between the quotes is there, whatever the text. -/
theorem unquote_eq (text : String) : unquote text = .ok (decode? text) := by
  rw [unquote, decode?]
  cases ht : text.toList with
  | nil => rfl
  | cons c cs =>
      have h : At (octets (c :: cs)) 0 (c :: cs) := rest_zero _
      obtain ⟨b, hb, hc⟩ := h.read
      have hquote : (octet? (octets (c :: cs)) 0).bind Quote.ofChar? = Quote.ofChar? c := by
        rw [octet?_of_octet hb, Option.bind_some]
        rcases hc with ⟨rfl, _⟩ | ⟨hb', hc⟩
        · rfl
        · rw [ofChar?_of_le hb', ofChar?_of_le hc]
      simp only [hquote]
      cases hq : Quote.ofChar? c with
      | none => rfl
      | some quote =>
          obtain ⟨rfl, hlt⟩ := ofChar?_eq_some hq
          have hbody := stretch_of_rest (h.tail_of_lt hlt)
          rw [Nat.zero_add] at hbody
          simp only [hbody, ok_bind, stripClosing_octets hlt]
          have hrest : Rest (octets (dropClosing quote.char cs)) 0 ([] ++ octets (dropClosing quote.char cs)) :=
            rest_zero _
          have hr : unescape quote (octets (dropClosing quote.char cs))
              ((octets (dropClosing quote.char cs)).length + 1) 0 = .ok (decoded quote (dropClosing quote.char cs)) := by
            rw [unescape_eq hrest (by simp) (by omega)]
            exact congrArg Except.ok Option.map_id'
          rw [hr, ok_bind, pure_ok]
          cases quote with
          | single => exact congrArg Except.ok (fromUTF8?_bytes _)
          | double => rfl

end PhpTranspiler.Indexed
