import PhpTranspiler.Proofs.Indexed.Spots

namespace PhpTranspiler.Indexed

open Script

/-- A numeral in lower case without separators and leading minus. The zero of an octal one is cut off. -/
def magnitude? (s : String) : Except Trap (Option Binary64) :=
  match s.toList with
  | '0' :: 'x' :: body => return Numeral.inBase? 16 body
  | '0' :: 'b' :: body => return Numeral.inBase? 2 body
  | '0' :: 'o' :: body => return Numeral.inBase? 8 body
  | cs =>
    if 1 < s.utf8ByteSize ∧ cs.head? = some '0' ∧ cs.all Char.isDigit then do
      return Numeral.inBase? 8 (← cut s 1 s.utf8ByteSize).toList
    else return if cs ≠ [] ∧ cs.all Numeral.isDecimalMark then Numeral.decimal? cs else none

def numeral? (text : String) : Except Trap (Option Binary64) :=
  match text.toList.filter (· != '_') with
  | '-' :: rest => do
    return (← magnitude? (String.ofList ((Text.trimStart rest).map Char.toLower))).map Binary64.neg
  | cs => magnitude? (String.ofList (cs.map Char.toLower))

def literal : Scalar → Except Trap (Except Refusal Literal)
  | .number numeral => do
    match (← numeral? numeral).filter Binary64.isFinite with
    | some x => return .ok ⟨.number x, numberText x⟩
    | none => return .error (.number numeral)
  | s => return Literal.ofScalar s

def spelled (raw : String) (group : List Spot) : Except Trap String :=
  match group.head?, group.getLast? with
  | some first, some last => cut raw first.span.start last.span.stop
  | _, _ => return ""

def refuse (raw : String) (group : List Spot) : Except Trap (Except Refusal Argument) := do
  return .error (.argument (← spelled raw group))

def scalar? (raw : String) (s : Spot) : Except Trap (Option Scalar) :=
  match s.kind with
  | .quoted _ true => do return (← unquote (← s.text raw)).map .text
  | .number => do return some (.number (← s.text raw))
  | .word => do
    if ← s.isWord raw "true" then return some (.bool true)
    else if ← s.isWord raw "false" then return some (.bool false)
    else if ← s.isWord raw "null" then return some .null
    else return none
  | _ => return none

def argument (raw : String) (group : List Spot) : Except Trap (Except Refusal Argument) :=
  match group with
  | [s] =>
    if s.kind = .variable then do
      match ← s.name? raw with
      | some name => return .ok (.variable name)
      | none => refuse raw group
    else do
      match ← scalar? raw s with
      | some scalar => return (← literal scalar).map .literal
      | none => refuse raw group
  | [minus, n] => do
    if (← minus.text raw) = "-" ∧ n.kind = .number then
      return (← literal (.number ("-" ++ (← n.text raw)))).map .literal
    else refuse raw group
  | _ => refuse raw group

/-- The arguments that a text spells. Those behind one that is refused are looked at too. -/
def arguments (raw : String) : Except Trap (Except Refusal (List Argument)) := do
  let spots ← tokenize raw
  if spots.isEmpty then return .ok []
  else return (← (← groups spots).mapM (argument raw)).mapM id

theorem size_of_digits {cs : List Char} (h : cs.all Char.isDigit) : Text.size cs = cs.length := by
  induction cs with
  | nil => rfl
  | cons c cs ih =>
      rw [List.all_cons, Bool.and_eq_true] at h
      have hd : c.toNat < 128 := by
        have hc : '0' ≤ c ∧ c ≤ '9' := by simpa [Char.isDigit, Char.le_def] using h.1
        exact Nat.lt_of_le_of_lt hc.2 (by decide)
      rw [Text.size_cons, utf8Size_of_lt hd, ih h.2, List.length_cons, Nat.add_comm]

theorem magnitude?_eq (cs : List Char) : magnitude? (String.ofList cs) = .ok (Numeral.magnitude? cs) := by
  unfold magnitude?
  rw [String.toList_ofList]
  split
  · rfl
  · rfl
  · rfl
  · rename_i hx hb ho
    rw [Numeral.magnitude?.eq_4 cs hx hb ho]
    by_cases hd : 1 < cs.length ∧ cs.head? = some '0' ∧ cs.all Char.isDigit
    · obtain ⟨hl, hh, ha⟩ := hd
      obtain ⟨ds, rfl⟩ := List.head?_eq_some_iff.1 hh
      have hcut : cut (String.ofList ('0' :: ds)) 1 (String.ofList ('0' :: ds)).utf8ByteSize =
          .ok (String.ofList ds) :=
        cut_suffix (show (String.ofList ('0' :: ds)).toList = ['0'] ++ ds by simp)
      rw [if_pos ⟨by rw [Text.utf8ByteSize_ofList, size_of_digits ha]; exact hl, hh, ha⟩, if_pos ⟨hl, hh, ha⟩, hcut]
      simp
    · have hs : ¬(1 < (String.ofList cs).utf8ByteSize ∧ cs.head? = some '0' ∧ cs.all Char.isDigit) := by
        rintro ⟨hl, hh, ha⟩
        rw [Text.utf8ByteSize_ofList, size_of_digits ha] at hl
        exact hd ⟨hl, hh, ha⟩
      rw [if_neg hd, if_neg hs]
      rfl

theorem numeral?_eq (text : String) : numeral? text = .ok (Numeral.read? text) := by
  unfold numeral? Numeral.read?
  generalize text.toList.filter (· != '_') = cs
  split <;> simp [magnitude?_eq]

theorem literal_eq (s : Scalar) : literal s = .ok (Literal.ofScalar s) := by
  cases s with
  | number numeral =>
      simp only [literal, numeral?_eq, ok_bind, Literal.ofScalar]
      cases (Numeral.read? numeral).filter Binary64.isFinite <;> rfl
  | text s => rfl
  | bool b => rfl
  | null => rfl

section

variable {raw : String} {t : Token} {ts : List Token}

theorem Legible.group {group : List Token} (h : Legible raw ts) (hg : group ∈ Nesting.groups 0 ts) :
    Legible raw group := by
  obtain ⟨first, gs, hgs, hfirst, hmore⟩ := groups_infix 0 ts
  have hi : group <:+: ts := by
    rw [hgs] at hg
    rcases List.mem_cons.1 hg with rfl | hg
    · exact hfirst.isInfix
    · exact hmore group hg
  obtain ⟨before, after, rfl⟩ := hi
  exact h.append.1.append.2

theorem spelled_eq (h : Legible raw ts) : spelled raw (ts.map Spot.ofToken) = .ok (Token.spelled ts) := by
  cases ts with
  | nil => rfl
  | cons t ts =>
      obtain ⟨last, hlast⟩ : ∃ last, (t :: ts).getLast? = some last :=
        ⟨_, List.getLast?_eq_some_getLast (by simp)⟩
      have hstop := h.standIn.getLast_stop hlast
      have hs := cut_of_standsAt h.standIn.spelled
      rw [← hstop] at hs
      rw [spelled, List.getLast?_map, hlast]
      exact hs

theorem refuse_eq (h : Legible raw ts) :
    refuse raw (ts.map Spot.ofToken) = .ok (.error (.argument (Token.spelled ts))) := by
  rw [refuse, spelled_eq h]
  rfl

theorem scalar?_eq (h : Legible raw ts) (ht : t ∈ ts) :
    scalar? raw (Spot.ofToken t) = .ok (Argument.scalar? t) := by
  simp only [scalar?, Argument.scalar?, Spot.kind_ofToken, h.text ht, h.isWord ht, ok_bind, unquote_eq]
  cases t.kind with
  | quoted quote closed => cases closed <;> rfl
  | word =>
      simp only [← apply_ite pure]
      rfl
  | _ => rfl

theorem argument_eq (h : Legible raw ts) : argument raw (ts.map Spot.ofToken) = .ok (Argument.ofTokens ts) := by
  have hrefuse := refuse_eq h
  match ts with
  | [] => exact hrefuse
  | [t] =>
      have ht : t ∈ [t] := .head _
      by_cases hk : t.kind = .variable
      · simp only [List.map_cons, List.map_nil, argument, Argument.ofTokens, Spot.kind_ofToken, hk, if_true,
          h.name? ht hk, ok_bind]
        rfl
      · simp only [List.map_cons, List.map_nil, argument, Argument.ofTokens, Spot.kind_ofToken, hk, if_false,
          scalar?_eq h ht, ok_bind]
        cases Argument.scalar? t with
        | none => exact hrefuse
        | some s =>
            simp only [literal_eq, ok_bind]
            rfl
  | [minus, n] =>
      have hm : minus ∈ [minus, n] := .head _
      have hn : n ∈ [minus, n] := .tail _ (.head _)
      simp only [List.map_cons, List.map_nil, argument, Argument.ofTokens, Spot.kind_ofToken, h.text hm, h.text hn,
        ok_bind, literal_eq]
      split
      · rfl
      · exact hrefuse
  | _ :: _ :: _ :: _ => exact hrefuse

end

theorem arguments_eq (raw : String) : arguments raw = .ok (Script.arguments raw) := by
  have h := legible_tokenize raw
  rw [arguments, tokenize_eq, ok_bind, Script.arguments, List.isEmpty_map]
  cases ht : (Lexer.tokenize raw).isEmpty with
  | true => rfl
  | false =>
      have hm : (Nesting.groups 0 (Lexer.tokenize raw)).mapM (argument raw ∘ List.map Spot.ofToken) =
          .ok ((Nesting.groups 0 (Lexer.tokenize raw)).map Argument.ofTokens) :=
        mapM_ok fun group hg => argument_eq (h.group hg)
      rw [if_neg Bool.false_ne_true, groups_eq, ok_bind, List.mapM_map, hm, ok_bind, if_neg Bool.false_ne_true,
        List.mapM_map]
      rfl

end PhpTranspiler.Indexed
