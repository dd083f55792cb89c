import PhpTranspiler.Proofs.Brackets

namespace PhpTranspiler

namespace Nesting

/-- Nothing is open behind the tokens: whatever opens among them is closed again, brackets of all forms counting
alike. -/
def Shut (ts : List Token) : Prop := ∀ tail, tail <:+ ts → openedAll tail ≤ closedAll tail

/-- No comma of the tokens is outside brackets. -/
def Whole (ts : List Token) : Prop :=
  ∀ before comma after, ts = before ++ comma :: after → comma.kind = .comma → ¬Shut before

/-- The groups that the commas outside brackets divide the tokens into. -/
inductive Divided : List Token → List (List Token) → Prop
  | last {group : List Token} (h : Whole group) : Divided group [group]
  | more {group ts : List Token} {gs : List (List Token)} {comma : Token} (h : Whole group) (hs : Shut group)
      (hc : comma.kind = .comma) (hr : Divided ts gs) : Divided (group ++ comma :: ts) (group :: gs)

theorem Divided.isInfix {ts : List Token} {gs : List (List Token)} (h : Divided ts gs) : ∀ group ∈ gs, group <:+: ts := by
  induction h with
  | last h => simp
  | @more group ts gs comma _ _ _ _ ih =>
      refine List.forall_mem_cons.2 ⟨(List.prefix_append group _).isInfix, fun g hg => (ih g hg).trans ?_⟩
      exact ((List.suffix_cons comma ts).trans (List.suffix_append group _)).isInfix

def stepDepth (depth : Nat) (t : Token) : Nat :=
  match t.kind with
  | .opening _ => depth + 1
  | .closing _ => depth - 1
  | _ => depth

theorem shut_nil : Shut [] := by
  intro tail ht
  rw [List.suffix_nil.1 ht]
  exact Nat.le_refl _

theorem shut_cons {t : Token} {ts : List Token} :
    Shut (t :: ts) ↔ Shut ts ∧ openedAll (t :: ts) ≤ closedAll (t :: ts) := by
  constructor
  · intro h
    exact ⟨fun tail ht => h tail (ht.trans (List.suffix_cons t ts)), h _ List.suffix_rfl⟩
  · rintro ⟨h, hle⟩ tail ht
    rcases List.suffix_cons_iff.1 ht with rfl | ht
    · exact hle
    · exact h tail ht

theorem foldl_stepDepth_eq_zero_iff (depth : Nat) (ts : List Token) :
    ts.foldl stepDepth depth = 0 ↔ Shut ts ∧ depth + openedAll ts ≤ closedAll ts := by
  induction ts generalizing depth with
  | nil =>
      have hnil : openedAll [] = 0 := rfl
      simp [shut_nil, hnil, closedAll_nil]
  | cons t ts ih =>
      rw [List.foldl_cons, ih, shut_cons, and_assoc, openedAll_cons, closedAll_cons]
      apply and_congr_right
      intro hs
      have hle := hs ts List.suffix_rfl
      rw [stepDepth]
      cases t.kind <;> dsimp only <;> omega

theorem shut_iff {ts : List Token} : Shut ts ↔ ts.foldl stepDepth 0 = 0 := by
  rw [foldl_stepDepth_eq_zero_iff, Nat.zero_add]
  exact (and_iff_left_of_imp fun h => h ts List.suffix_rfl).symm

theorem groups_cons (depth : Nat) (t : Token) (ts : List Token) :
    groups depth (t :: ts) =
      if t.kind = .comma ∧ depth = 0 then [] :: groups 0 ts else onto t (groups (stepDepth depth t) ts) := by
  rw [groups, stepDepth]
  split <;> simp_all

def WholeAt (depth : Nat) (ts : List Token) : Prop :=
  ∀ before comma after, ts = before ++ comma :: after → comma.kind = .comma → before.foldl stepDepth depth ≠ 0

theorem whole_iff {ts : List Token} : Whole ts ↔ WholeAt 0 ts := by
  simp only [Whole, WholeAt, shut_iff, ne_eq]

theorem wholeAt_cons {depth : Nat} {t : Token} {ts : List Token} :
    WholeAt depth (t :: ts) ↔ ¬(t.kind = .comma ∧ depth = 0) ∧ WholeAt (stepDepth depth t) ts := by
  constructor
  · intro h
    refine ⟨fun ⟨hk, hd⟩ => h [] t ts rfl hk hd, ?_⟩
    rintro before comma after rfl hk
    exact h (t :: before) comma after rfl hk
  · rintro ⟨hn, h⟩ before comma after he hk
    cases before with
    | nil =>
        obtain ⟨rfl, _⟩ := List.cons_eq_cons.1 he
        exact fun hd => hn ⟨hk, hd⟩
    | cons u before =>
        obtain ⟨rfl, rfl⟩ := List.cons_eq_cons.1 he
        exact h before comma after rfl hk

theorem groups_of_wholeAt {depth : Nat} {ts : List Token} (h : WholeAt depth ts) : groups depth ts = [ts] := by
  induction ts generalizing depth with
  | nil => rfl
  | cons t ts ih =>
      obtain ⟨hn, h⟩ := wholeAt_cons.1 h
      rw [groups_cons, if_neg hn, ih h]
      rfl

theorem groups_of_comma {depth : Nat} {group : List Token} {comma : Token} (h : WholeAt depth group)
    (hd : group.foldl stepDepth depth = 0) (hc : comma.kind = .comma) (ts : List Token) :
    groups depth (group ++ comma :: ts) = group :: groups 0 ts := by
  induction group generalizing depth with
  | nil => rw [List.nil_append, groups_cons, if_pos ⟨hc, hd⟩]
  | cons t group ih =>
      obtain ⟨hn, h⟩ := wholeAt_cons.1 h
      rw [List.cons_append, groups_cons, if_neg hn, ih h hd]
      rfl

theorem wholeAt_or (depth : Nat) (ts : List Token) :
    WholeAt depth ts ∨ ∃ group comma rest, ts = group ++ comma :: rest ∧ comma.kind = .comma ∧
      WholeAt depth group ∧ group.foldl stepDepth depth = 0 := by
  induction ts generalizing depth with
  | nil => exact .inl fun before comma after he => by simp at he
  | cons t ts ih =>
      by_cases hn : t.kind = .comma ∧ depth = 0
      · exact .inr ⟨[], t, ts, rfl, hn.1, fun before comma after he => by simp at he, hn.2⟩
      rcases ih (stepDepth depth t) with h | ⟨group, comma, rest, rfl, hc, h, hd⟩
      · exact .inl (wholeAt_cons.2 ⟨hn, h⟩)
      · exact .inr ⟨t :: group, comma, rest, rfl, hc, wholeAt_cons.2 ⟨hn, h⟩, hd⟩

theorem divided_groups (ts : List Token) : Divided ts (groups 0 ts) := by
  induction hn : ts.length using Nat.strongRecOn generalizing ts with
  | ind n ih =>
      rcases wholeAt_or 0 ts with h | ⟨group, comma, rest, rfl, hc, h, hd⟩
      · rw [groups_of_wholeAt h]
        exact .last (whole_iff.2 h)
      · rw [groups_of_comma h hd hc]
        have hlt : rest.length < n := by
          rw [← hn, List.length_append, List.length_cons]
          omega
        exact .more (whole_iff.2 h) (shut_iff.2 hd) hc (ih _ hlt rest rfl)

theorem divided_iff {ts : List Token} {gs : List (List Token)} : Divided ts gs ↔ groups 0 ts = gs := by
  constructor
  · intro h
    induction h with
    | last h => exact groups_of_wholeAt (whole_iff.1 h)
    | more h hs hc _ ih => rw [groups_of_comma (whole_iff.1 h) (shut_iff.1 hs) hc, ih]
  · rintro rfl
    exact divided_groups ts

end Nesting

end PhpTranspiler
