import Mathlib
import PhpTranspiler.Proofs.Placement

namespace PhpTranspiler.Indexed

inductive Trap
  | index
  | range
  | boundary
  | underflow
  /-- A statement starts in what is dealt with already. -/
  | overlap
  /-- A loop goes on for more rounds than there is data. -/
  | endless
  deriving DecidableEq, Repr

section Lists

variable {α β : Type}

def element (xs : List α) (i : Nat) : Except Trap α :=
  match xs[i]? with
  | some x => .ok x
  | none => .error .index

def stretch (xs : List α) (i j : Nat) : Except Trap (List α) :=
  if i ≤ j ∧ j ≤ xs.length then .ok ((xs.take j).drop i) else .error .range

def minus (m n : Nat) : Except Trap Nat := if n ≤ m then .ok (m - n) else .error .underflow

@[simp] theorem pure_ok (a : α) : (pure a : Except Trap α) = .ok a := rfl

@[simp] theorem ok_bind (a : α) (f : α → Except Trap β) : (Except.ok a >>= f) = f a := rfl

theorem element_of_get {xs : List α} {i : Nat} {x : α} (h : xs[i]? = some x) : element xs i = .ok x := by
  rw [element, h]

theorem minus_of_le {m n : Nat} (h : n ≤ m) : minus m n = .ok (m - n) := if_pos h

/-- What stands from `i` on is `ys`. -/
def Rest (xs : List α) (i : Nat) (ys : List α) : Prop := ∃ before, xs = before ++ ys ∧ before.length = i

theorem Rest.length_eq {xs ys : List α} {i : Nat} (h : Rest xs i ys) : xs.length = i + ys.length := by
  obtain ⟨before, rfl, rfl⟩ := h
  exact List.length_append

theorem Rest.get {xs ys : List α} {i : Nat} (h : Rest xs i ys) (k : Nat) : xs[i + k]? = ys[k]? := by
  obtain ⟨before, rfl, rfl⟩ := h
  rw [List.getElem?_append_right (by omega), Nat.add_sub_cancel_left]

theorem Rest.append {xs ys zs : List α} {i : Nat} (h : Rest xs i (ys ++ zs)) : Rest xs (i + ys.length) zs := by
  obtain ⟨before, rfl, rfl⟩ := h
  exact ⟨before ++ ys, by rw [List.append_assoc], List.length_append⟩

theorem Rest.tail {xs ys : List α} {y : α} {i : Nat} (h : Rest xs i (y :: ys)) : Rest xs (i + 1) ys :=
  (show Rest xs i ([y] ++ ys) from h).append

theorem Rest.lt {xs ys : List α} {y : α} {i : Nat} (h : Rest xs i (y :: ys)) : i < xs.length := by
  rw [h.length_eq, List.length_cons]
  omega

theorem Rest.element {xs ys : List α} {y : α} {i : Nat} (h : Rest xs i (y :: ys)) : element xs i = .ok y :=
  element_of_get (h.get 0)

theorem rest_zero (xs : List α) : Rest xs 0 xs := ⟨[], rfl, rfl⟩

theorem rest_map {xs ys : List α} {i : Nat} (h : Rest xs i ys) (f : α → β) : Rest (xs.map f) i (ys.map f) := by
  obtain ⟨before, rfl, rfl⟩ := h
  exact ⟨before.map f, List.map_append, List.length_map f⟩

theorem stretch_eq {xs before part after : List α} (h : xs = before ++ part ++ after) :
    stretch xs before.length (before.length + part.length) = .ok part := by
  subst h
  rw [stretch, if_pos]
  · rw [← List.length_append, List.take_left, List.drop_left]
  · simp

theorem stretch_of_rest {xs ys : List α} {i : Nat} (h : Rest xs i ys) : stretch xs i xs.length = .ok ys := by
  obtain ⟨before, rfl, rfl⟩ := h
  have hs := stretch_eq (show before ++ ys = before ++ ys ++ [] by simp)
  rwa [← List.length_append] at hs

end Lists

def isBoundary : List Char → Nat → Bool
  | _, 0 => true
  | [], _ + 1 => false
  | c :: cs, n + 1 => c.utf8Size ≤ n + 1 && isBoundary cs (n + 1 - c.utf8Size)

def cut (s : String) (i j : Nat) : Except Trap String :=
  if i ≤ j ∧ j ≤ s.utf8ByteSize then
    if isBoundary s.toList i && isBoundary s.toList j then .ok (Text.slice s ⟨i, j⟩) else .error .boundary
  else .error .range

theorem isBoundary_size (cs ds : List Char) : isBoundary (cs ++ ds) (Text.size cs) := by
  induction cs with
  | nil =>
      cases ds <;> rfl
  | cons c cs ih =>
      have hc := c.utf8Size_pos
      obtain ⟨n, hn⟩ : ∃ n, c.utf8Size + Text.size cs = n + 1 := ⟨c.utf8Size + Text.size cs - 1, by omega⟩
      rw [List.cons_append, Text.size_cons, hn, isBoundary, ← hn, Nat.add_sub_cancel_left, ih]
      simp

theorem cut_of_standsAt {s part : String} {span : Span} (h : Text.StandsAt s span part) :
    cut s span.start span.stop = .ok part := by
  have hs := h.slice_eq
  obtain ⟨before, after, rfl, rfl⟩ := h
  have hstart : isBoundary (before ++ part ++ after).toList before.utf8ByteSize := by
    rw [String.toList_append, String.toList_append, List.append_assoc, ← Text.size_toList]
    exact isBoundary_size _ _
  have hstop : isBoundary (before ++ part ++ after).toList (before.utf8ByteSize + part.utf8ByteSize) := by
    rw [String.toList_append, ← String.utf8ByteSize_append, ← Text.size_toList]
    exact isBoundary_size _ _
  have hle : before.utf8ByteSize ≤ before.utf8ByteSize + part.utf8ByteSize ∧
      before.utf8ByteSize + part.utf8ByteSize ≤ (before ++ part ++ after).utf8ByteSize := by
    simp only [String.utf8ByteSize_append]
    omega
  rw [cut, if_pos hle, if_pos (by rw [hstart, hstop]; rfl), hs]

theorem cut_suffix {s : String} {before after : List Char} (h : s.toList = before ++ after) :
    cut s (Text.size before) s.utf8ByteSize = .ok (String.ofList after) := by
  refine cut_of_standsAt (show Text.StandsAt s ⟨Text.size before, s.utf8ByteSize⟩ (String.ofList after) from ?_)
  refine ⟨String.ofList before, "", ?_, ?_⟩
  · apply String.toList_injective
    simpa using h
  · rw [← Text.size_toList, h]
    simp

end PhpTranspiler.Indexed
