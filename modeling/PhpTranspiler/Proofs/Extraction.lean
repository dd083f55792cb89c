import Mathlib
import PhpTranspiler.Proofs.Locality
import PhpTranspiler.Proofs.Tiling

namespace PhpTranspiler

def Item.shape? : Item → Option Shape
  | .assignment _ _ _ => some .assignment
  | .call _ _ _ => some .call
  | .function _ _ _ _ _ => some .function
  | .fault _ => none

namespace Pattern

open Nesting Token

def Form.shape : Form → Shape
  | .assignment _ _ => .assignment
  | .call _ _ => .call
  | .function _ _ _ _ => .function

def Match.Decodes (m : Match) : Prop :=
  ∀ name literal, m.form = .assignment name literal → (Quoted.decode? literal.text).isSome

variable {shape : Shape} {t : Token} {ts : List Token} {m : Match}

theorem shape_of_value? {name : String} {skipped : Nat} (h : value? name skipped ts = some m) :
    m.form.shape = .assignment := by
  obtain ⟨_, _, _, _, _, _, _, _, rfl⟩ := value?_eq_some h
  rfl

theorem shape_of_assignment? (h : assignment? t ts = some m) : m.form.shape = .assignment := by
  unfold assignment? at h
  split at h
  · exact shape_of_value? h
  · split at h
    · exact shape_of_value? h
    · cases h
  · cases h

theorem shape_of_call? (h : call? t ts = some m) : m.form.shape = .call := by
  unfold call? at h
  repeat' split at h
  all_goals cases h
  rfl

theorem shape_of_function? (h : function? t ts = some m) : m.form.shape = .function := by
  unfold function? at h
  repeat' split at h
  all_goals cases h
  rfl

theorem shape_of_match? (h : match? shape t ts = some m) : m.form.shape = shape := by
  cases shape with
  | assignment => exact shape_of_assignment? h
  | call => exact shape_of_call? h
  | function => exact shape_of_function? h

theorem match?_eq_some_iff : match? shape t ts = some m ↔ Spells t ts m ∧ m.form.shape = shape := by
  refine ⟨fun h => ⟨match?_spells h, shape_of_match? h⟩, ?_⟩
  rintro ⟨h, rfl⟩
  obtain ⟨shape, _, hm⟩ := Option.bind_eq_some_iff.1 h.recognize?_eq
  rwa [shape_of_match? hm]

theorem classify_eq_some_iff : classify (t :: ts) = some shape ↔ ∃ m, match? shape t ts = some m := by
  constructor
  · intro h
    exact Option.isSome_iff_exists.1 (by simpa using List.find?_some h)
  · rintro ⟨m, h⟩
    obtain ⟨other, hc, hm⟩ := Option.bind_eq_some_iff.1 (match?_spells h).recognize?_eq
    rwa [← shape_of_match? h, shape_of_match? hm]

theorem Spells.take_append (h : Spells t ts m) (us : List Token) : Spells t (ts.take m.more ++ us) m := by
  cases h with
  | assignment ht he hl hs => exact .assignment ht he hl hs
  | writtenOut ht hn he hl hs => exact .writtenOut ht hn he hl hs
  | @call paren close semi inside rest ht hk hp hi hc hs =>
      have he : paren :: inside ++ [close, semi] ++ us = paren :: inside ++ close :: semi :: us := by simp
      rw [take_call, he]
      exact .call ht hk hp hi hc hs
  | @function name paren close brace last inside body rest params ht hn hp hi hc hps hb hbody hl =>
      have he : name :: paren :: inside ++ close :: brace :: body ++ [last] ++ us =
          name :: paren :: inside ++ close :: brace :: body ++ last :: us := by simp
      rw [take_function, he]
      exact .function ht hn hp hi hc hps hb hbody hl

theorem item_take_append (h : Spells t ts m) (us : List Token) (body : List Item) :
    m.item t (ts.take m.more ++ us) body = m.item t ts body := by
  have htake : (ts.take m.more ++ us).take m.more = ts.take m.more :=
    List.take_left' (by rw [List.length_take, Nat.min_eq_left h.more_le])
  simp only [Match.item, excerpt, htake]

theorem extract_of_match? (h : match? shape t ts = some m) :
    extract shape t ts = (m.item t ts (items m.body)).map fun item => (item, m.more + 1) := by
  simp only [extract, h]

theorem extract_of_none (h : match? shape t ts = none) : extract shape t ts = .error (unrecognized t ts) := by
  simp only [extract, h]

theorem item_eq_ok_iff (body : List Item) : (∃ item, m.item t ts body = .ok item) ↔ m.Decodes := by
  obtain ⟨form, more⟩ := m
  cases form with
  | assignment name literal =>
      cases hd : Quoted.decode? literal.text <;> simp [Match.item, Match.Decodes, hd]
  | call | function => simp [Match.item, Match.Decodes]

theorem shape?_of_item {body : List Item} {item : Item} (h : m.item t ts body = .ok item) :
    item.shape? = some m.form.shape ∧ item.span = (excerpt t ts m.more).span := by
  obtain ⟨form, more⟩ := m
  cases form with
  | assignment name literal =>
      simp only [Match.item] at h
      split at h
      · cases h
        exact ⟨rfl, rfl⟩
      · cases h
  | call | function =>
      cases h
      exact ⟨rfl, rfl⟩

theorem item_of_not_decodes (h : ¬m.Decodes) (t : Token) (ts : List Token) (body : List Item) :
    ∃ name literal, m.form = .assignment name literal ∧
      m.item t ts body = .error (.unsupported "string escape" { excerpt t ts m.more with text := literal.text }) := by
  obtain ⟨form, more⟩ := m
  cases form with
  | assignment name literal =>
      refine ⟨name, literal, rfl, ?_⟩
      cases hd : Quoted.decode? literal.text with
      | none => simp only [Match.item, hd]
      | some value => simp [Match.Decodes, hd] at h
  | call | function => simp [Match.Decodes] at h

theorem extract_take_append (h : match? shape t ts = some m) (us : List Token) :
    classify (t :: (ts.take m.more ++ us)) = some shape ∧
      extract shape t (ts.take m.more ++ us) = extract shape t ts := by
  obtain ⟨hs, hshape⟩ := match?_eq_some_iff.1 h
  have hm : match? shape t (ts.take m.more ++ us) = some m := match?_eq_some_iff.2 ⟨hs.take_append us, hshape⟩
  exact ⟨classify_eq_some_iff.2 ⟨m, hm⟩, by rw [extract_of_match? hm, extract_of_match? h, item_take_append hs]⟩

/-- How the shape of the tokens and what is extracted from them go together. -/
structure Classified (source : String) (t : Token) (ts : List Token) : Prop where
  unique : ∀ shape other, (match? shape t ts).isSome → (match? other t ts).isSome → shape = other
  order : ∀ order : List Shape, order.Perm [.assignment, .call, .function] →
    order.find? (fun shape => (match? shape t ts).isSome) = classify (t :: ts)
  ok : ∀ shape, (∃ item n, extract shape t ts = .ok (item, n)) ↔
    classify (t :: ts) = some shape ∧ ∀ m, match? shape t ts = some m → m.Decodes
  item : ∀ shape item n, extract shape t ts = .ok (item, n) →
    item.shape? = some shape ∧ n ≤ (t :: ts).length ∧ Spans ((t :: ts).take n) item.span
  /-- A string that cannot be decoded is a fault at the tokens that are skipped for it. -/
  unsupported : ∀ m, match? .assignment t ts = some m → ¬m.Decodes →
    ∃ place, extract .assignment t ts = .error (.unsupported "string escape" place) ∧
      Spans (t :: ts.take (chunk t ts)) place.span ∧
      items (t :: ts) = .fault (.unsupported "string escape" place) :: items (ts.drop (chunk t ts))
  unrecognized : ∀ shape, classify (t :: ts) ≠ some shape →
    ∃ place, extract shape t ts = .error (.unrecognized place) ∧ chunk t ts ≤ ts.length ∧
      Marks source (t :: ts.take (chunk t ts)) place
  stable : ∀ shape m, match? shape t ts = some m → m.more ≤ ts.length ∧
    (∀ item n, extract shape t ts = .ok (item, n) → n = m.more + 1) ∧
    ∀ us, classify (t :: (ts.take m.more ++ us)) = some shape ∧
      extract shape t (ts.take m.more ++ us) = extract shape t ts ∧
      classify (t :: (ts ++ us)) = some shape ∧ extract shape t (ts ++ us) = extract shape t ts

theorem exists_of_extract_eq_ok {item : Item} {n : Nat} (h : extract shape t ts = .ok (item, n)) :
    ∃ m, match? shape t ts = some m ∧ m.item t ts (items m.body) = .ok item ∧ n = m.more + 1 := by
  cases hm : match? shape t ts with
  | none =>
      rw [extract_of_none hm] at h
      cases h
  | some m =>
      rw [extract_of_match? hm] at h
      cases hi : m.item t ts (items m.body) with
      | error fault =>
          rw [hi] at h
          cases h
      | ok other =>
          rw [hi] at h
          cases h
          exact ⟨m, rfl, hi, rfl⟩

theorem find?_of_perm {order : List Shape} (h : order.Perm [.assignment, .call, .function]) :
    order.find? (fun shape => (match? shape t ts).isSome) = classify (t :: ts) := by
  have hmem (shape : Shape) : shape ∈ order := by
    rw [h.mem_iff]
    cases shape <;> simp
  cases hf : order.find? fun shape => (match? shape t ts).isSome with
  | some shape =>
      have hsome := Option.isSome_iff_exists.1 (by simpa using List.find?_some hf)
      exact (classify_eq_some_iff.2 hsome).symm
  | none =>
      rw [eq_comm, Option.eq_none_iff_forall_ne_some]
      intro shape hc
      obtain ⟨m, hm⟩ := classify_eq_some_iff.1 hc
      have hn := List.find?_eq_none.1 hf shape (hmem shape)
      simp [hm] at hn

/-- At the front of any tokens of a source classification and extraction agree. -/
theorem extract_classified {source : String} (h : t :: ts <:+ Lexer.tokenize source) : Classified source t ts := by
  have hin : StandIn source (t :: ts) := by
    obtain ⟨before, he⟩ := h
    have hs := Lexer.standIn_tokenize source
    rw [← he] at hs
    exact hs.append.2
  constructor
  case unique =>
    intro shape other hs ho
    have hc := classify_eq_some_iff.2 (Option.isSome_iff_exists.1 hs)
    rw [classify_eq_some_iff.2 (Option.isSome_iff_exists.1 ho)] at hc
    exact (Option.some.inj hc).symm
  case order => exact fun order => find?_of_perm
  case ok =>
    intro shape
    constructor
    · rintro ⟨item, n, he⟩
      obtain ⟨m, hm, hi, _⟩ := exists_of_extract_eq_ok he
      refine ⟨classify_eq_some_iff.2 ⟨m, hm⟩, fun other ho => ?_⟩
      cases hm.symm.trans ho
      exact (item_eq_ok_iff _).1 ⟨item, hi⟩
    · rintro ⟨hc, hd⟩
      obtain ⟨m, hm⟩ := classify_eq_some_iff.1 hc
      obtain ⟨item, hi⟩ := (item_eq_ok_iff (items m.body)).2 (hd m hm)
      exact ⟨item, m.more + 1, by rw [extract_of_match? hm, hi]; rfl⟩
  case item =>
    intro shape item n he
    obtain ⟨m, hm, hi, rfl⟩ := exists_of_extract_eq_ok he
    obtain ⟨hs, hshape⟩ := match?_eq_some_iff.1 hm
    obtain ⟨hitem, hspan⟩ := shape?_of_item hi
    refine ⟨by rw [hitem, hshape], Nat.succ_le_succ hs.more_le, ?_⟩
    rw [hspan]
    exact (excerpt_marks hin m.more).spans
  case unsupported =>
    intro m hm hd
    obtain ⟨name, literal, hform, hi⟩ := item_of_not_decodes hd t ts (items m.body)
    have hs := match?_spells hm
    have hchunk : chunk t ts = m.more := by
      obtain ⟨form, more⟩ := m
      cases hform
      exact hs.chunk_eq
    refine ⟨_, ?_, ?_, items_of_error hs.isTag_eq hs.recognize?_eq hi⟩
    · rw [extract_of_match? hm, hi]
      rfl
    · rw [hchunk]
      exact (excerpt_marks hin m.more).spans
  case unrecognized =>
    intro shape hc
    have hm : match? shape t ts = none := by
      rw [Option.eq_none_iff_forall_ne_some]
      exact fun m hm => hc (classify_eq_some_iff.2 ⟨m, hm⟩)
    exact ⟨_, extract_of_none hm, chunk_le t ts, excerpt_marks hin _⟩
  case stable =>
    intro shape m hm
    have hle := (match?_spells hm).more_le
    refine ⟨hle, fun item n he => ?_, fun us => ?_⟩
    · obtain ⟨other, ho, _, hn⟩ := exists_of_extract_eq_ok he
      cases hm.symm.trans ho
      exact hn
    · have hus := extract_take_append hm us
      have hall := extract_take_append hm (ts.drop m.more ++ us)
      rw [← List.append_assoc, List.take_append_drop] at hall
      exact ⟨hus.1, hus.2, hall.1, hall.2⟩

theorem extract_classified_undecodable :
    ∃ t ts place, t :: ts <:+ Lexer.tokenize "$x = \"\\xff\"; f();" ∧ Classified "$x = \"\\xff\"; f();" t ts ∧
      extract .assignment t ts = .error (.unsupported "string escape" place) ∧ place.span = ⟨0, 12⟩ := by
  have ht : Lexer.tokenize "$x = \"\\xff\"; f();" =
      [⟨"", 0, .variable, "$x"⟩, ⟨" ", 3, .equals, "="⟩, ⟨" ", 5, .quoted .double true, "\"\\xff\""⟩,
        ⟨"", 11, .semicolon, ";"⟩, ⟨" ", 13, .word, "f"⟩, ⟨"", 14, .opening .round, "("⟩,
        ⟨"", 15, .closing .round, ")"⟩, ⟨"", 16, .semicolon, ";"⟩] := by cbv
  have hc := extract_classified ⟨[], ht.symm⟩
  have hd : ¬(Match.mk (.assignment "x" ⟨" ", 5, .quoted .double true, "\"\\xff\""⟩) 3).Decodes := by
    intro h
    have hs := h _ _ rfl
    have hn : Quoted.decode? "\"\\xff\"" = none := by cbv
    simp [hn] at hs
  obtain ⟨place, he, ⟨first, last, hf, hl, hspan⟩, _⟩ := hc.unsupported _ rfl hd
  cases hf
  cases hl
  exact ⟨_, _, place, ⟨[], ht.symm⟩, hc, he, hspan⟩

end Pattern

end PhpTranspiler
