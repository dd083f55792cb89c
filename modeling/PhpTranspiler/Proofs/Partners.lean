import PhpTranspiler.Proofs.Blocks

namespace PhpTranspiler

open Token

namespace Nesting

/-- The brackets that are open behind a token, the innermost first. There is no answer if it closes a bracket that is not
the innermost one. -/
def open? (stack : List Bracket) (t : Token) : Option (List Bracket) :=
  match t.kind with
  | .opening b => some (b :: stack)
  | .closing b => if stack.head? = some b then some stack.tail else none
  | _ => some stack

def stack? (stack : List Bracket) (ts : List Token) : Option (List Bracket) := ts.foldlM open? stack

section

variable {t : Token} {b : Bracket} {stack final : List Bracket} {ts : List Token}

@[simp] theorem stack?_nil (stack : List Bracket) : stack? stack [] = some stack := rfl

theorem stack?_cons (stack : List Bracket) (t : Token) (ts : List Token) :
    stack? stack (t :: ts) = (open? stack t).bind fun s => stack? s ts := List.foldlM_cons

theorem stack?_append (stack : List Bracket) (ts us : List Token) :
    stack? stack (ts ++ us) = (stack? stack ts).bind fun s => stack? s us := List.foldlM_append

theorem stack?_opening (h : t.kind = .opening b) : stack? stack (t :: ts) = stack? (b :: stack) ts := by
  simp [stack?_cons, open?, h]

theorem stack?_closing (h : t.kind = .closing b) : stack? (b :: stack) (t :: ts) = stack? stack ts := by
  simp [stack?_cons, open?, h]

theorem stack?_plain (h : ∀ b, t.kind ≠ .opening b ∧ t.kind ≠ .closing b) :
    stack? stack (t :: ts) = stack? stack ts := by
  have ho : open? stack t = some stack := by
    unfold open?
    split
    · exact absurd ‹_› (h _).1
    · exact absurd ‹_› (h _).2
    · rfl
  rw [stack?_cons, ho, Option.bind_some]

theorem exists_of_stack?_closing (h : t.kind = .closing b) (hs : stack? stack (t :: ts) = some final) :
    ∃ below, stack = b :: below ∧ stack? below ts = some final := by
  cases stack with
  | nil => simp [stack?_cons, open?, h] at hs
  | cons top below =>
      by_cases hb : top = b
      · subst hb
        exact ⟨below, rfl, by rwa [stack?_closing h] at hs⟩
      · simp [stack?_cons, open?, h, hb] at hs

theorem kind_cases (t : Token) : (∃ b, t.kind = .opening b) ∨ (∃ b, t.kind = .closing b) ∨
    ∀ b, t.kind ≠ .opening b ∧ t.kind ≠ .closing b := by
  cases t.kind <;> simp

/-- Where all that is open closes, the bracket of form `b` under `above` closes at the first place where the brackets
of its form are even, and what stands up to there closes `above`. -/
theorem exists_enclosed?_of_stack? (above : List Bracket) {below : List Bracket} (h : stack? (above ++ b :: below) ts = some []) :
    ∃ inside u rest, enclosed? b (above.count b) ts = some (inside, u, rest) ∧ stack? above inside = some [] ∧
      stack? below rest = some [] := by
  induction ts generalizing above with
  | nil => simp at h
  | cons t ts ih =>
      rcases kind_cases t with ⟨c, hk⟩ | ⟨c, hk⟩ | hk
      · rw [stack?_opening hk] at h
        obtain ⟨inside, u, rest, he, hi, hr⟩ := ih (c :: above) h
        refine ⟨t :: inside, u, rest, ?_, by rw [stack?_opening hk]; exact hi, hr⟩
        rw [List.count_cons] at he
        by_cases hc : c = b
        · subst hc
          simpa [enclosed?, hk] using he
        · simpa [enclosed?, hk, hc] using he
      · obtain ⟨tail, hs, ht⟩ := exists_of_stack?_closing hk h
        cases above with
        | nil =>
            obtain ⟨rfl, rfl⟩ := List.cons_eq_cons.1 hs
            exact ⟨[], t, ts, by simp [enclosed?, hk], rfl, ht⟩
        | cons a above =>
            obtain ⟨rfl, rfl⟩ := List.cons_eq_cons.1 hs
            obtain ⟨inside, u, rest, he, hi, hr⟩ := ih above ht
            refine ⟨t :: inside, u, rest, ?_, by rw [stack?_closing hk]; exact hi, hr⟩
            rw [List.count_cons]
            by_cases hc : a = b
            · subst hc
              simpa [enclosed?, hk] using he
            · simpa [enclosed?, hk, hc] using he
      · rw [stack?_plain hk] at h
        obtain ⟨inside, u, rest, he, hi, hr⟩ := ih above h
        refine ⟨t :: inside, u, rest, ?_, by rw [stack?_plain hk]; exact hi, hr⟩
        simpa [enclosed?, hk] using he

end

end Nesting

open Nesting

namespace WellNested

variable {ts : List Token}

theorem stack?_append_left (h : WellNested ts) (stack : List Bracket) (us : List Token) :
    stack? stack (ts ++ us) = stack? stack us := by
  induction h generalizing stack us with
  | nil => rfl
  | plain ht _ ih => rw [List.cons_append, stack?_plain ht, ih]
  | @enclosed t u inside rest b ht _ hu _ ihi ihr =>
      have he : t :: inside ++ u :: rest ++ us = t :: (inside ++ u :: (rest ++ us)) := by simp
      rw [he, stack?_opening ht, ihi, stack?_closing hu, ihr]

end WellNested

theorem wellNested_iff {ts : List Token} : WellNested ts ↔ stack? [] ts = some [] := by
  constructor
  · intro h
    simpa using h.stack?_append_left [] []
  · intro h
    induction hn : ts.length using Nat.strongRecOn generalizing ts with
    | ind n ih =>
        cases ts with
        | nil => exact .nil
        | cons t ts =>
            rcases kind_cases t with ⟨b, hk⟩ | ⟨b, hk⟩ | hk
            · rw [stack?_opening hk] at h
              obtain ⟨inside, u, rest, he, hi, hr⟩ := exists_enclosed?_of_stack? [] h
              obtain ⟨rfl, hu, _⟩ := enclosed?_eq_some_iff.1 he
              simp only [List.length_cons, List.length_append] at hn
              exact .enclosed hk (ih _ (by omega) hi rfl) hu (ih _ (by omega) hr rfl)
            · obtain ⟨below, hs, _⟩ := exists_of_stack?_closing hk h
              cases hs
            · rw [stack?_plain hk] at h
              exact .plain hk (ih _ (by rw [← hn]; simp) h rfl)

instance (ts : List Token) : Decidable (WellNested ts) := decidable_of_iff _ wellNested_iff.symm

namespace Nesting

/-- The tokens behind a bracket of form `b` are those that stand inside it, the bracket that closes it, and the rest. -/
structure Partner (b : Bracket) (ts inside : List Token) (u : Token) (rest : List Token) : Prop where
  eq : ts = inside ++ u :: rest
  closes : u.kind = .closing b
  inside : WellNested inside

variable {b : Bracket} {ts inside rest : List Token} {u : Token} {below : List Bracket}

theorem Partner.enclosed?_eq (h : Partner b ts inside u rest) : enclosed? b 0 ts = some (inside, u, rest) :=
  enclosed?_eq_some_iff.2 ⟨h.eq, h.closes, h.inside.neutral b 0⟩

/-- Behind an open bracket that is closed in the end, counting the brackets of its form alone finds its partner. -/
theorem exists_partner (h : stack? (b :: below) ts = some []) :
    ∃ inside u rest, Partner b ts inside u rest ∧ stack? below rest = some [] := by
  obtain ⟨inside, u, rest, he, hi, hr⟩ := exists_enclosed?_of_stack? [] h
  obtain ⟨heq, hu, _⟩ := enclosed?_eq_some_iff.1 he
  exact ⟨inside, u, rest, ⟨heq, hu, wellNested_iff.2 hi⟩, hr⟩

theorem partner_of_enclosed? (h : stack? (b :: below) ts = some []) (he : enclosed? b 0 ts = some (inside, u, rest)) :
    Partner b ts inside u rest ∧ stack? below rest = some [] := by
  obtain ⟨inside', u', rest', hp, hr⟩ := exists_partner h
  cases hp.enclosed?_eq.symm.trans he
  exact ⟨hp, hr⟩

end Nesting

namespace WellNested

variable {before after : List Token} {t : Token} {b : Bracket}

theorem exists_stack? (h : WellNested (before ++ after)) :
    ∃ stack, stack? [] before = some stack ∧ stack? stack after = some [] := by
  have hs := wellNested_iff.1 h
  rw [stack?_append] at hs
  exact Option.bind_eq_some_iff.1 hs

theorem enclosed?_iff (h : WellNested (before ++ t :: after)) (hk : t.kind = .opening b) {inside rest : List Token}
    {u : Token} : enclosed? b 0 after = some (inside, u, rest) ↔ Partner b after inside u rest := by
  obtain ⟨stack, _, hs⟩ := h.exists_stack?
  rw [stack?_opening hk] at hs
  exact ⟨fun he => (partner_of_enclosed? hs he).1, Partner.enclosed?_eq⟩

theorem exists_enclosed? (h : WellNested (before ++ t :: after)) (hk : t.kind = .opening b) :
    ∃ inside u rest, enclosed? b 0 after = some (inside, u, rest) := by
  obtain ⟨stack, _, hs⟩ := h.exists_stack?
  rw [stack?_opening hk] at hs
  obtain ⟨inside, u, rest, hp, _⟩ := exists_partner hs
  exact ⟨inside, u, rest, hp.enclosed?_eq⟩

theorem of_balanced (before : List Token) {t u : Token} {b : Bracket} {inside rest : List Token}
    (h : WellNested (before ++ t :: (inside ++ u :: rest))) (ht : t.kind = .opening b) (hi : Balanced b inside)
    (hu : u.kind = .closing b) : WellNested inside :=
  ((h.enclosed?_iff ht).1 (enclosed?_eq_some_iff.2 ⟨rfl, hu, hi⟩)).inside

theorem of_append (h : WellNested (before ++ after)) (hb : WellNested before) : WellNested after := by
  rw [wellNested_iff] at h ⊢
  rwa [hb.stack?_append_left] at h

end WellNested

end PhpTranspiler
