import PhpTranspiler.Nesting

namespace PhpTranspiler.Nesting

/-- How many brackets of the form `b` are open behind the tokens, if `depth` are open before them. There
is no answer if one of them closes nothing. -/
def level? (b : Bracket) : Nat → List Token → Option Nat
  | depth, [] => some depth
  | depth, t :: ts =>
    if t.kind = .opening b then level? b (depth + 1) ts
    else if t.kind = .closing b then
      match depth with
      | 0 => none
      | depth + 1 => level? b depth ts
    else level? b depth ts

/-- Each bracket of the form `b` that closes has one to close, and none is left open. -/
def Balanced (b : Bracket) (ts : List Token) : Prop := level? b 0 ts = some 0

instance (b : Bracket) (ts : List Token) : Decidable (Balanced b ts) :=
  inferInstanceAs (Decidable (level? b 0 ts = some 0))

theorem enclosed?_eq_some_iff {b : Bracket} {depth : Nat} {ts inside rest : List Token} {t : Token} :
    enclosed? b depth ts = some (inside, t, rest) ↔
      ts = inside ++ t :: rest ∧ t.kind = .closing b ∧ level? b depth inside = some 0 := by
  constructor
  · intro h
    refine ⟨enclosed?_eq h, ?_⟩
    fun_induction enclosed? b depth ts generalizing inside with
    | case1 => simp at h
    | case3 t ts hne hk => simp_all [level?]
    | case2 depth t ts hk ih =>
        obtain ⟨⟨inside, rest⟩, hr, he⟩ := Option.map_eq_some_iff.1 h
        cases he
        simpa [level?, hk] using ih hr
    | case4 t ts hne hk depth ih =>
        obtain ⟨⟨inside, rest⟩, hr, he⟩ := Option.map_eq_some_iff.1 h
        cases he
        simpa [level?, hk] using ih hr
    | case5 depth t ts hne hk ih =>
        obtain ⟨⟨inside, rest⟩, hr, he⟩ := Option.map_eq_some_iff.1 h
        cases he
        simpa [level?, hne, hk] using ih hr
  · rintro ⟨rfl, hk, hl⟩
    fun_induction level? b depth inside with
    | case1 depth =>
        cases hl
        simp [enclosed?, hk]
    | case2 depth u us hu ih => simp [enclosed?, hu, ih hl]
    | case3 u us hne hu => simp at hl
    | case4 u us hne hu depth ih => simp [enclosed?, hu, ih hl]
    | case5 depth u us hne hu ih => simp [enclosed?, hne, hu, ih hl]

variable {b : Bracket} {ts : List Token}

theorem enclosed?_append {depth : Nat} {inside rest : List Token} {t : Token}
    (h : enclosed? b depth ts = some (inside, t, rest)) (us : List Token) :
    enclosed? b depth (ts ++ us) = some (inside, t, rest ++ us) := by
  obtain ⟨rfl, hk, hl⟩ := enclosed?_eq_some_iff.1 h
  exact enclosed?_eq_some_iff.2 ⟨by simp, hk, hl⟩

theorem level?_append (b : Bracket) (depth : Nat) (ts us : List Token) :
    level? b depth (ts ++ us) = (level? b depth ts).bind fun d => level? b d us := by
  fun_induction level? b depth ts with
  | case1 => rfl
  | case2 depth t ts hk ih => simp [level?, hk, ih]
  | case3 t ts hne hk => simp [level?, hk]
  | case4 t ts hne hk depth ih => simp [level?, hk, ih]
  | case5 depth t ts hne hk ih => simp [level?, hne, hk, ih]

def opened (b : Bracket) (ts : List Token) : Nat := ts.countP (·.kind = .opening b)

def closed (b : Bracket) (ts : List Token) : Nat := ts.countP (·.kind = .closing b)

theorem opened_cons (b : Bracket) (t : Token) (ts : List Token) :
    opened b (t :: ts) = opened b ts + if t.kind = .opening b then 1 else 0 := by
  simp [opened, List.countP_cons]

theorem closed_cons (b : Bracket) (t : Token) (ts : List Token) :
    closed b (t :: ts) = closed b ts + if t.kind = .closing b then 1 else 0 := by
  simp [closed, List.countP_cons]

theorem closed_eq_of_level? {depth d : Nat} (h : level? b depth ts = some d) :
    depth + opened b ts = d + closed b ts := by
  fun_induction level? b depth ts with
  | case1 =>
      cases h
      rfl
  | case2 depth t ts hk ih =>
      have hc := ih h
      simp only [opened_cons, closed_cons, hk, ↓reduceIte, reduceCtorEq]
      omega
  | case3 => simp at h
  | case4 t ts hne hk depth ih =>
      have hc := ih h
      simp only [opened_cons, closed_cons, hk, ↓reduceIte, reduceCtorEq]
      omega
  | case5 depth t ts hne hk ih =>
      rw [opened_cons, closed_cons, if_neg hne, if_neg hk]
      exact ih h

/-- A bracket is closed if more brackets of its form close than open behind it. -/
theorem exists_enclosed? {depth : Nat} (h : depth + opened b ts < closed b ts) :
    ∃ inside t rest, enclosed? b depth ts = some (inside, t, rest) := by
  fun_induction enclosed? b depth ts with
  | case1 => simp [closed] at h
  | case2 depth t ts hk ih =>
      simp only [opened_cons, closed_cons, hk, ↓reduceIte, reduceCtorEq] at h
      obtain ⟨inside, u, rest, hr⟩ := ih (by omega)
      exact ⟨t :: inside, u, rest, by rw [hr]; rfl⟩
  | case3 t ts hne hk => exact ⟨[], t, ts, rfl⟩
  | case4 t ts hne hk depth ih =>
      simp only [opened_cons, closed_cons, hk, ↓reduceIte, reduceCtorEq] at h
      obtain ⟨inside, u, rest, hr⟩ := ih (by omega)
      exact ⟨t :: inside, u, rest, by rw [hr]; rfl⟩
  | case5 depth t ts hne hk ih =>
      rw [opened_cons, closed_cons, if_neg hne, if_neg hk] at h
      obtain ⟨inside, u, rest, hr⟩ := ih h
      exact ⟨t :: inside, u, rest, by rw [hr]; rfl⟩

def openedAll (ts : List Token) : Nat := opened .round ts + opened .curly ts + opened .square ts

def closedAll (ts : List Token) : Nat := closed .round ts + closed .curly ts + closed .square ts

theorem closedAll_nil : closedAll [] = 0 := rfl

theorem openedAll_cons (t : Token) (ts : List Token) :
    openedAll (t :: ts) = openedAll ts + (match t.kind with | .opening _ => 1 | _ => 0) := by
  simp only [openedAll, opened_cons]
  cases t.kind with
  | opening b => cases b <;> simp <;> omega
  | _ => simp

theorem closedAll_cons (t : Token) (ts : List Token) :
    closedAll (t :: ts) = closedAll ts + (match t.kind with | .closing _ => 1 | _ => 0) := by
  simp only [closedAll, closed_cons]
  cases t.kind with
  | closing b => cases b <;> simp <;> omega
  | _ => simp

end PhpTranspiler.Nesting
