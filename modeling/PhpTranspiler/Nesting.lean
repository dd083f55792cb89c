import PhpTranspiler.Token

namespace PhpTranspiler.Nesting

/-- The tokens inside a bracket that is open already, the token that closes it, and what follows.
Only brackets of the same form count, and `depth` of them are open inside. -/
def enclosed? (b : Bracket) : Nat → List Token → Option (List Token × Token × List Token)
  | _, [] => none
  | depth, t :: ts =>
    if t.kind = .opening b then
      (enclosed? b (depth + 1) ts).map fun (inside, rest) => (t :: inside, rest)
    else if t.kind = .closing b then
      match depth with
      | 0 => some ([], t, ts)
      | depth + 1 => (enclosed? b depth ts).map fun (inside, rest) => (t :: inside, rest)
    else (enclosed? b depth ts).map fun (inside, rest) => (t :: inside, rest)

def onto (t : Token) : List (List Token) → List (List Token)
  | [] => [[t]]
  | group :: groups => (t :: group) :: groups

/-- Splits at the commas outside brackets. Brackets of all forms count alike, and one that closes
nothing does not count. -/
def groups : Nat → List Token → List (List Token)
  | _, [] => [[]]
  | depth, t :: ts =>
    match t.kind with
    | .opening _ => onto t (groups (depth + 1) ts)
    | .closing _ => onto t (groups (depth - 1) ts)
    | .comma => if depth = 0 then [] :: groups 0 ts else onto t (groups depth ts)
    | _ => onto t (groups depth ts)

theorem enclosed?_eq {b : Bracket} {depth : Nat} {ts inside rest : List Token} {t : Token}
    (h : enclosed? b depth ts = some (inside, t, rest)) : ts = inside ++ t :: rest := by
  fun_induction enclosed? b depth ts generalizing inside with
  | case1 => simp at h
  | case3 => simp_all
  | case2 _ _ _ _ ih | case4 _ _ _ _ _ ih | case5 _ _ _ _ _ ih =>
    obtain ⟨⟨inside', rest'⟩, hr, he⟩ := Option.map_eq_some_iff.1 h
    simp only [Prod.mk.injEq] at he
    obtain ⟨rfl, rfl⟩ := he
    simp [ih hr]

end PhpTranspiler.Nesting
