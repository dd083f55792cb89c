import PhpTranspiler.Proofs.Indexed.Spots
import PhpTranspiler.Proofs.Locality

namespace PhpTranspiler.Indexed

structure Assigned where
  name : String
  value : Nat
  length : Nat
  deriving DecidableEq, Repr

def assignedFrom (ss : List Spot) (name : String) (i : Nat) : Option Assigned :=
  match ss[i]?, ss[i + 1]?, ss[i + 2]? with
  | some eq, some literal, some semi =>
    if eq.kind = .equals ∧ literal.kind = .quoted .double true ∧ semi.kind = .semicolon then some ⟨name, i + 1, i + 3⟩
    else none
  | _, _, _ => none

def assigned? (source : String) (ss : List Spot) : Except Trap (Option Assigned) :=
  match ss[0]?.map Spot.kind with
  | some .variable => do
    match ← (← element ss 0).name? source with
    | some name => return assignedFrom ss name 1
    | none => return none
  | some .word => do
    if ← (← element ss 0).isWord source "var" then
      match ss[1]?.filter (·.kind = .word) with
      | some name => return assignedFrom ss (← name.text source) 2
      | none => return none
    else return none
  | _ => return none

def called? (source : String) (ss : List Spot) : Except Trap (Option Nat) :=
  match ss[0]? with
  | none => return none
  | some callee => do
    if callee.kind ≠ .word then return none
    else if Pattern.isKeyword (← callee.text source) then return none
    else if ss[1]?.map Spot.kind ≠ some (.opening .round) then return none
    else match ← matching ss 1 with
      | none => return none
      | some close => return if ss[close + 1]?.map Spot.kind = some .semicolon then some close else none

def isPoint (source : String) (s : Spot) : Except Trap Bool :=
  if s.kind = .mark then do return (← s.text source).toList.head? = some '.' else return false

def parameter? (source : String) (group : List Spot) : Except Trap (Option String) :=
  match group.findIdx? (·.kind == .variable) with
  | none => return none
  | some n => do
    if ← (← stretch group 0 n).anyM (isPoint source) then return none else (← element group n).name? source

def parameters? (source : String) (ss : List Spot) : Except Trap (Option (List String)) := do
  if ss.isEmpty then return some []
  else return (← (← groups ss).mapM (parameter? source)).mapM id

structure Declared where
  params : List String
  opening : Nat
  closing : Nat
  deriving DecidableEq, Repr

def declaredFrom (ss : List Spot) (params : List String) (i : Nat) : Except Trap (Option Declared) := do
  if ss[i]?.map Spot.kind ≠ some (.opening .curly) then return none
  else return (← matching ss i).map fun last => ⟨params, i, last⟩

def declared? (source : String) (ss : List Spot) : Except Trap (Option Declared) :=
  match ss[0]? with
  | none => return none
  | some first => do
    if !(← first.isWord source "function") then return none
    else if ss[1]?.map Spot.kind ≠ some .word ∨ ss[2]?.map Spot.kind ≠ some (.opening .round) then return none
    else match ← matching ss 2 with
      | none => return none
      | some close =>
        match ← parameters? source (← stretch ss 3 close) with
        | none => return none
        | some params => declaredFrom ss params (close + 1)

def classify (source : String) (ss : List Spot) : Except Trap (Option Shape) := do
  if (← assigned? source ss).isSome then return some .assignment
  else if (← called? source ss).isSome then return some .call
  else if (← declared? source ss).isSome then return some .function
  else return none

def continuesAt (source : String) (ss : List Spot) (i : Nat) : Except Trap Bool :=
  match ss[i]? with
  | none => return false
  | some s => ["else", "elseif", "catch", "finally"].anyM (s.isWord source)

/-- Number of tokens that are skipped if they make no statement, `depth` brackets being open before the token `i`. -/
def skipFrom (source : String) (ss : List Spot) (i depth : Nat) : Except Trap Nat :=
  if _h : i < ss.length then do
    match (← element ss i).kind with
    | .opening _ => skipFrom source ss (i + 1) (depth + 1)
    | .closing b =>
      if depth = 0 then return max i 1
      else
        let depth ← minus depth 1
        let continues ← if b = .curly then continuesAt source ss (i + 1) else pure true
        if depth = 0 ∧ !continues then return i + 1 else skipFrom source ss (i + 1) depth
    | .semicolon => if depth = 0 then return i + 1 else skipFrom source ss (i + 1) depth
    | .openTag | .closeTag => if depth = 0 ∧ 0 < i then return i else skipFrom source ss (i + 1) depth
    | _ => skipFrom source ss (i + 1) depth
  else return max ss.length 1
termination_by ss.length - i

def skip (source : String) (ss : List Spot) : Except Trap Nat := skipFrom source ss 0 0

def spanOf (ss : List Spot) (n : Nat) : Except Trap Span := do
  return ⟨(← element ss 0).span.start, (← element ss (← minus n 1)).span.stop⟩

def excerptOf (source : String) (ss : List Spot) (n : Nat) : Except Trap Excerpt := do
  let span ← spanOf ss n
  return ⟨span, ← cut source span.start span.stop⟩

def unrecognized (source : String) (ss : List Spot) : Except Trap Fault := do
  return .unrecognized (← excerptOf source ss (← skip source ss))

/-- The statement of the given shape at the front of the tokens, and their number. The tokens of a body are read by
`read`. -/
def extractWith (read : List Spot → Except Trap (List Item)) (source : String) (shape : Shape) (ss : List Spot) :
    Except Trap (Except Fault (Item × Nat)) :=
  match shape with
  | .assignment => do
    match ← assigned? source ss with
    | none => return .error (← unrecognized source ss)
    | some a =>
      let literal ← element ss a.value
      match ← unquote (← literal.text source) with
      | none => return .error (.unsupported "string escape" ⟨← spanOf ss a.length, ← literal.text source⟩)
      | some s => return .ok (.assignment (← excerptOf source ss a.length) a.name (.text s), a.length)
  | .call => do
    match ← called? source ss with
    | none => return .error (← unrecognized source ss)
    | some close =>
      let callee ← (← element ss 0).text source
      let args ← innerText source ss 1 close
      return .ok (.call (← excerptOf source ss (close + 2)) callee args, close + 2)
  | .function => do
    match ← declared? source ss with
    | none => return .error (← unrecognized source ss)
    | some d =>
      let name ← (← element ss 1).text source
      let body ← innerText source ss d.opening d.closing
      let items ← read (← stretch ss (d.opening + 1) d.closing)
      return .ok (.function (← excerptOf source ss (d.closing + 1)) name d.params body items, d.closing + 1)

def stepWith (read : List Spot → Except Trap (List Item)) (source : String) (ss : List Spot) :
    Except Trap (Option (Item × Nat)) := do
  let tags := (ss.takeWhile Spot.isTag).length
  let rest ← stretch ss tags ss.length
  if rest.isEmpty then return none
  else match ← classify source rest with
    | none =>
      let n ← skip source rest
      return some (.fault (.unrecognized (← excerptOf source rest n)), tags + n)
    | some shape =>
      match ← extractWith read source shape rest with
      | .ok (item, n) => return some (item, tags + n)
      | .error fault => return some (.fault fault, tags + (← skip source rest))

def itemsFrom (source : String) : Nat → List Spot → Nat → Except Trap (List Item)
  | 0, _, _ => .error .endless
  | rounds + 1, ss, i => do
    match ← stepWith (itemsFrom source rounds · 0) source (← stretch ss i ss.length) with
    | none => return []
    | some (item, n) => return item :: (← itemsFrom source rounds ss (i + n))

def items (source : String) (ss : List Spot) : Except Trap (List Item) := itemsFrom source (ss.length + 1) ss 0

def extract (source : String) (shape : Shape) (ss : List Spot) : Except Trap (Except Fault (Item × Nat)) :=
  extractWith (items source) source shape ss

def scan (source : String) : Except Trap (List Item) := do items source (← tokenize source)

section

variable {source : String} {t : Token} {ts us : List Token}

theorem get_behind {before rest : List Token} (h : us = before ++ rest) (k : Nat) :
    (us.map Spot.ofToken)[before.length + k]? = rest[k]?.map Spot.ofToken := by
  rw [map_ofToken_get, h, List.getElem?_append_right (by omega), Nat.add_sub_cancel_left]

theorem kind_behind {before rest : List Token} (h : us = before ++ rest) {i : Nat} (hi : i = before.length) :
    (us.map Spot.ofToken)[i]?.map Spot.kind = rest.head?.map Token.kind := by
  have hg := get_behind h 0
  rw [Nat.add_zero, ← hi] at hg
  rw [hg, ← List.head?_eq_getElem?, Option.map_map]
  rfl

/-- What is found by indices is what is found in the tokens. -/
def Finds {α : Type} (R : α → Pattern.Match → Prop) (found : Except Trap (Option α)) (m : Option Pattern.Match) : Prop :=
  ∃ a, found = .ok a ∧ Option.Rel R a m

theorem finds_none {α : Type} {R : α → Pattern.Match → Prop} {found : Except Trap (Option α)}
    {m : Option Pattern.Match} (hf : found = .ok none) (hm : m = none) : Finds R found m :=
  ⟨none, hf, hm ▸ .none⟩

theorem finds_some {α : Type} {R : α → Pattern.Match → Prop} {found : Except Trap (Option α)}
    {m : Option Pattern.Match} {a : α} {b : Pattern.Match} (hf : found = .ok (some a)) (hm : m = some b) (h : R a b) :
    Finds R found m :=
  ⟨some a, hf, hm ▸ .some h⟩

def Assigned.Of (ts : List Token) (a : Assigned) (m : Pattern.Match) : Prop :=
  ∃ literal, m = ⟨.assignment a.name literal, a.length - 1⟩ ∧ ts[a.value]? = some literal ∧ 0 < a.length

theorem assignedFrom_rel {before rest : List Token} {skipped : Nat} (hus : us = before ++ rest)
    (hb : before.length = skipped + 1) (name : String) :
    Option.Rel (Assigned.Of us) (assignedFrom (us.map Spot.ofToken) name before.length)
      (Pattern.value? name skipped rest) := by
  have hget := get_behind hus
  have hzero := hget 0
  rw [Nat.add_zero] at hzero
  rw [assignedFrom, hzero, hget 1, hget 2]
  rcases rest with _ | ⟨eq, _ | ⟨literal, _ | ⟨semi, rest⟩⟩⟩
  · exact .none
  · exact .none
  · exact .none
  · simp only [List.getElem?_cons_zero, List.getElem?_cons_succ, Option.map_some, Spot.kind_ofToken, Pattern.value?]
    by_cases hk : eq.kind = .equals ∧ literal.kind = .quoted .double true ∧ semi.kind = .semicolon
    · simp only [hk, and_self, if_true]
      refine .some ⟨literal, ?_, ?_, ?_⟩
      · simp [hb]
      · simp [hus]
      · simp
    · simp only [hk, if_false]
      exact .none

theorem finds_assignment (h : Legible source (t :: ts)) :
    Finds (Assigned.Of (t :: ts)) (assigned? source ((t :: ts).map Spot.ofToken)) (Pattern.assignment? t ts) := by
  have hhead : element ((t :: ts).map Spot.ofToken) 0 = .ok (Spot.ofToken t) := rfl
  rw [assigned?, show (((t :: ts).map Spot.ofToken)[0]?.map Spot.kind) = some t.kind from rfl]
  by_cases hv : t.kind = .variable
  · refine ⟨assignedFrom ((t :: ts).map Spot.ofToken) t.name 1, ?_, ?_⟩
    · rw [hv]
      simp only [hhead, ok_bind, h.name? (.head _) hv]
      rfl
    · simp only [Pattern.assignment?, hv]
      exact assignedFrom_rel (show t :: ts = [t] ++ ts from rfl) rfl t.name
  by_cases hw : t.kind = .word
  · simp only [hw, hhead, ok_bind, h.isWord (.head _), Pattern.assignment?]
    cases ts with
    | nil =>
        refine finds_none ?_ rfl
        cases t.isWord "var" <;> rfl
    | cons n ts =>
        have hn := h.text (.tail t (.head ts))
        by_cases hvar : t.isWord "var" ∧ n.kind = .word
        · refine ⟨assignedFrom ((t :: n :: ts).map Spot.ofToken) n.text 2, ?_, ?_⟩
          · simp [hvar.1, hvar.2, Option.filter, hn]
          · simp only [hvar, and_self, if_true]
            exact assignedFrom_rel (show t :: n :: ts = [t, n] ++ ts from rfl) rfl n.text
        · refine finds_none ?_ (by simp [hvar])
          by_cases hv : t.isWord "var"
          · have hk : n.kind ≠ .word := fun hk => hvar ⟨hv, hk⟩
            simp [hv, hk, Option.filter]
          · simp [hv]
  · refine finds_none ?_ ?_
    · split <;> simp_all
    · unfold Pattern.assignment?
      split <;> simp_all

theorem called?_eq {paren : Token} (h : Legible source (t :: paren :: ts)) (hw : t.kind = .word)
    (hk : Pattern.isKeyword t.text = false) (hp : paren.kind = .opening .round) :
    called? source ((t :: paren :: ts).map Spot.ofToken) =
      .ok ((Nesting.enclosed? .round 0 ts).bind fun found =>
        if ((t :: paren :: ts).map Spot.ofToken)[1 + 1 + found.1.length + 1]?.map Spot.kind = some .semicolon then
          some (1 + 1 + found.1.length)
        else none) := by
  have hparen : ((t :: paren :: ts).map Spot.ofToken)[1]?.map Spot.kind = some (.opening .round) := congrArg some hp
  have hm := matching_eq (show t :: paren :: ts = [t] ++ paren :: ts from rfl) hp
  rw [List.length_singleton] at hm
  rw [called?, show ((t :: paren :: ts).map Spot.ofToken)[0]? = some (Spot.ofToken t) from rfl]
  simp only [Spot.kind_ofToken, hw, ne_eq, not_true, if_false, h.text (.head _), ok_bind, hk, Bool.false_eq_true, hparen,
    hm]
  cases Nesting.enclosed? .round 0 ts <;> rfl

theorem finds_call (h : Legible source (t :: ts)) :
    Finds (fun close m => ∃ args, m = ⟨.call t.text args, close + 1⟩ ∧
        innerText source ((t :: ts).map Spot.ofToken) 1 close = .ok args)
      (called? source ((t :: ts).map Spot.ofToken)) (Pattern.call? t ts) := by
  have htext := h.text (.head ts)
  by_cases hw : t.kind = .word ∧ Pattern.isKeyword t.text = false
  swap
  · refine finds_none ?_ ?_
    · by_cases hk : t.kind = .word <;> simp_all [called?]
    · cases ts <;> simp_all [Pattern.call?]
  cases ts with
  | nil => exact finds_none (by simp [called?, htext, hw]) rfl
  | cons paren ts =>
      by_cases hp : paren.kind = .opening .round
      swap
      · exact finds_none (by simp [called?, htext, hw, hp]) (by simp [Pattern.call?, hp])
      have hcalled := called?_eq h hw.1 hw.2 hp
      cases he : Nesting.enclosed? .round 0 ts with
      | none =>
          rw [he] at hcalled
          exact finds_none hcalled (by simp [Pattern.call?, hw, hp, he])
      | some found =>
          obtain ⟨inside, close, after⟩ := found
          have hts : t :: paren :: ts = [t] ++ paren :: inside ++ close :: after := by
            rw [Nesting.enclosed?_eq he]
            rfl
          have hinner := innerText_eq h hts
          have hsemi := kind_behind (show t :: paren :: ts = ([t] ++ paren :: inside ++ [close]) ++ after by simp [hts])
            (show 1 + 1 + inside.length + 1 = _ by simp; omega)
          rw [he, Option.bind_some, hsemi] at hcalled
          cases after with
          | nil => exact finds_none hcalled (by simp [Pattern.call?, hw, hp, he])
          | cons semi after =>
              by_cases hs : semi.kind = .semicolon
              · rw [List.head?_cons, Option.map_some, hs, if_pos rfl] at hcalled
                refine finds_some hcalled (show Pattern.call? t (paren :: ts) = some
                  ⟨.call t.text (Pattern.inner inside close), inside.length + 3⟩ by simp [Pattern.call?, hw, hp, he, hs]) ?_
                refine ⟨Pattern.inner inside close, ?_, hinner⟩
                rw [show 1 + 1 + inside.length + 1 = inside.length + 3 by omega]
              · rw [List.head?_cons, Option.map_some, if_neg (by simpa using hs)] at hcalled
                exact finds_none hcalled (by simp [Pattern.call?, hw, hp, he, hs])

theorem isPoint_eq (h : Legible source us) (ht : t ∈ us) :
    isPoint source (Spot.ofToken t) = .ok (t.kind = .mark ∧ t.text.toList.head? = some '.') := by
  rw [isPoint, h.text ht]
  by_cases hk : t.kind = .mark <;> simp [hk]

theorem parameter?_eq {group : List Token} (h : Legible source us) (hg : ∀ t ∈ group, t ∈ us) :
    parameter? source (group.map Spot.ofToken) = .ok (Pattern.parameter? group) := by
  rw [parameter?, List.findIdx?_map]
  cases hf : group.findIdx? ((·.kind == .variable) ∘ Spot.ofToken) with
  | none =>
      have hall : ∀ t ∈ group, t.kind ≠ .variable := fun t ht => by simpa using List.findIdx?_eq_none_iff.1 hf t ht
      have hp := Pattern.parameter?_append hall []
      rw [List.append_nil] at hp
      rw [hp, Pattern.parameter?, ite_self]
      rfl
  | some n =>
      obtain ⟨hn, hv, hbefore⟩ := List.findIdx?_eq_some_iff_getElem.1 hf
      have hkind : group[n].kind = .variable := by simpa using hv
      have hsplit : group = group.take n ++ group[n] :: group.drop (n + 1) := by simp
      have hnone : ∀ t ∈ group.take n, t.kind ≠ .variable := by
        intro t ht
        obtain ⟨j, hj, rfl⟩ := List.getElem_of_mem ht
        rw [List.length_take] at hj
        rw [List.getElem_take]
        simpa using hbefore j (by omega)
      have hstretch : stretch (group.map Spot.ofToken) 0 n = .ok ((group.take n).map Spot.ofToken) := by
        have hs := stretch_map (show group = [] ++ group.take n ++ group.drop n by simp)
        rwa [List.length_nil, Nat.zero_add, List.length_take, Nat.min_eq_left (by omega)] at hs
      have hpoints : ((group.take n).map Spot.ofToken).anyM (isPoint source) =
          .ok ((group.take n).any fun t => t.kind = .mark ∧ t.text.toList.head? = some '.') := by
        rw [anyM_map]
        exact anyM_ok fun t ht => isPoint_eq h (hg t (List.mem_of_mem_take ht))
      have hget : element (group.map Spot.ofToken) n = .ok (Spot.ofToken group[n]) := by
        apply element_of_get
        rw [map_ofToken_get, List.getElem?_eq_getElem hn]
        rfl
      simp only [hstretch, ok_bind, hpoints, hget, h.name? (hg _ (List.getElem_mem hn)) hkind]
      conv_rhs => rw [hsplit, Pattern.parameter?_append hnone, Pattern.parameter?, if_pos hkind]
      split <;> rfl

theorem parameters?_eq (h : Legible source us) :
    parameters? source (us.map Spot.ofToken) = .ok (Pattern.parameters? us) := by
  rw [parameters?, Pattern.parameters?, List.isEmpty_map]
  cases hus : us.isEmpty with
  | true => rfl
  | false =>
      have hm : (Nesting.groups 0 us).mapM (parameter? source ∘ List.map Spot.ofToken) =
          .ok ((Nesting.groups 0 us).map Pattern.parameter?) :=
        mapM_ok fun group hgroup => parameter?_eq h fun t ht => Nesting.mem_of_mem_groups hgroup ht
      rw [if_neg Bool.false_ne_true, groups_eq, ok_bind, List.mapM_map, hm, ok_bind, if_neg Bool.false_ne_true,
        List.mapM_map]
      rfl

def Declared.Of (source : String) (ts : List Token) (d : Declared) (m : Pattern.Match) : Prop :=
  ∃ name body text, m = ⟨.function name.text d.params body text, d.closing⟩ ∧ ts[1]? = some name ∧
    innerText source (ts.map Spot.ofToken) d.opening d.closing = .ok text ∧
    stretch (ts.map Spot.ofToken) (d.opening + 1) d.closing = .ok (body.map Spot.ofToken) ∧ Legible source body

theorem declaredFrom_eq {before after : List Token} (hus : us = before ++ after) (params : List String) :
    declaredFrom (us.map Spot.ofToken) params before.length =
      .ok (if after.head?.map Token.kind = some (.opening .curly) then
        (Nesting.enclosed? .curly 0 after.tail).map fun found =>
          ⟨params, before.length, before.length + 1 + found.1.length⟩
      else none) := by
  rw [declaredFrom, kind_behind hus rfl]
  cases after with
  | nil => rfl
  | cons brace rest =>
      by_cases hb : brace.kind = .opening .curly
      · simp [hb, matching_eq hus hb, Function.comp_def]
      · simp [hb]

theorem declared_of {before body after : List Token} {name brace last : Token} {params : List String} {i : Nat}
    (h : Legible source us) (hus : us = before ++ brace :: (body ++ last :: after)) (hi : i = before.length)
    (hn : us[1]? = some name) :
    Declared.Of source us ⟨params, i, i + 1 + body.length⟩
      ⟨.function name.text params body (Pattern.inner body last), i + 1 + body.length⟩ := by
  subst hi
  have hbody : us = (before ++ [brace]) ++ body ++ last :: after := by simp [hus]
  have hinner : us = before ++ brace :: body ++ last :: after := by simp [hus]
  refine ⟨name, body, Pattern.inner body last, rfl, hn, innerText_eq h hinner, ?_, ?_⟩
  · have hs := stretch_map hbody
    rwa [List.length_append, List.length_singleton] at hs
  · rw [hbody] at h
    exact h.append.1.append.2

theorem finds_body {name paren close : Token} {inside after : List Token} {params : List String}
    (h : Legible source (t :: name :: paren :: ts)) (hf : t.isWord "function") (hn : name.kind = .word)
    (hp : paren.kind = .opening .round) (he : Nesting.enclosed? .round 0 ts = some (inside, close, after))
    (hps : Pattern.parameters? inside = some params) :
    Finds (Declared.Of source (t :: name :: paren :: ts))
      (declaredFrom ((t :: name :: paren :: ts).map Spot.ofToken) params (2 + 1 + inside.length + 1))
      (Pattern.function? t (name :: paren :: ts)) := by
  have hlen : 2 + 1 + inside.length + 1 = ([t, name, paren] ++ inside ++ [close]).length := by
    simp
    omega
  have hbehind : t :: name :: paren :: ts = ([t, name, paren] ++ inside ++ [close]) ++ after := by
    simp [Nesting.enclosed?_eq he]
  have hbody := declaredFrom_eq hbehind params
  rw [← hlen] at hbody
  rw [hbody]
  cases after with
  | nil => exact finds_none rfl (by simp [Pattern.function?, hf, hn, hp, he])
  | cons brace rest =>
      by_cases hb : brace.kind = .opening .curly
      swap
      · refine finds_none (by simp [hb]) ?_
        simp only [Pattern.function?, hf, hn, hp, he, hps, and_self, if_true, hb, if_false]
        split <;> rfl
      cases heb : Nesting.enclosed? .curly 0 rest with
      | none => exact finds_none (by simp [hb, heb]) (by simp [Pattern.function?, hf, hn, hp, he, hps, heb])
      | some found =>
          obtain ⟨body, last, behind⟩ := found
          rw [Nesting.enclosed?_eq heb] at hbehind
          have hmore : inside.length + body.length + 5 = 2 + 1 + inside.length + 1 + 1 + body.length := by omega
          have hfunction : Pattern.function? t (name :: paren :: ts) = some
              ⟨.function name.text params body (Pattern.inner body last), inside.length + body.length + 5⟩ := by
            simp [Pattern.function?, hf, hn, hp, he, hps, heb, hb]
          rw [hmore] at hfunction
          refine finds_some ?_ hfunction (declared_of h hbehind hlen rfl)
          rw [List.head?_cons, Option.map_some, hb, if_pos rfl, List.tail_cons, heb]
          rfl

theorem finds_function (h : Legible source (t :: ts)) :
    Finds (Declared.Of source (t :: ts)) (declared? source ((t :: ts).map Spot.ofToken)) (Pattern.function? t ts) := by
  have hword := h.isWord (.head ts) "function"
  rcases ts with _ | ⟨name, _ | ⟨paren, ts⟩⟩
  · exact finds_none (by cases hw : t.isWord "function" <;> simp [declared?, hword, hw]) rfl
  · exact finds_none (by cases hw : t.isWord "function" <;> simp [declared?, hword, hw]) rfl
  by_cases hw : t.isWord "function" ∧ name.kind = .word ∧ paren.kind = .opening .round
  swap
  · refine finds_none ?_ (by rw [Pattern.function?, if_neg hw])
    cases hf : t.isWord "function" with
    | false => simp [declared?, hword, hf]
    | true =>
        have hn : name.kind = .word → paren.kind ≠ .opening .round := by simpa [hf] using hw
        by_cases hk : name.kind = .word <;> simp [declared?, hword, hf, hk, hn]
  obtain ⟨hf, hn, hp⟩ := hw
  have hname : ((t :: name :: paren :: ts).map Spot.ofToken)[1]?.map Spot.kind = some .word := congrArg some hn
  have hparen : ((t :: name :: paren :: ts).map Spot.ofToken)[2]?.map Spot.kind = some (.opening .round) :=
    congrArg some hp
  have hm := matching_eq (show t :: name :: paren :: ts = [t, name] ++ paren :: ts from rfl) hp
  rw [show [t, name].length = 2 from rfl] at hm
  rw [declared?, show ((t :: name :: paren :: ts).map Spot.ofToken)[0]? = some (Spot.ofToken t) from rfl]
  simp only [hword, hf, ok_bind, Bool.not_true, Bool.false_eq_true, if_false, hname, hparen, ne_eq, not_true, or_self, hm]
  cases he : Nesting.enclosed? .round 0 ts with
  | none => exact finds_none rfl (by simp [Pattern.function?, hf, hn, hp, he])
  | some found =>
      obtain ⟨inside, close, after⟩ := found
      have hts : t :: name :: paren :: ts = [t, name, paren] ++ inside ++ close :: after := by
        rw [Nesting.enclosed?_eq he]
        rfl
      have hstretch := stretch_map hts
      rw [show [t, name, paren].length = 3 from rfl] at hstretch
      have hinside : Legible source inside := by
        rw [hts] at h
        exact h.append.1.append.2
      simp only [Option.map_some, hstretch, ok_bind, parameters?_eq hinside]
      cases hps : Pattern.parameters? inside with
      | none =>
          refine finds_none rfl ?_
          cases after <;> simp [Pattern.function?, hf, hn, hp, he, hps]
      | some params => exact finds_body h hf hn hp he hps

end

end PhpTranspiler.Indexed
