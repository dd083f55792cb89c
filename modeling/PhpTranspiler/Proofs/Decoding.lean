import PhpTranspiler.Json.Reader
import PhpTranspiler.Proofs.Integers
import PhpTranspiler.Proofs.Origin
import PhpTranspiler.Script.Json

namespace PhpTranspiler

namespace Json

/-- A value whose integers fit 64 bits, signed or not, and whose other numbers are finite. -/
inductive Bounded : Json → Prop
  | null : Bounded .null
  | bool (b : Bool) : Bounded (.bool b)
  | integer {n : Int} (hl : -2 ^ 63 ≤ n) (hu : n < 2 ^ 64) : Bounded (.integer n)
  | real {x : Binary64} (h : x.isFinite) : Bounded (.real x)
  | text (s : String) : Bounded (.text s)
  | list {items : List Json} (h : ∀ j ∈ items, Bounded j) : Bounded (.list items)
  | object {members : List (String × Json)} (h : ∀ m ∈ members, Bounded m.2) : Bounded (.object members)

section

open Reader

theorem bounded_of_real? {x : Binary64} {j : Json} (h : real? x = some j) : j.Bounded := by
  unfold real? at h
  split at h
  · rename_i hx
    cases h
    exact .real hx
  · cases h

theorem bounded_of_ofDigits? {negative : Bool} {n : Nat} {j : Json} (h : ofDigits? negative n = some j) :
    j.Bounded := by
  unfold ofDigits? at h
  split at h
  · split at h
    · cases h
      exact .integer (by omega) (by omega)
    · exact bounded_of_real? h
  · split at h
    · cases h
      exact .integer (by omega) (by omega)
    · exact bounded_of_real? h

theorem bounded_of_number? {cs : List Char} {j : Json} (h : number? cs = some j) : j.Bounded := by
  unfold number? at h
  split at h
  all_goals
    split at h
    · cases h
    · split at h
      · exact bounded_of_ofDigits? h
      · split at h
        · exact bounded_of_real? h
        · cases h

mutual

theorem bounded_of_value {fuel : Nat} {cs rest : List Char} {j : Json} (h : value fuel cs = some (j, rest)) :
    j.Bounded := by
  cases fuel with
  | zero => cases h
  | succ fuel =>
  rw [value] at h
  split at h
  · cases h
    exact .null
  · cases h
    exact .bool true
  · cases h
    exact .bool false
  · obtain ⟨_, -, he⟩ := Option.map_eq_some_iff.1 h
    cases he
    exact .text _
  · split at h
    · cases h
      exact .list (by simp)
    · obtain ⟨_, hi, he⟩ := Option.map_eq_some_iff.1 h
      cases he
      exact .list (bounded_of_items hi)
  · split at h
    · cases h
      exact .object (by simp)
    · obtain ⟨_, hm, he⟩ := Option.map_eq_some_iff.1 h
      cases he
      exact .object (bounded_of_members hm)
  · obtain ⟨_, hn, he⟩ := Option.map_eq_some_iff.1 h
    cases he
    exact bounded_of_number? hn

theorem bounded_of_items {fuel : Nat} {cs rest : List Char} {js : List Json} (h : items fuel cs = some (js, rest)) :
    ∀ j ∈ js, j.Bounded := by
  cases fuel with
  | zero => cases h
  | succ fuel =>
  rw [items] at h
  split at h
  · cases h
  · rename_i hv
    have hj := bounded_of_value hv
    split at h
    · obtain ⟨_, hi, he⟩ := Option.map_eq_some_iff.1 h
      cases he
      exact List.forall_mem_cons.2 ⟨hj, bounded_of_items hi⟩
    · cases h
      exact List.forall_mem_cons.2 ⟨hj, by simp⟩
    · cases h

theorem bounded_of_members {fuel : Nat} {cs rest : List Char} {ms : List (String × Json)}
    (h : members fuel cs = some (ms, rest)) : ∀ m ∈ ms, m.2.Bounded := by
  cases fuel with
  | zero => cases h
  | succ fuel =>
  rw [members] at h
  split at h
  · split at h
    · cases h
    · split at h
      · split at h
        · cases h
        · rename_i hv
          have hj := bounded_of_value hv
          split at h
          · obtain ⟨_, hi, he⟩ := Option.map_eq_some_iff.1 h
            cases he
            exact List.forall_mem_cons.2 ⟨hj, bounded_of_members hi⟩
          · cases h
            exact List.forall_mem_cons.2 ⟨hj, by simp⟩
          · cases h
      · cases h
  · cases h

end

theorem bounded_of_read? {text : String} {j : Json} (h : read? text = some j) : j.Bounded := by
  unfold read? at h
  split at h
  · rename_i hv
    split at h
    · cases h
      exact bounded_of_value hv
    · cases h
  · cases h

end

@[elab_as_elim]
theorem part_induction {motive : Json → Prop} (h : ∀ j : Json, (∀ p : j.Part, motive p.1) → motive j) (j : Json) :
    motive j :=
  h j fun p => part_induction h p.1
termination_by sizeOf j
decreasing_by exact p.2

theorem items?_list (items : List Json) :
    ∃ ps : List (list items).Part, (list items).items? = some ps ∧
      ∀ {α : Type} (f : Json → Option α), (ps.mapM fun p => f p.1) = items.mapM f := by
  refine ⟨_, rfl, fun f => ?_⟩
  conv_rhs => rw [← List.attach_map_subtype_val items]
  rw [List.mapM_map, List.mapM_map]
  rfl

theorem mapM_map {α β : Type} {f : β → Option α} {g : α → β} {xs : List α} (h : ∀ x ∈ xs, f (g x) = some x) :
    (xs.map g).mapM f = some xs := by
  induction xs with
  | nil => rfl
  | cons x xs ih =>
      rw [List.map_cons, List.mapM_cons, h x (.head _), ih fun y hy => h y (.tail _ hy)]
      rfl

theorem Bounded.items {j : Json} (h : j.Bounded) {ps : List j.Part} (hp : j.items? = some ps) :
    ∀ p ∈ ps, p.1.Bounded := by
  cases h with
  | list h =>
      cases hp
      intro p hp
      obtain ⟨k, -, rfl⟩ := List.mem_map.1 hp
      exact h k.1 k.2
  | _ => cases hp

theorem Bounded.member {j : Json} (h : j.Bounded) {name : String} {p : j.Part} (hp : j.member? name = some p) :
    p.1.Bounded := by
  cases h with
  | object h =>
      obtain ⟨m, -, rfl⟩ := Option.map_eq_some_iff.1 hp
      exact h m.1 m.2
  | _ => cases hp

theorem Bounded.field {j : Json} (h : j.Bounded) {names : List String} {ps : List (Option j.Part)}
    (hps : j.fields? names = some ps) {p : j.Part} (hp : some p ∈ ps) : p.1.Bounded := by
  cases j with
  | object members =>
      cases hps
      obtain ⟨name, -, hm⟩ := List.mem_map.1 hp
      exact h.member hm
  | list items =>
      rw [fields?] at hps
      split at hps
      · obtain ⟨qs, hq, rfl⟩ := Option.map_eq_some_iff.1 hps
        exact h.items hq p (by simpa using hp)
      · cases hps
  | _ => cases hps

theorem natural?_integer {n : Nat} (h : n < 2 ^ 64) : (integer n).natural? = some n := by
  simp [natural?]
  omega

theorem lt_of_natural? {j : Json} {n : Nat} (h : j.natural? = some n) : n < 2 ^ 64 := by
  unfold natural? at h
  split at h
  · split at h
    · cases h
      omega
    · cases h
  · cases h

end Json

def Span.Bounded (s : Span) : Prop := s.start < 2 ^ 64 ∧ s.stop < 2 ^ 64

namespace Script

open Json

def Value.Bounded (v : Value) : Prop := ∀ x, v = .number x → x.isFinite

inductive Expression.Bounded : Expression → Prop
  | identifier {id : Identifier} (h : id.span.Bounded) : Bounded (.identifier id)
  | literal {span : Span} {l : Literal} (hs : span.Bounded) (hv : l.value.Bounded) : Bounded (.literal span l)
  | call {span : Span} {callee : Expression} {args : List Expression} {optional : Bool} (hs : span.Bounded)
      (hc : Bounded callee) (ha : ∀ a ∈ args, Bounded a) : Bounded (.call span callee args optional)
  | member {span : Span} {object : Expression} {property : Identifier} {computed optional : Bool} (hs : span.Bounded)
      (ho : Bounded object) (hp : property.span.Bounded) : Bounded (.member span object property computed optional)

structure Declarator.Bounded (d : Declarator) : Prop where
  span : d.span.Bounded
  id : d.id.span.Bounded
  init : ∀ e, d.init = some e → e.Bounded

inductive Statement.Bounded : Statement → Prop
  | declaration {span : Span} {ds : List Declarator} (hs : span.Bounded) (hd : ∀ d ∈ ds, d.Bounded) :
      Bounded (.declaration span ds)
  | expression {span : Span} {e : Expression} (hs : span.Bounded) (he : e.Bounded) : Bounded (.expression span e)
  | function {span block : Span} {id : Identifier} {flags : FunctionFlags} {params : List Identifier}
      {body : List Statement} (hs : span.Bounded) (hi : id.span.Bounded) (hp : ∀ p ∈ params, p.span.Bounded)
      (hk : block.Bounded) (hb : ∀ s ∈ body, Bounded s) : Bounded (.function span id flags params block body)

structure Program.Bounded (p : Program) : Prop where
  span : p.span.Bounded
  body : ∀ s ∈ p.body, s.Bounded

theorem span?_integer {s : Span} (h : s.Bounded) : span? (.integer s.start) (.integer s.stop) = some s := by
  simp [span?, natural?_integer h.1, natural?_integer h.2]

theorem Value.ofJson?_toJson {v : Value} (h : v.Bounded) : ofJson? v.toJson = some v := by
  cases v with
  | number x => rw [toJson, if_pos (h x rfl), ofJson?]
  | _ => rfl

theorem Identifier.ofJson?_toJson {id : Identifier} (h : id.span.Bounded) : ofJson? id.toJson = some id := by
  have he : ofJson? id.toJson =
      (span? (.integer id.span.start) (.integer id.span.stop)).bind fun span => some ⟨span, id.name⟩ := rfl
  rw [he, span?_integer h]
  rfl

namespace Expression

variable {span : Span}

theorem listToJson_eq (es : List Expression) : listToJson es = es.map toJson := by
  induction es with
  | nil => rfl
  | cons e es ih => rw [listToJson, ih, List.map_cons]

-- In the next lemmas a node is read back as each kind in turn. The name of a member that it lacks rules a kind out,
-- which computing decides; the binds of the kind that is left are written out.

theorem ofJson?_literal {l : Literal} (hs : span.Bounded) (hv : l.value.Bounded) :
    ofJson? (literal span l).toJson = some (.literal span l) := by
  have he : literal? (literal span l).toJson = (span? (.integer span.start) (.integer span.stop)).bind fun span =>
      (Value.ofJson? l.value.toJson).bind fun value => some (.literal span ⟨value, l.raw⟩) := rfl
  rw [ofJson?, he, span?_integer hs, Option.bind_some, Value.ofJson?_toJson hv]
  rfl

theorem ofJson?_call {callee : Expression} {args : List Expression} {optional : Bool} (hs : span.Bounded)
    (hc : ofJson? callee.toJson = some callee) (ha : ∀ a ∈ args, ofJson? a.toJson = some a) :
    ofJson? (call span callee args optional).toJson = some (.call span callee args optional) := by
  have he : ofJson? (call span callee args optional).toJson =
      (none <|> none <|> ((span? (.integer span.start) (.integer span.stop)).bind fun span =>
        (ofJson? callee.toJson).bind fun callee => (list (listToJson args)).items?.bind fun ps =>
        (ps.mapM fun p => ofJson? p.1).bind fun args => some (.call span callee args optional)) <|> none) := by
    rw [ofJson?]
    rfl
  obtain ⟨ps, hp, hm⟩ := items?_list (listToJson args)
  rw [he, span?_integer hs, hc, hp]
  simp only [Option.bind_some, hm]
  rw [listToJson_eq, mapM_map ha]
  rfl

theorem ofJson?_member {object : Expression} {property : Identifier} {computed optional : Bool} (hs : span.Bounded)
    (ho : ofJson? object.toJson = some object) (hp : property.span.Bounded) :
    ofJson? (member span object property computed optional).toJson =
      some (.member span object property computed optional) := by
  have he : ofJson? (member span object property computed optional).toJson =
      (none <|> none <|> none <|> ((span? (.integer span.start) (.integer span.stop)).bind fun span =>
        (ofJson? object.toJson).bind fun object => (Identifier.ofJson? property.toJson).bind fun property =>
        some (.member span object property computed optional))) := by
    rw [ofJson?]
    rfl
  rw [he, span?_integer hs, ho, Identifier.ofJson?_toJson hp]
  rfl

theorem ofJson?_toJson {e : Expression} (h : e.Bounded) : ofJson? e.toJson = some e := by
  induction h with
  | identifier h =>
      rw [ofJson?, toJson, Identifier.ofJson?_toJson h]
      rfl
  | literal hs hv => exact ofJson?_literal hs hv
  | call hs _ _ hc ha => exact ofJson?_call hs hc ha
  | member hs _ hp ho => exact ofJson?_member hs ho hp

theorem toJson_eq_object (e : Expression) : ∃ members, e.toJson = .object members := by
  cases e <;> exact ⟨_, rfl⟩

theorem ofJson?_bool (b : Bool) : ofJson? (.bool b) = none := by
  rw [ofJson?]
  rfl

end Expression

theorem Declarator.ofJson?_toJson {d : Declarator} (h : d.Bounded) : ofJson? d.toJson = some d := by
  obtain ⟨span, id, init⟩ := d
  have hspan := span?_integer h.span
  have hid := Identifier.ofJson?_toJson h.id
  cases init with
  | none =>
      have he : ofJson? (mk span id none).toJson = (span? (.integer span.start) (.integer span.stop)).bind fun span =>
          (Identifier.ofJson? id.toJson).bind fun id => some ⟨span, id, none⟩ := rfl
      rw [he, hspan, Option.bind_some, hid, Option.bind_some]
  | some e =>
      obtain ⟨members, hm⟩ := e.toJson_eq_object
      have hinit := Expression.ofJson?_toJson (h.init e rfl)
      rw [hm] at hinit
      have he : ofJson? (nodeJson "VariableDeclarator" span [("id", id.toJson), ("init", object members)]) =
          (span? (.integer span.start) (.integer span.stop)).bind fun span =>
            (Identifier.ofJson? id.toJson).bind fun id =>
              (Expression.ofJson? (object members)).map fun e => ⟨span, id, some e⟩ := rfl
      rw [toJson, Option.elim_some, hm, he, hspan, Option.bind_some, hid, Option.bind_some, hinit, Option.map_some]

namespace Statement

variable {span : Span}

theorem listToJson_eq (ss : List Statement) : listToJson ss = ss.map toJson := by
  induction ss with
  | nil => rfl
  | cons s ss ih => rw [listToJson, ih, List.map_cons]

theorem ofJson?_declaration {ds : List Declarator} (hs : span.Bounded) (hd : ∀ d ∈ ds, d.Bounded) :
    ofJson? (declaration span ds).toJson = some (.declaration span ds) := by
  have he : declaration? (declaration span ds).toJson = (span? (.integer span.start) (.integer span.stop)).bind
      fun span => (list (ds.map Declarator.toJson)).items?.bind fun ps =>
        (ps.mapM fun p => Declarator.ofJson? p.1).bind fun ds => some (.declaration span ds) := rfl
  obtain ⟨ps, hp, hm⟩ := items?_list (ds.map Declarator.toJson)
  rw [ofJson?, he, span?_integer hs, Option.bind_some, hp, Option.bind_some, hm,
    mapM_map fun d h => Declarator.ofJson?_toJson (hd d h)]
  rfl

theorem ofJson?_expression {e : Expression} (hs : span.Bounded) (h : e.Bounded) :
    ofJson? (expression span e).toJson = some (.expression span e) := by
  have he : expressionStatement? (expression span e).toJson =
      (span? (.integer span.start) (.integer span.stop)).bind fun span =>
        (Expression.ofJson? e.toJson).bind fun e => some (.expression span e) := rfl
  rw [ofJson?, he, span?_integer hs, Option.bind_some, Expression.ofJson?_toJson h]
  rfl

/-- A function has a member `expression` as well, but what it holds is no expression. -/
theorem ofJson?_function {block : Span} {id : Identifier} {flags : FunctionFlags} {params : List Identifier}
    {body : List Statement} (hs : span.Bounded) (hi : id.span.Bounded) (hp : ∀ p ∈ params, p.span.Bounded)
    (hk : block.Bounded) (hb : ∀ s ∈ body, ofJson? s.toJson = some s) :
    ofJson? (function span id flags params block body).toJson = some (.function span id flags params block body) := by
  have hexpression : expressionStatement? (function span id flags params block body).toJson = none := by
    have he : expressionStatement? (function span id flags params block body).toJson =
        (span? (.integer span.start) (.integer span.stop)).bind fun span =>
          (Expression.ofJson? (.bool flags.expression)).bind fun e => some (.expression span e) := rfl
    rw [he, span?_integer hs, Expression.ofJson?_bool]
    rfl
  have he : ofJson? (function span id flags params block body).toJson =
      (none <|> none <|> (span? (.integer span.start) (.integer span.stop)).bind fun span =>
        (Identifier.ofJson? id.toJson).bind fun id =>
        (flags? (.bool flags.expression) (.bool flags.generator) (.bool flags.async)).bind fun flags =>
        (list (params.map Identifier.toJson)).items?.bind fun ps =>
        (ps.mapM fun p => Identifier.ofJson? p.1).bind fun params =>
        (span? (.integer block.start) (.integer block.stop)).bind fun block =>
        (list (listToJson body)).items?.bind fun ps => (ps.mapM fun p => ofJson? p.1).bind fun body =>
        some (.function span id flags params block body)) := by
    rw [ofJson?, hexpression]
    rfl
  obtain ⟨ps, hps, hpm⟩ := items?_list (params.map Identifier.toJson)
  obtain ⟨qs, hqs, hqm⟩ := items?_list (listToJson body)
  have hparams := mapM_map fun p h => Identifier.ofJson?_toJson (hp p h)
  have hbody := mapM_map hb
  rw [he, span?_integer hs, span?_integer hk, Identifier.ofJson?_toJson hi, hps, hqs]
  simp only [Option.bind_some, hpm, hqm, listToJson_eq, hparams, hbody]
  rfl

theorem ofJson?_toJson {s : Statement} (h : s.Bounded) : ofJson? s.toJson = some s := by
  induction h with
  | declaration hs hd => exact ofJson?_declaration hs hd
  | expression hs he => exact ofJson?_expression hs he
  | function hs hi hp hk _ hb => exact ofJson?_function hs hi hp hk hb

end Statement

theorem Program.ofJson?_toJson {p : Program} (h : p.Bounded) : ofJson? p.toJson = some p := by
  have he : ofJson? p.toJson = (span? (.integer p.span.start) (.integer p.span.stop)).bind fun span =>
      (list (Statement.listToJson p.body)).items?.bind fun ps =>
        (ps.mapM fun p => Statement.ofJson? p.1).bind fun body => some ⟨span, body⟩ := rfl
  obtain ⟨ps, hps, hm⟩ := items?_list (Statement.listToJson p.body)
  rw [he, span?_integer h.span, Option.bind_some, hps, Option.bind_some, hm, Statement.listToJson_eq,
    mapM_map fun s hs => Statement.ofJson?_toJson (h.body s hs), Option.bind_some]

theorem bounded_of_span? {start stop : Json} {s : Span} (h : span? start stop = some s) : s.Bounded := by
  obtain ⟨m, hm, h⟩ := Option.bind_eq_some_iff.1 h
  obtain ⟨n, hn, rfl⟩ := Option.map_eq_some_iff.1 h
  exact ⟨lt_of_natural? hm, lt_of_natural? hn⟩

theorem Value.bounded_of_ofJson? {j : Json} (hj : j.Bounded) {v : Value} (h : ofJson? j = some v) : v.Bounded := by
  rintro x rfl
  cases hj with
  | @integer n hl hu =>
      cases h
      exact decide_eq_true (Binary64.nearest_lt (n := n.natAbs) (by omega))
  | real hx =>
      cases h
      exact hx
  | _ => cases h

theorem Identifier.bounded_of_ofJson? {j : Json} {id : Identifier} (h : ofJson? j = some id) : id.span.Bounded := by
  unfold ofJson? at h
  split at h
  · simp only [Option.bind_eq_bind, Option.bind_eq_some_iff, Option.some.injEq] at h
    obtain ⟨span, hs, name, -, rfl⟩ := h
    exact bounded_of_span? hs
  · cases h

theorem bounded_of_literal? {j : Json} (hj : j.Bounded) {e : Expression} (h : literal? j = some e) : e.Bounded := by
  unfold literal? at h
  split at h
  · rename_i hf
    simp only [Option.bind_eq_bind, Option.bind_eq_some_iff, Option.some.injEq] at h
    obtain ⟨span, hs, value, hv, raw, -, rfl⟩ := h
    exact .literal (bounded_of_span? hs) (Value.bounded_of_ofJson? (hj.field hf (by simp)) hv)
  · cases h

theorem bounded_of_mapM {α : Type} {p : α → Prop} {f : Json → Option α} {j : Json} {ps : List j.Part} {xs : List α}
    (h : (ps.mapM fun p => f p.1) = some xs) (hf : ∀ q ∈ ps, ∀ x, f q.1 = some x → p x) : ∀ x ∈ xs, p x := by
  intro x hx
  obtain ⟨q, hq, hqx⟩ := Pattern.exists_of_mapM_some h x hx
  exact hf q hq x hqx

theorem Expression.bounded_of_ofJson? {j : Json} (hj : j.Bounded) {e : Expression} (h : ofJson? j = some e) :
    e.Bounded := by
  induction j using part_induction generalizing e with
  | _ j ih =>
  rw [ofJson?, Option.orElse_eq_some, Option.orElse_eq_some, Option.orElse_eq_some] at h
  rcases h with h | ⟨-, h | ⟨-, h | ⟨-, h⟩⟩⟩
  · obtain ⟨id, hid, rfl⟩ := Option.map_eq_some_iff.1 h
    exact .identifier (Identifier.bounded_of_ofJson? hid)
  · exact bounded_of_literal? hj h
  · split at h
    · rename_i start stop callee list optional hf
      simp only [Option.bind_eq_bind, Option.bind_eq_some_iff, Option.some.injEq] at h
      obtain ⟨span, hs, e, he, ps, hps, args, hargs, flag, -, rfl⟩ := h
      have hlist := hj.field hf (p := list) (by simp)
      refine .call (bounded_of_span? hs) (ih callee (hj.field hf (by simp)) he) ?_
      exact bounded_of_mapM hargs fun q hq x hx =>
        ih ⟨q.1, Nat.lt_trans q.2 list.2⟩ (hlist.items hps q hq) hx
    · cases h
  · split at h
    · rename_i start stop object property computed optional hf
      simp only [Option.bind_eq_bind, Option.bind_eq_some_iff, Option.some.injEq] at h
      obtain ⟨span, hs, e, he, id, hid, _, -, _, -, rfl⟩ := h
      exact .member (bounded_of_span? hs) (ih object (hj.field hf (by simp)) he)
        (Identifier.bounded_of_ofJson? hid)
    · cases h

theorem Declarator.bounded_of_ofJson? {j : Json} (hj : j.Bounded) {d : Declarator} (h : ofJson? j = some d) :
    d.Bounded := by
  unfold ofJson? at h
  split at h
  · rename_i start stop id init hf
    simp only [Option.bind_eq_bind, Option.bind_eq_some_iff] at h
    obtain ⟨span, hs, id, hid, h⟩ := h
    have hspan := bounded_of_span? hs
    have hname := Identifier.bounded_of_ofJson? hid
    split at h
    · cases h
      exact ⟨hspan, hname, by simp⟩
    · cases h
      exact ⟨hspan, hname, by simp⟩
    · rename_i hi
      obtain ⟨e, he, rfl⟩ := Option.map_eq_some_iff.1 h
      obtain ⟨p, rfl, rfl⟩ := Option.map_eq_some_iff.1 hi
      refine ⟨hspan, hname, ?_⟩
      rintro _ ⟨⟩
      exact Expression.bounded_of_ofJson? (hj.field hf (by simp)) he
  · cases h

theorem bounded_of_declaration? {j : Json} (hj : j.Bounded) {s : Statement} (h : declaration? j = some s) :
    s.Bounded := by
  unfold declaration? at h
  split at h
  · rename_i start stop list kind hf
    simp only [Option.bind_eq_bind, Option.bind_eq_some_iff] at h
    obtain ⟨span, hs, ps, hps, ds, hds, h⟩ := h
    split at h
    · cases h
      have hlist := hj.field hf (p := list) (by simp)
      refine .declaration (bounded_of_span? hs) ?_
      exact bounded_of_mapM hds fun q hq x hx => Declarator.bounded_of_ofJson? (hlist.items hps q hq) hx
    · cases h
  · cases h

theorem bounded_of_expressionStatement? {j : Json} (hj : j.Bounded) {s : Statement}
    (h : expressionStatement? j = some s) : s.Bounded := by
  unfold expressionStatement? at h
  split at h
  · rename_i hf
    simp only [Option.bind_eq_bind, Option.bind_eq_some_iff, Option.some.injEq] at h
    obtain ⟨span, hs, e, he, rfl⟩ := h
    exact .expression (bounded_of_span? hs) (Expression.bounded_of_ofJson? (hj.field hf (by simp)) he)
  · cases h

theorem Statement.bounded_of_ofJson? {j : Json} (hj : j.Bounded) {s : Statement} (h : ofJson? j = some s) :
    s.Bounded := by
  induction j using part_induction generalizing s with
  | _ j ih =>
  rw [ofJson?, Option.orElse_eq_some, Option.orElse_eq_some] at h
  rcases h with h | ⟨-, h | ⟨-, h⟩⟩
  · exact bounded_of_declaration? hj h
  · exact bounded_of_expressionStatement? hj h
  · split at h
    · rename_i start stop id isExpression isGenerator isAsync list block hf
      simp only [Option.bind_eq_bind, Option.bind_eq_some_iff] at h
      obtain ⟨span, hs, name, hname, flags, -, ps, hps, params, hparams, h⟩ := h
      split at h
      · rename_i first last lines hb
        simp only [Option.bind_eq_some_iff, Option.some.injEq] at h
        obtain ⟨place, hplace, qs, hqs, body, hbody, rfl⟩ := h
        have hblock := hj.field hf (p := block) (by simp)
        have hlines := hblock.field hb (p := lines) (by simp)
        refine .function (bounded_of_span? hs) (Identifier.bounded_of_ofJson? hname) ?_ (bounded_of_span? hplace) ?_
        · exact bounded_of_mapM hparams fun q hq x hx => Identifier.bounded_of_ofJson? hx
        · exact bounded_of_mapM hbody fun q hq x hx =>
            ih ⟨q.1, Nat.lt_trans q.2 (Nat.lt_trans lines.2 block.2)⟩ (hlines.items hqs q hq) hx
      · cases h
    · cases h

theorem Program.bounded_of_ofJson? {j : Json} (hj : j.Bounded) {p : Program} (h : ofJson? j = some p) :
    p.Bounded := by
  unfold ofJson? at h
  split at h
  · rename_i start stop list type hf
    simp only [Option.bind_eq_bind, Option.bind_eq_some_iff] at h
    obtain ⟨span, hs, ps, hps, body, hbody, h⟩ := h
    split at h
    · cases h
      have hlist := hj.field hf (p := list) (by simp)
      refine ⟨bounded_of_span? hs, ?_⟩
      exact bounded_of_mapM hbody fun q hq x hx => Statement.bounded_of_ofJson? (hlist.items hps q hq) hx
    · cases h
  · cases h

/-- What is written of a program reads back as this program. So a program that is read from any value, whatever types it
tells and whatever else it holds, is read again from what is written of it. Each value that a text spells is within the
bounds. -/
theorem Program.reads_back :
    (∀ p : Program, p.Bounded → ofJson? p.toJson = some p) ∧
      (∀ j p, j.Bounded → ofJson? j = some p → ofJson? p.toJson = some p) ∧
      ∀ text j, Json.read? text = some j → j.Bounded :=
  ⟨fun _ h => ofJson?_toJson h, fun _ _ hj h => ofJson?_toJson (bounded_of_ofJson? hj h),
    fun _ _ => bounded_of_read?⟩

def sampleProgram : Program :=
  ⟨⟨0, 35⟩, [.function ⟨0, 35⟩ ⟨⟨9, 10⟩, "f"⟩ ⟨false, true, false⟩ [⟨⟨11, 12⟩, "a"⟩] ⟨14, 35⟩
    [.declaration ⟨16, 22⟩ [⟨⟨20, 21⟩, ⟨⟨20, 21⟩, "x"⟩, none⟩],
      .expression ⟨23, 33⟩ (.call ⟨23, 32⟩
        (.member ⟨23, 26⟩ (.identifier ⟨⟨23, 24⟩, "a"⟩) ⟨⟨25, 26⟩, "b"⟩ false true)
        [.literal ⟨27, 31⟩ ⟨.null, "null"⟩] false)]]⟩

def mislabelled : Json :=
  .object [("type", .text "Literal"), ("sourceType", .text "script"), ("raw", .null), ("body", .list []),
    ("end", .integer 3), ("start", .integer 1)]

theorem sampleProgram_bounded : sampleProgram.Bounded := by
  have hspan {m n : Nat} (h : m < 2 ^ 64 ∧ n < 2 ^ 64) : Span.Bounded ⟨m, n⟩ := h
  have hx : Declarator.Bounded ⟨⟨20, 21⟩, ⟨⟨20, 21⟩, "x"⟩, none⟩ :=
    ⟨hspan (by decide), hspan (by decide), by simp⟩
  have hb : Expression.Bounded (.member ⟨23, 26⟩ (.identifier ⟨⟨23, 24⟩, "a"⟩) ⟨⟨25, 26⟩, "b"⟩ false true) :=
    .member (hspan (by decide)) (.identifier (hspan (by decide))) (hspan (by decide))
  have hnull : Expression.Bounded (.literal ⟨27, 31⟩ ⟨.null, "null"⟩) :=
    .literal (hspan (by decide)) (by simp [Value.Bounded])
  have hcall : Expression.Bounded (.call ⟨23, 32⟩ (.member ⟨23, 26⟩ (.identifier ⟨⟨23, 24⟩, "a"⟩) ⟨⟨25, 26⟩, "b"⟩
      false true) [.literal ⟨27, 31⟩ ⟨.null, "null"⟩] false) :=
    .call (hspan (by decide)) hb (List.forall_mem_singleton.2 hnull)
  refine ⟨hspan (by decide), List.forall_mem_singleton.2 (.function (hspan (by decide)) (hspan (by decide))
    (List.forall_mem_singleton.2 (hspan (by decide))) (hspan (by decide)) ?_)⟩
  exact List.forall_mem_cons.2 ⟨.declaration (hspan (by decide)) (List.forall_mem_singleton.2 hx),
    List.forall_mem_singleton.2 (.expression (hspan (by decide)) hcall)⟩

theorem Program.reads_back_sample :
    ofJson? sampleProgram.toJson = some sampleProgram ∧ ofJson? mislabelled = some ⟨⟨1, 3⟩, []⟩ ∧
      ofJson? (toJson ⟨⟨1, 3⟩, []⟩) = some ⟨⟨1, 3⟩, []⟩ ∧ (Json.list [.integer 7]).Bounded := by
  have hj : mislabelled.Bounded := by
    refine .object ?_
    simp only [List.forall_mem_cons, List.not_mem_nil, false_implies, implies_true, and_true]
    exact ⟨.text _, .text _, .null, .list (by simp), .integer (by decide) (by decide), .integer (by decide) (by decide)⟩
  have hr : ofJson? mislabelled = some ⟨⟨1, 3⟩, []⟩ := rfl
  have hread : Json.read? "[7]" = some (.list [.integer 7]) := by cbv
  exact ⟨reads_back.1 _ sampleProgram_bounded, hr, reads_back.2.1 _ _ hj hr, reads_back.2.2 _ _ hread⟩

end Script

end PhpTranspiler
