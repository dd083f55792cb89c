import PhpTranspiler.Proofs.PlainLayout
import PhpTranspiler.Proofs.Rendering

namespace PhpTranspiler

namespace Anchored

theorem toNat_add_toUInt32 {base : UInt32} {n : Nat} (h : base.toNat + n < 2 ^ 32) :
    (base + n.toUInt32).toNat = base.toNat + n := by
  have hn : n.toUInt32.toNat = n % 2 ^ 32 := rfl
  rw [UInt32.toNat_add, hn]
  omega

namespace Place

variable {base : UInt32} {span : Span}

theorem ofSpan_eq (h : span.start ≤ span.stop) (hs : base.toNat + span.stop < 2 ^ 32) :
    ofSpan base span = ⟨base + span.start.toUInt32, base + span.stop.toUInt32⟩ := by
  rw [ofSpan, between, if_pos]
  rw [UInt32.le_iff_toNat_le, toNat_add_toUInt32 (by omega), toNat_add_toUInt32 hs]
  omega

theorem toNat_ofSpan (h : span.start ≤ span.stop) (hs : base.toNat + span.stop < 2 ^ 32) :
    (ofSpan base span).lo.toNat = base.toNat + span.start ∧ (ofSpan base span).hi.toNat = base.toNat + span.stop := by
  rw [ofSpan_eq h hs]
  exact ⟨toNat_add_toUInt32 (by omega), toNat_add_toUInt32 hs⟩

end Place

def Expression.place : Expression → Place
  | .name n => n.place
  | .null place => place
  | .bool place _ => place
  | .number place _ _ => place
  | .text place _ _ => place
  | .minus place _ => place
  | .call place _ _ => place
  | .member place _ _ => place

mutual

def Statement.render : Statement → String
  | .declaration _ ds => "var " ++ Text.commaList (ds.map Declarator.layout) ++ ";"
  | .expression _ e => e.layout ++ ";"
  | .function _ name async generator params _ body =>
    functionKeyword async generator ++ name.name ++ "(" ++ Text.commaList (params.map Name.name) ++ ") " ++
      Statement.renderBlock body

def Statement.renderBlock : List Statement → String
  | [] => "\x7b \x7d"
  | s :: body => "\x7b\n" ++ (s.render ++ "\n" ++ Statement.renderLines body) ++ "\x7d"

def Statement.renderLines : List Statement → String
  | [] => ""
  | s :: body => s.render ++ "\n" ++ Statement.renderLines body

end

theorem Expression.listOfScript_eq_map (base : UInt32) (es : List Script.Expression) :
    Expression.listOfScript base es = es.map (Expression.ofScript base) := by
  induction es with
  | nil => rw [Expression.listOfScript, List.map_nil]
  | cons e es ih => rw [Expression.listOfScript, ih, List.map_cons]

theorem Statement.listOfScript_eq_map (base : UInt32) (ss : List Script.Statement) :
    Statement.listOfScript base ss = ss.map (Statement.ofScript base) := by
  induction ss with
  | nil => rw [Statement.listOfScript, List.map_nil]
  | cons s ss ih => rw [Statement.listOfScript, ih, List.map_cons]

inductive Part
  | module (m : Module)
  | statement (s : Statement)
  | declarator (d : Declarator)
  | name (n : Name)
  | param (n : Name)
  | expression (e : Expression)
  | block (place : Place) (body : List Statement)

namespace Part

def place : Part → Place
  | .module m => m.place
  | .statement s => s.place
  | .declarator d => d.place
  | .name n => n.place
  | .param n => n.place
  | .expression e => e.place
  | .block place _ => place

def render : Part → String
  | .module m => Statement.renderLines m.body
  | .statement s => s.render
  | .declarator d => d.layout
  | .name n => n.name
  | .param n => n.name
  | .expression e => e.layout
  | .block _ body => Statement.renderBlock body

def children : Part → List Part
  | .module m => m.body.map .statement
  | .statement (.declaration _ ds) => ds.map .declarator
  | .statement (.expression _ e) => [.expression e]
  | .statement (.function _ id _ _ params place body) => .name id :: .block place body :: params.map .param
  | .declarator d => .name d.name :: d.init.toList.map .expression
  | .expression (.minus _ operand) => [.expression operand]
  | .expression (.call _ callee arguments) => (callee :: arguments).map .expression
  | .expression (.member _ object property) => [.expression object, .name property]
  | .block _ body => body.map .statement
  | _ => []

def Holds (p q : Part) : Prop := Relation.ReflTransGen (fun p q => q ∈ p.children) p q

def isParam : Part → Bool
  | .param _ => true
  | _ => false

def ofScript (base : UInt32) : Script.Part → Part
  | .program p => .module (.ofScript base p)
  | .statement s => .statement (.ofScript base s)
  | .declarator d => .declarator (.ofScript base d)
  | .identifier id => .name (.ofScript base id)
  | .expression e => .expression (.ofScript base e)
  | .block span body => .block (.ofSpan base span) (Statement.listOfScript base body)

/-- The nodes that are no parts of a script: the parameters of a function and the magnitude of a number below zero,
each with the span that its place is computed from. -/
inductive Added (base : UInt32) : Script.Part → Span → Part → Prop
  | param {span block : Span} {id q : Script.Identifier} {flags : Script.FunctionFlags}
      {params : List Script.Identifier} {body : List Script.Statement} (h : q ∈ params) :
      Added base (.statement (.function span id flags params block body)) q.span (.param (.ofScript base q))
  | magnitude {span : Span} {l : Script.Literal} {x : Binary64} (hv : l.value = .number x) (hx : x.isBelowZero) :
      Added base (.expression (.literal span l)) ⟨span.start + 1, span.stop⟩
        (.expression (.number (.ofSpan base ⟨span.start + 1, span.stop⟩) x.neg
          (String.ofList (l.raw.toList.dropWhile (· == '-')))))

section

variable {base : UInt32} {p c : Script.Part} {q : Part} {span : Span}

theorem ofLiteral_of_below {l : Script.Literal} {x : Binary64} (hv : l.value = .number x) (hx : x.isBelowZero) :
    Expression.ofLiteral base span l = .minus (.ofSpan base span)
      (.number (.ofSpan base ⟨span.start + 1, span.stop⟩) x.neg
        (String.ofList (l.raw.toList.dropWhile (· == '-')))) := by
  simp only [Expression.ofLiteral, hv, hx, if_true]

theorem children_ofLiteral {l : Script.Literal} (h : ∀ x, l.value = .number x → ¬x.isBelowZero) :
    children (.expression (.ofLiteral base span l)) = [] := by
  rw [Expression.ofLiteral]
  cases hv : l.value with
  | null => rfl
  | bool b => rfl
  | text s => rfl
  | number x =>
      simp only [if_neg (h x hv)]
      rfl

theorem added_function_iff {block : Span} {id : Script.Identifier} {flags : Script.FunctionFlags}
    {params : List Script.Identifier} {body : List Script.Statement} :
    (∃ s, Added base (.statement (.function span id flags params block body)) s q) ↔
      ∃ r ∈ params, .param (.ofScript base r) = q := by
  constructor
  · rintro ⟨_, h⟩
    cases h with
    | param h => exact ⟨_, h, rfl⟩
  · rintro ⟨r, h, rfl⟩
    exact ⟨_, .param h⟩

theorem added_literal_iff {l : Script.Literal} :
    (∃ s, Added base (.expression (.literal span l)) s q) ↔
      q ∈ children (.expression (.ofLiteral base span l)) := by
  by_cases h : ∃ x, l.value = .number x ∧ x.isBelowZero
  · obtain ⟨x, hv, hx⟩ := h
    rw [ofLiteral_of_below hv hx, children, List.mem_singleton]
    constructor
    · rintro ⟨_, h⟩
      cases h with
      | magnitude hv' hx' =>
          rw [hv] at hv'
          cases hv'
          rfl
    · rintro rfl
      exact ⟨_, .magnitude hv hx⟩
  · rw [children_ofLiteral fun x hv hx => h ⟨x, hv, hx⟩]
    constructor
    · rintro ⟨_, ⟨⟩⟩
      exact absurd ⟨_, by assumption, by assumption⟩ h
    · rintro ⟨⟩

/-- What a part becomes is made of what its parts become, and of the nodes that are added. -/
theorem mem_children_ofScript :
    q ∈ (ofScript base p).children ↔ (∃ c ∈ p.children, ofScript base c = q) ∨ ∃ span, Added base p span q := by
  cases p with
  | program p =>
      have hn : ∀ s, ¬Added base (.program p) s q := by rintro s ⟨⟩
      simp [ofScript, Module.ofScript, children, Script.Part.children, Statement.listOfScript_eq_map, hn]
  | statement s =>
      cases s with
      | declaration span ds =>
          have hn : ∀ s, ¬Added base (.statement (.declaration span ds)) s q := by rintro s ⟨⟩
          simp [ofScript, Statement.ofScript, children, Script.Part.children, hn]
      | expression span e =>
          have hn : ∀ s, ¬Added base (.statement (.expression span e)) s q := by rintro s ⟨⟩
          simp [ofScript, Statement.ofScript, children, Script.Part.children, hn, eq_comm]
      | function span id flags params block body =>
          rw [added_function_iff]
          simp [ofScript, Statement.ofScript, children, Script.Part.children, eq_comm, or_assoc]
  | declarator d =>
      have hn : ∀ s, ¬Added base (.declarator d) s q := by rintro s ⟨⟩
      simp [ofScript, Declarator.ofScript, children, Script.Part.children, hn, eq_comm]
  | identifier id =>
      have hn : ∀ s, ¬Added base (.identifier id) s q := by rintro s ⟨⟩
      simp [ofScript, children, Script.Part.children, hn]
  | expression e =>
      cases e with
      | identifier id =>
          have hn : ∀ s, ¬Added base (.expression (.identifier id)) s q := by rintro s ⟨⟩
          simp [ofScript, Expression.ofScript, children, Script.Part.children, hn]
      | literal span l =>
          rw [added_literal_iff, ofScript, Expression.ofScript]
          simp [Script.Part.children]
      | call span callee args optional =>
          have hn : ∀ s, ¬Added base (.expression (.call span callee args optional)) s q := by rintro s ⟨⟩
          simp [ofScript, Expression.ofScript, children, Script.Part.children, Expression.listOfScript_eq_map, hn,
            eq_comm]
      | member span object property computed optional =>
          have hn : ∀ s, ¬Added base (.expression (.member span object property computed optional)) s q := by
            rintro s ⟨⟩
          simp [ofScript, Expression.ofScript, children, Script.Part.children, hn, eq_comm]
  | block span body =>
      have hn : ∀ s, ¬Added base (.block span body) s q := by rintro s ⟨⟩
      simp [ofScript, children, Script.Part.children, Statement.listOfScript_eq_map, hn]

theorem Added.children_eq (h : Added base p span q) : q.children = [] := by
  cases h <;> rfl

theorem place_ofLiteral (base : UInt32) (span : Span) (l : Script.Literal) :
    (Expression.ofLiteral base span l).place = .ofSpan base span := by
  rw [Expression.ofLiteral]
  cases l.value with
  | null => rfl
  | bool b => rfl
  | text s => rfl
  | number x => cases hx : x.isBelowZero <;> simp only [hx] <;> rfl

theorem place_ofScript : (ofScript base p).place = .ofSpan base p.span := by
  cases p with
  | program p => rfl
  | statement s => cases s <;> rw [ofScript, Statement.ofScript] <;> rfl
  | declarator d => rfl
  | identifier id => rfl
  | expression e =>
      cases e with
      | identifier id => rfl
      | literal span l =>
          rw [ofScript, Expression.ofScript]
          exact place_ofLiteral base span l
      | call span callee args optional =>
          rw [ofScript, Expression.ofScript]
          rfl
      | member span object property computed optional =>
          rw [ofScript, Expression.ofScript]
          rfl
  | block span body => rfl

theorem Added.place_eq (h : Added base p span q) : q.place = .ofSpan base span := by
  cases h <;> rfl

inductive Lowers (base : UInt32) (p : Script.Part) : Span → Part → Prop
  | part {c : Script.Part} (h : p.Holds c) : Lowers base p c.span (ofScript base c)
  | added {c : Script.Part} {span : Span} {q : Part} (h : p.Holds c) (ha : Added base c span q) : Lowers base p span q

theorem Lowers.place_eq (h : Lowers base p span q) : q.place = .ofSpan base span := by
  cases h with
  | part _ => exact place_ofScript
  | added _ ha => exact ha.place_eq

theorem holds_ofScript (h : p.Holds c) : (ofScript base p).Holds (ofScript base c) := by
  induction h with
  | refl => exact .refl
  | tail _ hc ih => exact ih.tail (mem_children_ofScript.2 (.inl ⟨_, hc, rfl⟩))

theorem holds_ofScript_iff : (ofScript base p).Holds q ↔ ∃ span, Lowers base p span q := by
  constructor
  · intro h
    induction h with
    | refl => exact ⟨_, .part .refl⟩
    | tail _ hq ih =>
        obtain ⟨span, hl⟩ := ih
        cases hl with
        | part hc =>
            rcases mem_children_ofScript.1 hq with ⟨d, hd, rfl⟩ | ⟨span, ha⟩
            · exact ⟨_, .part (hc.tail hd)⟩
            · exact ⟨span, .added hc ha⟩
        | added _ ha =>
            rw [ha.children_eq] at hq
            cases hq
  · rintro ⟨span, hl⟩
    cases hl with
    | part h => exact holds_ofScript h
    | added h ha => exact (holds_ofScript h).tail (mem_children_ofScript.2 (.inr ⟨span, ha⟩))

end

end Part

end Anchored

namespace Script

namespace Part

/-- The literal of a part spells a scalar, the object of a member is a name, and a function is a plain one. -/
def IsDrafted : Part → Prop
  | .expression (.literal _ l) => ∃ s, Literal.ofScalar s = .ok l
  | .expression (.member _ object _ _ _) => ∃ id, object = .identifier id
  | .statement (.function _ _ flags _ _ _) => flags.async = false ∧ flags.generator = false
  | _ => True

/-- A part is as drafts make it, and so are all that it holds. -/
inductive Drafted : Part → Prop
  | intro {p : Part} (here : p.IsDrafted) (children : ∀ c ∈ p.children, Drafted c) : Drafted p

theorem Drafted.of_holds {p q : Part} (h : p.Drafted) (hq : p.Holds q) : q.Drafted := by
  induction hq using Relation.ReflTransGen.head_induction_on with
  | refl => exact h
  | head hc _ ih => cases h with | intro _ children => exact ih (children _ hc)

theorem Drafted.isDrafted {p q : Part} (h : p.Drafted) (hq : p.Holds q) : q.IsDrafted := by
  cases h.of_holds hq with | intro here _ => exact here

end Part

section

variable {base : UInt32}

theorem layouts_ofScript {es : List Expression}
    (h : ∀ e ∈ es, (Anchored.Expression.ofScript base e).layout = e.render) :
    Anchored.Expression.layouts (Anchored.Expression.listOfScript base es) = Expression.renderAll es := by
  induction es with
  | nil => rw [Anchored.Expression.listOfScript, Anchored.Expression.layouts, Expression.renderAll]
  | cons e es ih =>
      obtain ⟨he, hes⟩ := List.forall_mem_cons.1 h
      rw [Anchored.Expression.listOfScript, Anchored.Expression.layouts, Expression.renderAll, he, ih hes]

theorem renderLines_ofScript {ss : List Statement}
    (h : ∀ s ∈ ss, (Anchored.Statement.ofScript base s).render = s.render) :
    Anchored.Statement.renderLines (Anchored.Statement.listOfScript base ss) = Statement.renderLines ss := by
  induction ss with
  | nil => rw [Anchored.Statement.listOfScript, Anchored.Statement.renderLines, Statement.renderLines]
  | cons s ss ih =>
      obtain ⟨hs, hss⟩ := List.forall_mem_cons.1 h
      rw [Anchored.Statement.listOfScript, Anchored.Statement.renderLines, Statement.renderLines, hs, ih hss]

theorem renderBlock_ofScript {ss : List Statement}
    (h : ∀ s ∈ ss, (Anchored.Statement.ofScript base s).render = s.render) :
    Anchored.Statement.renderBlock (Anchored.Statement.listOfScript base ss) = Statement.renderBlock ss := by
  cases ss with
  | nil => rw [Anchored.Statement.listOfScript, Anchored.Statement.renderBlock, Statement.renderBlock]
  | cons s ss =>
      obtain ⟨hs, hss⟩ := List.forall_mem_cons.1 h
      rw [Anchored.Statement.listOfScript, Anchored.Statement.renderBlock, Statement.renderBlock, hs,
        renderLines_ofScript hss]

/-- A part that is as drafts make it has the same text behind the lowering. -/
theorem Part.Drafted.render_ofScript {p : Part} (h : p.Drafted) :
    (Anchored.Part.ofScript base p).render = p.render := by
  induction h with
  | @intro p here _ ih =>
      cases p with
      | program p =>
          exact renderLines_ofScript fun s hs => ih _ (List.mem_map_of_mem hs)
      | statement s =>
          cases s with
          | declaration span ds =>
              have hds : (ds.map (Anchored.Declarator.ofScript base)).map Anchored.Declarator.layout =
                  ds.map Declarator.render := by
                rw [List.map_map]
                exact List.map_congr_left fun d hd => ih (.declarator d) (List.mem_map_of_mem hd)
              rw [Anchored.Part.ofScript, Anchored.Part.render, Anchored.Statement.ofScript, Anchored.Statement.render,
                hds]
              rfl
          | expression span e =>
              have he : (Anchored.Expression.ofScript base e).layout = e.render := ih (.expression e) (.head _)
              rw [Anchored.Part.ofScript, Anchored.Part.render, Anchored.Statement.ofScript, Anchored.Statement.render,
                he]
              rfl
          | function span id flags params block body =>
              have hb : Anchored.Statement.renderBlock (Anchored.Statement.listOfScript base body) =
                  Statement.renderBlock body := ih (.block block body) (.tail _ (.head _))
              have hps : (params.map (Anchored.Name.ofScript base)).map Anchored.Name.name =
                  params.map Identifier.name := by
                rw [List.map_map]
                rfl
              have hkey : Anchored.functionKeyword flags.async flags.generator = "function " := by
                rw [here.1, here.2]
                rfl
              rw [Anchored.Part.ofScript, Anchored.Part.render, Anchored.Statement.ofScript, Anchored.Statement.render,
                hb, hps, hkey]
              rfl
      | declarator d =>
          have hi : ∀ e ∈ d.init.toList, (Anchored.Expression.ofScript base e).layout = e.render :=
            fun e he => ih (.expression e) (.tail _ (List.mem_map_of_mem he))
          obtain ⟨span, id, init⟩ := d
          cases init with
          | none => exact String.append_empty
          | some e =>
              have he := hi e (.head _)
              rw [Anchored.Part.ofScript, Anchored.Part.render, Anchored.Declarator.ofScript,
                Anchored.Declarator.layout, Option.map_some, Option.elim_some, he, ← String.append_assoc]
              rfl
      | identifier id => rfl
      | expression e =>
          cases e with
          | identifier id => rfl
          | literal span l =>
              obtain ⟨s, hs⟩ := here
              exact layout_ofLiteral hs base span
          | call span callee args optional =>
              have hc : (Anchored.Expression.ofScript base callee).layout = callee.render :=
                ih (.expression callee) (.head _)
              have hargs : Anchored.Expression.layouts (Anchored.Expression.listOfScript base args) =
                  Expression.renderAll args :=
                layouts_ofScript fun e he => ih (.expression e) (List.mem_map_of_mem (List.mem_cons_of_mem callee he))
              rw [Anchored.Part.ofScript, Anchored.Part.render, Anchored.Expression.ofScript,
                Anchored.Expression.layout, hc, hargs, Part.render, Expression.render]
          | member span object property computed optional =>
              obtain ⟨id, rfl⟩ := here
              rfl
      | block span body => exact renderBlock_ofScript fun s hs => ih _ (List.mem_map_of_mem hs)

end

end Script

end PhpTranspiler
