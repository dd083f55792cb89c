import Mathlib.Logic.Relation
import PhpTranspiler.Proofs.Placement
import PhpTranspiler.Script.Tree

namespace PhpTranspiler.Script

mutual

def Expression.render : Expression → String
  | .identifier id => id.name
  | .literal _ l => l.raw
  | .call _ callee arguments _ =>
    callee.render ++ "(" ++ Text.commaList (Expression.renderAll arguments) ++ ")"
  | .member _ object property _ _ => object.render ++ "." ++ property.name

def Expression.renderAll : List Expression → List String
  | [] => []
  | e :: es => e.render :: Expression.renderAll es

end

def Declarator.render (d : Declarator) : String :=
  match d.init with
  | none => d.id.name
  | some e => d.id.name ++ " = " ++ e.render

mutual

def Statement.render : Statement → String
  | .declaration _ declarators => "var " ++ Text.commaList (declarators.map Declarator.render) ++ ";"
  | .expression _ e => e.render ++ ";"
  | .function _ id _ params _ body =>
    "function " ++ id.name ++ "(" ++ Text.commaList (params.map Identifier.name) ++ ") " ++
      Statement.renderBlock body

def Statement.renderBlock : List Statement → String
  | [] => "\x7b \x7d"
  | s :: body => "\x7b\n" ++ (s.render ++ "\n" ++ Statement.renderLines body) ++ "\x7d"

def Statement.renderLines : List Statement → String
  | [] => ""
  | s :: body => s.render ++ "\n" ++ Statement.renderLines body

end

theorem Statement.renderBlock_eq (body : List Statement) :
    Statement.renderBlock body =
      if body.isEmpty then "\x7b \x7d" else "\x7b\n" ++ Statement.renderLines body ++ "\x7d" := by
  cases body with
  | nil => rfl
  | cons s body => simp [Statement.renderBlock, Statement.renderLines]

/-- A node of a script. Parameters are no parts: their places do not follow the text. -/
inductive Part
  | program (p : Program)
  | statement (s : Statement)
  | declarator (d : Declarator)
  | identifier (id : Identifier)
  | expression (e : Expression)
  | block (span : Span) (body : List Statement)

namespace Part

def span : Part → Span
  | .program p => p.span
  | .statement s => s.span
  | .declarator d => d.span
  | .identifier id => id.span
  | .expression e => e.span
  | .block span _ => span

def render : Part → String
  | .program p => Statement.renderLines p.body
  | .statement s => s.render
  | .declarator d => d.render
  | .identifier id => id.name
  | .expression e => e.render
  | .block _ body => Statement.renderBlock body

def children : Part → List Part
  | .program p => p.body.map .statement
  | .statement (.declaration _ declarators) => declarators.map .declarator
  | .statement (.expression _ e) => [.expression e]
  | .statement (.function _ id _ _ place body) => [.identifier id, .block place body]
  | .declarator d => .identifier d.id :: d.init.toList.map .expression
  | .identifier _ => []
  | .expression (.identifier _) => []
  | .expression (.literal _ _) => []
  | .expression (.call _ callee arguments _) => (callee :: arguments).map .expression
  | .expression (.member _ object property _ _) => [.expression object, .identifier property]
  | .block _ body => body.map .statement

def Holds (p q : Part) : Prop := Relation.ReflTransGen (fun p q => q ∈ p.children) p q

/-- Each parameter of a function stands inside it, one byte behind the place of the one before, and
the first one right behind the opening parenthesis. -/
def ParamsFit (text : String) : Part → Prop
  | .statement (.function span id _ params _ _) =>
    Text.StandsAt text ⟨id.span.stop, id.span.stop + 1⟩ "(" ∧
    ∀ (i : Nat) (p : Identifier), params[i]? = some p →
      p.span = ⟨id.span.stop + 1 + i, id.span.stop + 1 + i + p.name.utf8ByteSize⟩ ∧
      span.start ≤ p.span.start ∧ p.span.stop ≤ span.stop
  | _ => True

/-- A part stands in `text` where its span says, and the parts that it is made of lie inside it, in
order and apart from each other. -/
structure Fits (text : String) (p : Part) : Prop where
  rendered : Text.StandsAt text p.span p.render
  inside : ∀ c ∈ p.children, p.span.start ≤ c.span.start ∧ c.span.stop ≤ p.span.stop
  apart : p.children.Pairwise fun a b => a.span.stop ≤ b.span.start
  params : p.ParamsFit text

inductive Sound (text : String) : Part → Prop
  | intro {p : Part} (fits : p.Fits text) (children : ∀ c ∈ p.children, Sound text c) : Sound text p

theorem Sound.fits {text : String} {p q : Part} (h : p.Sound text) (hq : p.Holds q) : q.Fits text := by
  induction hq using Relation.ReflTransGen.head_induction_on with
  | refl => cases h with | intro fits _ => exact fits
  | head hc _ ih => cases h with | intro _ children => exact ih (children _ hc)

def InOrder (lo hi : Nat) : List Part → Prop
  | [] => lo ≤ hi
  | p :: ps => lo ≤ p.span.start ∧ p.span.start ≤ p.span.stop ∧ InOrder p.span.stop hi ps

theorem InOrder.le {lo hi : Nat} {ps : List Part} (h : InOrder lo hi ps) : lo ≤ hi := by
  induction ps generalizing lo with
  | nil => exact h
  | cons p ps ih =>
      have hp := ih h.2.2
      have hl := h.1
      have hs := h.2.1
      omega

theorem InOrder.mem {lo hi : Nat} {ps : List Part} (h : InOrder lo hi ps) :
    ∀ p ∈ ps, lo ≤ p.span.start ∧ p.span.stop ≤ hi := by
  induction ps generalizing lo with
  | nil => simp
  | cons p ps ih =>
      obtain ⟨hl, hs, ht⟩ := h
      intro q hq
      rcases List.mem_cons.1 hq with rfl | hq
      · exact ⟨hl, ht.le⟩
      · have hm := ih ht q hq
        exact ⟨by omega, hm.2⟩

theorem InOrder.pairwise {lo hi : Nat} {ps : List Part} (h : InOrder lo hi ps) :
    ps.Pairwise fun a b => a.span.stop ≤ b.span.start := by
  induction ps generalizing lo with
  | nil => exact .nil
  | cons p ps ih => exact .cons (fun q hq => (h.2.2.mem q hq).1) (ih h.2.2)

theorem InOrder.mono {lo lo' hi hi' : Nat} {ps : List Part} (h : InOrder lo hi ps) (hl : lo' ≤ lo)
    (hh : hi ≤ hi') : InOrder lo' hi' ps := by
  induction ps generalizing lo lo' with
  | nil => exact Nat.le_trans hl (Nat.le_trans h hh)
  | cons p ps ih => exact ⟨Nat.le_trans hl h.1, h.2.1, ih h.2.2 (Nat.le_refl _)⟩

theorem Sound.of_place {text part : String} {span : Span} {p : Part} (h : Text.StandsAt text span part)
    (hs : p.span = span) (hr : p.render = part) (ho : InOrder span.start span.stop p.children)
    (hp : p.ParamsFit text) (hc : ∀ c ∈ p.children, Sound text c) : Sound text p := by
  subst hs hr
  exact .intro ⟨h, ho.mem, ho.pairwise, hp⟩ hc

theorem Sound.leaf {text part : String} {span : Span} {p : Part} (h : Text.StandsAt text span part)
    (hs : p.span = span) (hr : p.render = part) (hc : p.children = []) (hp : p.ParamsFit text) :
    Sound text p := by
  apply Sound.of_place h hs hr
  · rw [hc, h.span_eq]
    exact Nat.le_add_right _ _
  · exact hp
  · simp [hc]

end Part

end PhpTranspiler.Script
