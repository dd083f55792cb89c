import PhpTranspiler.Anchored.Printer
import PhpTranspiler.Proofs.Rereading
import PhpTranspiler.Proofs.ShortestDigits

namespace PhpTranspiler

namespace Text

def isSpacing (c : Char) : Bool := c == ' ' || c == '\n'

def isQuote (c : Char) : Bool := c == '"' || c == '\''

/-- A text without the blanks and the line ends that stand outside of its string literals. The literal it starts
in, if any, ends with the given quote. -/
def squeezeFrom : Option Char → List Char → List Char
  | _, [] => []
  | none, c :: cs =>
    if isSpacing c then squeezeFrom none cs else c :: squeezeFrom (if isQuote c then some c else none) cs
  | some quote, '\\' :: c :: cs => '\\' :: c :: squeezeFrom (some quote) cs
  | some quote, c :: cs => c :: squeezeFrom (if c = quote then none else some quote) cs

def squeeze (s : String) : List Char := squeezeFrom none s.toList

/-- Neither text ends inside of a literal, and without blanks they are the same. -/
def Alike (s t : String) : Prop :=
  ∀ xs ys, squeezeFrom none xs = squeezeFrom none ys →
    squeezeFrom none (s.toList ++ xs) = squeezeFrom none (t.toList ++ ys)

def IsUnquoted (s : String) : Prop := ∀ c ∈ s.toList, isQuote c = false

theorem Alike.squeeze_eq {s t : String} (h : Alike s t) : squeeze s = squeeze t := by
  have he := h [] [] rfl
  rwa [List.append_nil, List.append_nil] at he

theorem Alike.append {s s' t t' : String} (h : Alike s t) (h' : Alike s' t') : Alike (s ++ s') (t ++ t') := by
  intro xs ys he
  simp only [String.toList_append, List.append_assoc]
  exact h _ _ (h' xs ys he)

theorem squeezeFrom_unquoted {cs : List Char} (h : ∀ c ∈ cs, isQuote c = false) (rest : List Char) :
    squeezeFrom none (cs ++ rest) = cs.filter (!isSpacing ·) ++ squeezeFrom none rest := by
  induction cs with
  | nil => rfl
  | cons c cs ih =>
      obtain ⟨hc, hcs⟩ := List.forall_mem_cons.1 h
      rw [List.cons_append, squeezeFrom, ih hcs, hc]
      by_cases hb : isSpacing c
      · rw [if_pos hb, List.filter_cons_of_neg (by simp [hb])]
      · rw [if_neg hb, if_neg Bool.false_ne_true, ih hcs, List.filter_cons_of_pos (by simp [hb]), List.cons_append]

theorem alike_of_unquoted {s t : String} (hs : IsUnquoted s) (ht : IsUnquoted t)
    (h : s.toList.filter (!isSpacing ·) = t.toList.filter (!isSpacing ·)) : Alike s t := by
  intro xs ys he
  rw [squeezeFrom_unquoted hs, squeezeFrom_unquoted ht, h, he]

theorem IsUnquoted.alike {s : String} (h : IsUnquoted s) : Alike s s := alike_of_unquoted h h rfl

theorem alike_blanks (n : Nat) : Alike (String.ofList (List.replicate n ' ')) "" := by
  apply alike_of_unquoted
  · intro c hc
    rw [String.toList_ofList] at hc
    rw [List.eq_of_mem_replicate hc]
    decide
  · simp [IsUnquoted]
  · simp [isSpacing]

theorem alike_commaList {xs ys : List String} (h : List.Forall₂ Alike xs ys) : Alike (commaList xs) (commaList ys) := by
  induction h with
  | nil => exact fun _ _ he => he
  | @cons x y xs ys hx hxs ih =>
      cases hxs with
      | nil => exact hx
      | cons => exact (hx.append (IsUnquoted.alike (by simp [IsUnquoted, isQuote]))).append ih

theorem squeezeFrom_enclosable {body : List Char} (h : Lexer.Enclosable '"' body) (rest : List Char) :
    squeezeFrom (some '"') (body ++ '"' :: rest) = body ++ '"' :: squeezeFrom none rest := by
  induction h with
  | nil => rw [List.nil_append, squeezeFrom, if_pos rfl, List.nil_append]; simp
  | escaped c _ ih => rw [List.cons_append, List.cons_append, squeezeFrom, ih]; rfl
  | @plain c cs hb hq _ ih =>
      rw [List.cons_append, squeezeFrom, if_neg hq, ih]
      · rfl
      · intro d ds hc
        exact absurd hc hb

theorem alike_quote (s : String) : Alike (Script.quote s) (Script.quote s) := by
  intro xs ys he
  have hq (rest : List Char) : squeezeFrom none ((Script.quote s).toList ++ rest) =
      '"' :: s.toList.flatMap Script.escape ++ '"' :: squeezeFrom none rest := by
    have hb := squeezeFrom_enclosable (Script.enclosable_escapes s.toList) rest
    simp [Script.quote, squeezeFrom, isSpacing, isQuote, hb]
  rw [hq, hq, he]

end Text

namespace Anchored

/-- The point in front of a property. A number that would take it for its own has another one. -/
def Expression.point : Expression → String
  | .number _ _ raw => if takesPoint raw then ".." else "."
  | _ => "."

mutual

def Expression.layout : Expression → String
  | .name n => n.name
  | .null _ => "null"
  | .bool _ true => "true"
  | .bool _ false => "false"
  | .number _ _ raw => raw
  | .text _ _ raw => raw
  | .minus _ operand => "-" ++ operand.layout
  | .call _ callee args => callee.layout ++ "(" ++ Text.commaList (Expression.layouts args) ++ ")"
  | .member _ object property => object.layout ++ object.point ++ property.name

def Expression.layouts : List Expression → List String
  | [] => []
  | e :: es => e.layout :: Expression.layouts es

end

def Declarator.layout (d : Declarator) : String :=
  d.name.name ++ d.init.elim "" fun e => " = " ++ e.layout

mutual

def Statement.layout (depth : Nat) : Statement → String
  | .declaration _ ds => indent depth ++ "var " ++ Text.commaList (ds.map Declarator.layout) ++ ";" ++ "\n"
  | .expression _ e => indent depth ++ e.layout ++ ";" ++ "\n"
  | .function _ name async generator params _ body =>
    indent depth ++ functionKeyword async generator ++ name.name ++ "(" ++ Text.commaList (params.map Name.name) ++ ") " ++
      (if body.isEmpty then "\x7b\x7d" else "\x7b\n" ++ Statement.layouts (depth + 1) body ++ indent depth ++ "\x7d") ++ "\n"

def Statement.layouts (depth : Nat) : List Statement → String
  | [] => ""
  | s :: ss => s.layout depth ++ Statement.layouts depth ss

end

/-- A module one statement a line, with four blanks a level and nothing between its nodes but what separates them. -/
def Module.layout (m : Module) : String := Statement.layouts 0 m.body

end Anchored

namespace Script

theorem isDigit_or_of_mem_magnitudeText {rank : Nat} : ∀ c ∈ magnitudeText rank, c.isDigit ∨ c = '.' := by
  intro c hc
  rw [magnitudeText_eq] at hc
  cases hf : (Binary64.integer? rank).filter (· < 1000000000000000) with
  | some n =>
      simp only [hf] at hc
      exact .inl (Digits.isDigit_toDigits c hc)
  | none =>
      simp only [hf] at hc
      exact Decimal.isDigit_or_of_mem_positional c hc

theorem isUnquoted_numberText (x : Binary64) : Text.IsUnquoted (numberText x) := by
  have hm : ∀ c ∈ magnitudeText x.rank, Text.isQuote c = false := by
    intro c hc
    rcases isDigit_or_of_mem_magnitudeText c hc with hd | rfl
    · by_contra hq
      simp only [Text.isQuote, Bool.not_eq_false, Bool.or_eq_true, beq_iff_eq] at hq
      rcases hq with rfl | rfl <;> cases hd
    · rfl
  intro c hc
  rw [numberText, String.toList_ofList, List.mem_append] at hc
  rcases hc with hc | hc
  · split at hc
    · rw [List.mem_singleton.1 hc]
      rfl
    · cases hc
  · exact hm c hc

theorem dropWhile_magnitudeText (rank : Nat) : (magnitudeText rank).dropWhile (· == '-') = magnitudeText rank := by
  cases hm : magnitudeText rank with
  | nil => rfl
  | cons c cs =>
      apply List.dropWhile_cons_of_neg
      intro hc
      have hd := isDigit_or_of_mem_magnitudeText c (hm ▸ List.mem_cons_self)
      rw [beq_iff_eq.1 hc] at hd
      rcases hd with hd | hd <;> cases hd

theorem layout_ofLiteral {s : Scalar} {l : Literal} (h : Literal.ofScalar s = .ok l) (base : UInt32) (span : Span) :
    (Anchored.Expression.ofLiteral base span l).layout = l.raw := by
  cases s with
  | text s =>
      cases h
      rfl
  | number numeral =>
      rw [Literal.ofScalar] at h
      split at h
      · rename_i x hx
        cases h
        rw [Anchored.Expression.ofLiteral]
        simp only
        by_cases hb : x.isBelowZero
        · rw [if_pos hb, Anchored.Expression.layout, Anchored.Expression.layout, numberText, if_pos hb,
            String.toList_ofList, List.singleton_append, List.dropWhile_cons_of_pos rfl, dropWhile_magnitudeText,
            ← String.toList_inj]
          simp
        · rw [if_neg hb, Anchored.Expression.layout]
      · cases h
  | bool b => cases b <;> cases h <;> rfl
  | null =>
      cases h
      rfl

theorem alike_raw {s : Scalar} {l : Literal} (h : Literal.ofScalar s = .ok l) : Text.Alike l.raw l.raw := by
  cases s with
  | text s =>
      cases h
      exact Text.alike_quote s
  | number numeral =>
      rw [Literal.ofScalar] at h
      split at h
      · cases h
        exact (isUnquoted_numberText _).alike
      · cases h
  | bool b =>
      apply Text.IsUnquoted.alike
      cases b <;> cases h <;> simp [Text.IsUnquoted, Text.isQuote]
  | null =>
      apply Text.IsUnquoted.alike
      cases h
      simp [Text.IsUnquoted, Text.isQuote]

inductive Argument.Made (p : String → Prop) : Argument → Prop
  | variable {name : String} (h : p name) : Made p (.variable name)
  | literal {s : Scalar} {l : Literal} (h : Literal.ofScalar s = .ok l) : Made p (.literal l)

inductive Callee.Made (p : String → Prop) : Callee → Prop
  | plain {name : String} (h : p name) : Made p (.plain name)
  | member {object property : String} (ho : p object) (hp : p property) : Made p (.member object property)

inductive Draft.Made (p : String → Prop) : Draft → Prop
  | variable {name : String} {s : Scalar} {l : Literal} (hn : p name) (hl : Literal.ofScalar s = .ok l) :
      Made p (.variable name l)
  | call {c : Call} (hc : c.callee.Made p) (ha : ∀ a ∈ c.args, a.Made p) : Made p (.call c)
  | function {name : String} {params : List String} {body : List Draft} (hn : p name)
      (hp : ∀ q ∈ params, p q) (hb : ∀ d ∈ body, Made p d) : Made p (.function name params body)

section Layout

variable (base : UInt32)

theorem alike_layout_argument {a : Argument} (h : a.Made Text.IsUnquoted) (start : Nat) :
    Text.Alike (Anchored.Expression.ofScript base (Draft.argument start a)).layout a.text := by
  cases h with
  | «variable» hn =>
      rw [Draft.argument, Anchored.Expression.ofScript, Anchored.Expression.layout]
      exact hn.alike
  | literal hl =>
      rw [Draft.argument, Anchored.Expression.ofScript, layout_ofLiteral hl]
      exact alike_raw hl

theorem alike_layouts_arguments {args : List Argument} (h : ∀ a ∈ args, a.Made Text.IsUnquoted) (start : Nat) :
    List.Forall₂ Text.Alike
      (Anchored.Expression.layouts (Anchored.Expression.listOfScript base (Draft.arguments start args)))
      (args.map Argument.text) := by
  induction args generalizing start with
  | nil => exact .nil
  | cons a args ih =>
      obtain ⟨ha, hargs⟩ := List.forall_mem_cons.1 h
      exact .cons (alike_layout_argument base ha start) (ih hargs _)

theorem alike_layout_callee {c : Callee} (h : c.Made Text.IsUnquoted) (start : Nat) :
    Text.Alike (Anchored.Expression.ofScript base (Draft.callee start c)).layout c.text := by
  cases h with
  | plain hn => exact hn.alike
  | member ho hp =>
      have hpoint : Text.IsUnquoted "." := by simp [Text.IsUnquoted, Text.isQuote]
      exact (ho.alike.append hpoint.alike).append hp.alike

theorem alike_indent (depth : Nat) {s t : String} (h : Text.Alike s t) : Text.Alike (Anchored.indent depth ++ s) t := by
  have hi := (Text.alike_blanks (4 * depth)).append h
  rwa [String.empty_append] at hi

theorem alike_layouts {ds : List Draft} {depth : Nat}
    (h : ∀ d ∈ ds, ∀ start,
      Text.Alike ((Anchored.Statement.ofScript base (d.node start)).layout depth) (d.text ++ "\n")) (start : Nat) :
    Text.Alike (Anchored.Statement.layouts depth (Anchored.Statement.listOfScript base (Draft.nodes start ds)))
      (Draft.lines ds) := by
  induction ds generalizing start with
  | nil =>
      rw [Draft.nodes, Draft.lines, Anchored.Statement.listOfScript, Anchored.Statement.layouts]
      exact fun _ _ he => he
  | cons d ds ih =>
      obtain ⟨hd, hds⟩ := List.forall_mem_cons.1 h
      rw [Draft.nodes, Draft.lines, Anchored.Statement.listOfScript, Anchored.Statement.layouts]
      exact (hd start).append (ih hds _)

theorem map_name_params (start : Nat) (params : List String) :
    ((Draft.params start params).map (Anchored.Name.ofScript base)).map Anchored.Name.name = params := by
  rw [List.map_map]
  exact Draft.params_name start params

theorem isEmpty_listOfScript (start : Nat) (ds : List Draft) :
    (Anchored.Statement.listOfScript base (Draft.nodes start ds)).isEmpty = ds.isEmpty := by
  cases ds with
  | nil =>
      rw [Draft.nodes, Anchored.Statement.listOfScript]
      rfl
  | cons d ds => rw [Draft.nodes, Anchored.Statement.listOfScript, List.isEmpty_cons, List.isEmpty_cons]

theorem alike_fixed :
    ∀ s ∈ ["var ", " = ", ";", "(", ")", ") ", "\n", "function ", "\x7b\n", "\x7d"], Text.Alike s s := by
  intro s hs
  apply Text.IsUnquoted.alike
  revert s
  simp [Text.IsUnquoted, Text.isQuote]

theorem alike_layout_variable {name : String} {s : Scalar} {l : Literal} (hn : Text.IsUnquoted name)
    (hl : Literal.ofScalar s = .ok l) (start depth : Nat) :
    Text.Alike ((Anchored.Statement.ofScript base (Draft.node start (.variable name l))).layout depth)
      (Draft.text (.variable name l) ++ "\n") := by
  rw [Draft.node, Draft.text, Anchored.Statement.ofScript, Anchored.Statement.layout]
  simp only [List.map_cons, List.map_nil, Text.commaList, Anchored.Declarator.ofScript, Anchored.Declarator.layout,
    Option.map_some, Option.elim_some, Anchored.Expression.ofScript, layout_ofLiteral hl, Anchored.Name.ofScript,
    Identifier.at, String.append_assoc]
  apply alike_indent
  apply (alike_fixed "var " (by simp)).append
  apply hn.alike.append
  apply (alike_fixed " = " (by simp)).append
  apply (alike_raw hl).append
  exact (alike_fixed ";" (by simp)).append (alike_fixed "\n" (by simp))

theorem alike_layout_call {c : Call} (hc : c.callee.Made Text.IsUnquoted) (ha : ∀ a ∈ c.args, a.Made Text.IsUnquoted)
    (start depth : Nat) :
    Text.Alike ((Anchored.Statement.ofScript base (Draft.node start (.call c))).layout depth)
      (Draft.text (.call c) ++ "\n") := by
  have hargs := Text.alike_commaList (alike_layouts_arguments base ha (start + c.callee.text.utf8ByteSize + 1))
  have hs : (");" : String) = ")" ++ ";" := rfl
  rw [Draft.node, Draft.text, Anchored.Statement.ofScript, Anchored.Statement.layout, Anchored.Expression.ofScript,
    Anchored.Expression.layout, hs]
  simp only [String.append_assoc]
  apply alike_indent
  apply (alike_layout_callee base hc start).append
  apply (alike_fixed "(" (by simp)).append
  apply hargs.append
  apply (alike_fixed ")" (by simp)).append
  exact (alike_fixed ";" (by simp)).append (alike_fixed "\n" (by simp))

theorem alike_layout_function {name : String} {params : List String} {body : List Draft} {depth : Nat}
    (hn : Text.IsUnquoted name) (hp : ∀ q ∈ params, Text.IsUnquoted q)
    (hb : ∀ d ∈ body, ∀ start, Text.Alike ((Anchored.Statement.ofScript base (d.node start)).layout (depth + 1))
      (d.text ++ "\n")) (start : Nat) :
    Text.Alike ((Anchored.Statement.ofScript base (Draft.node start (.function name params body))).layout depth)
      (Draft.text (.function name params body) ++ "\n") := by
  have hparams : Text.Alike (Text.commaList params) (Text.commaList params) := by
    apply Text.alike_commaList
    rw [List.forall₂_same]
    exact fun q hq => (hp q hq).alike
  rw [Draft.node, Draft.text, Anchored.Statement.ofScript, Anchored.Statement.layout, map_name_params,
    isEmpty_listOfScript]
  simp only [Anchored.functionKeyword, Bool.false_eq_true, if_false, String.empty_append, String.append_assoc,
    Anchored.Name.ofScript, Identifier.at]
  apply alike_indent
  apply (alike_fixed "function " (by simp)).append
  apply hn.alike.append
  apply (alike_fixed "(" (by simp)).append
  apply hparams.append
  apply (alike_fixed ") " (by simp)).append
  apply Text.Alike.append _ (alike_fixed "\n" (by simp))
  by_cases he : body.isEmpty
  · rw [if_pos he, if_pos he]
    apply Text.alike_of_unquoted
    all_goals simp [Text.IsUnquoted, Text.isQuote, Text.isSpacing]
  · rw [if_neg he, if_neg he]
    apply (alike_fixed "\x7b\n" (by simp)).append
    apply (alike_layouts base hb _).append
    exact alike_indent depth (alike_fixed "\x7d" (by simp))

theorem alike_layout {d : Draft} (h : d.Made Text.IsUnquoted) (start depth : Nat) :
    Text.Alike ((Anchored.Statement.ofScript base (d.node start)).layout depth) (d.text ++ "\n") := by
  induction h generalizing start depth with
  | «variable» hn hl => exact alike_layout_variable base hn hl start depth
  | call hc ha => exact alike_layout_call base hc ha start depth
  | function hn hp hb ih =>
      exact alike_layout_function base hn hp (fun d hd start => ih d hd start (depth + 1)) start

end Layout

end Script

end PhpTranspiler
