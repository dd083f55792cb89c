import PhpTranspiler.Proofs.Indexed.Arguments
import PhpTranspiler.Proofs.Indexed.Reading
import PhpTranspiler.Proofs.Accounting

namespace PhpTranspiler.Indexed

open Script

def declare (name : String) (value : Scalar) : Except Trap (Except Refusal Draft) :=
  match checkName name with
  | .error r => return .error r
  | .ok _ => do return (← literal value).map (Draft.variable name)

def mapped (name : String) (args : List Argument) : Except Refusal Call :=
  match Builtin.ofName? name with
  | some .log => if args.length = 1 then .ok ⟨Call.log, args⟩ else .error (.arity name args.length)
  | some (.math property) => .ok ⟨.member "Math" property, args⟩
  | none => .ok ⟨.plain name, args⟩

def invoke (callee args : String) : Except Trap (Except Refusal Draft) := do
  return ((← arguments args).bind (mapped callee)).bind fun c =>
    (Transpile.checkNames c.names).map fun _ => .call c

mutual

def lower (mode : Mode) : Item → Except Trap (Except Fault (Option Draft × List Diagnostic))
  | .assignment place name value => do return .ok (Transpile.settle place (← declare name value))
  | .call place callee args => do return .ok (Transpile.settle place (← invoke callee args))
  | .function place name params _ items =>
    match Transpile.checkNames (name :: params) with
    | .error r => return .ok (none, [.ofRefusal place r])
    | .ok _ => do
      return (← lowerAll mode items).map fun (body, ds) => (some (.function name params body), ds)
  | .fault f => return (Transpile.report mode f).map fun ds => (none, ds)

def lowerAll (mode : Mode) : List Item → Except Trap (Except Fault (List Draft × List Diagnostic))
  | [] => return .ok ([], [])
  | item :: items => do
    match ← lower mode item with
    | .error f => return .error f
    | .ok (draft, ds) =>
      return (← lowerAll mode items).map fun (drafts, rest) => (draft.toList ++ drafts, ds ++ rest)

end

mutual

/-- The node of a statement whose text stands at `start`, and the text. What ends before the semicolon ends one byte
before the text does. -/
def build (start : Nat) : Draft → Except Trap (Statement × String)
  | .variable name value => do
    let text := "var " ++ name ++ " = " ++ value.raw ++ ";"
    let stop := start + text.utf8ByteSize
    let id := Identifier.at (start + 4) name
    let last ← minus stop 1
    return (.declaration ⟨start, stop⟩
      [⟨⟨id.span.start, last⟩, id, some (.literal ⟨id.span.stop + 3, last⟩ value)⟩], text)
  | .call c => do
    let text := c.callee.text ++ "(" ++ Text.commaList (c.args.map Argument.text) ++ ");"
    let stop := start + text.utf8ByteSize
    let args := Draft.arguments (start + c.callee.text.utf8ByteSize + 1) c.args
    return (.expression ⟨start, stop⟩ (.call ⟨start, ← minus stop 1⟩ (Draft.callee start c.callee) args false), text)
  | .function name params body => do
    let header := "function " ++ name ++ "(" ++ Text.commaList params ++ ") "
    let id := Identifier.at (start + 9) name
    let block := start + header.utf8ByteSize
    let (nodes, lines) ← buildAll (block + 2) body
    let text := header ++ (if body.isEmpty then "\x7b \x7d" else "\x7b\n" ++ lines ++ "\x7d")
    let stop := start + text.utf8ByteSize
    return (.function ⟨start, stop⟩ id ⟨false, false, false⟩ (Draft.params (id.span.stop + 1) params)
      ⟨block, stop⟩ nodes, text)

def buildAll (start : Nat) : List Draft → Except Trap (List Statement × String)
  | [] => return ([], "")
  | d :: ds => do
    let (node, text) ← build start d
    let (nodes, lines) ← buildAll (start + text.utf8ByteSize + 1) ds
    return (node :: nodes, text ++ "\n" ++ lines)

end

def append (p : Page) (d : Draft) : Except Trap Page := do
  let (node, text) ← build p.cursor d
  return ⟨p.body ++ [node], p.text ++ text ++ "\n"⟩

def exhausted (source : String) (consumed : Nat) : Except Trap Bool := do
  return Text.trim (← cut source consumed source.utf8ByteSize) = ""

/-- Where the source is dealt with up to, behind a statement that must not start before `consumed`. -/
def consume (consumed : Nat) (span : Span) : Except Trap Nat :=
  if consumed ≤ span.start then return max span.stop consumed else .error .overlap

def take (mode : Mode) (r : Run) (item : Item) : Except Trap (Except Fault Run) := do
  let consumed ← consume r.consumed item.span
  match ← lower mode item with
  | .error f => return .error f
  | .ok (draft, ds) =>
    let page ← draft.elim (pure r.page) (append r.page)
    return .ok ⟨page, r.diagnostics ++ ds, r.summary.count draft, consumed⟩

def through (mode : Mode) (source : String) (r : Run) : List Item → Except Trap (Except Fault Run)
  | [] => do
    let _ ← exhausted source r.consumed
    return .ok r
  | item :: items => do
    if ← exhausted source r.consumed then return .ok r
    else match ← take mode r item with
      | .error f => return .error f
      | .ok r => through mode source r items

def transpile (mode : Mode) (source : String) : Except Trap (Except Fault Transpiled) := do
  return (← through mode source .start (← scan source)).map fun r =>
    ⟨r.page.program, r.page.text, r.diagnostics, r.summary⟩

theorem declare_eq (name : String) (value : Scalar) : declare name value = .ok (Transpile.declare name value) := by
  rw [declare, Transpile.declare, literal_eq]
  cases checkName name <;> rfl

theorem invoke_eq (callee args : String) : invoke callee args = .ok (Transpile.invoke callee args) := by
  rw [invoke, arguments_eq]
  rfl

mutual

theorem lower_eq (mode : Mode) (item : Item) : lower mode item = .ok (Transpile.lower mode item) := by
  cases item with
  | assignment place name value =>
      rw [lower, declare_eq]
      rfl
  | call place callee args =>
      rw [lower, invoke_eq]
      rfl
  | function place name params body items =>
      rw [lower, Transpile.lower, lowerAll_eq mode items]
      cases Transpile.checkNames (name :: params) <;> rfl
  | fault f => rfl

theorem lowerAll_eq (mode : Mode) (items : List Item) :
    lowerAll mode items = .ok (Transpile.lowerAll mode items) := by
  cases items with
  | nil => rfl
  | cons item items =>
      rw [lowerAll, Transpile.lowerAll, lower_eq mode item, lowerAll_eq mode items, ok_bind]
      cases Transpile.lower mode item <;> rfl

end

theorem build_variable (start : Nat) (name : String) (value : Literal) :
    build start (.variable name value) =
      .ok ((Draft.variable name value).node start, (Draft.variable name value).text) := by
  have hstop : start + ("var " ++ name ++ " = " ++ value.raw ++ ";").utf8ByteSize =
      start + 4 + name.utf8ByteSize + 3 + value.raw.utf8ByteSize + 1 := by
    simp only [String.utf8ByteSize_append, ← Nat.add_assoc]
    rfl
  simp only [build, hstop, minus_of_le (Nat.le_add_left 1 _), ok_bind, Nat.add_sub_cancel]
  rfl

theorem build_call (start : Nat) (c : Call) :
    build start (.call c) = .ok ((Draft.call c).node start, (Draft.call c).text) := by
  have hstop : start + (c.callee.text ++ "(" ++ Text.commaList (c.args.map Argument.text) ++ ");").utf8ByteSize =
      start + c.callee.text.utf8ByteSize + 1 + (Text.commaList (c.args.map Argument.text)).utf8ByteSize + 1 + 1 := by
    simp only [String.utf8ByteSize_append, ← Nat.add_assoc]
    rfl
  simp only [build, hstop, minus_of_le (Nat.le_add_left 1 _), ok_bind, Nat.add_sub_cancel]
  rfl

mutual

theorem build_eq (start : Nat) (d : Draft) : build start d = .ok (d.node start, d.text) := by
  match d with
  | .variable name value => exact build_variable start name value
  | .call c => exact build_call start c
  | .function name params body =>
      have hblock : start + ("function " ++ name ++ "(" ++ Text.commaList params ++ ") ").utf8ByteSize =
          start + 9 + name.utf8ByteSize + 1 + (Text.commaList params).utf8ByteSize + 2 := by
        simp only [String.utf8ByteSize_append, ← Nat.add_assoc]
        rfl
      simp only [build, hblock, buildAll_eq _ body, ok_bind]
      rfl

theorem buildAll_eq (start : Nat) (ds : List Draft) :
    buildAll start ds = .ok (Draft.nodes start ds, Draft.lines ds) := by
  cases ds with
  | nil => rfl
  | cons d ds =>
      simp only [buildAll, build_eq start d, ok_bind, buildAll_eq _ ds]
      rfl

end

theorem append_eq (p : Page) (d : Draft) : append p d = .ok (p.append d) := by
  rw [append, build_eq]
  rfl

theorem trim_eq_empty_iff (s : String) : Text.trim s = "" ↔ ∀ c ∈ s.toList, Text.isBlank c := by
  have hends : Text.trim s = "" ↔ ∀ c ∈ s.toList.dropWhile Text.isBlank, Text.isBlank c := by
    rw [← String.toList_inj, Text.trim, String.toList_ofList, Text.trimEnd, Text.trimStart, String.toList_empty,
      List.reverse_eq_nil_iff, List.dropWhile_eq_nil_iff]
    simp only [List.mem_reverse]
  rw [hends]
  constructor
  · intro h c hc
    rw [← List.takeWhile_append_dropWhile (p := Text.isBlank) (l := s.toList), List.mem_append] at hc
    rcases hc with hc | hc
    · exact List.all_eq_true.1 List.all_takeWhile c hc
    · exact h c hc
  · intro h c hc
    exact h c ((List.dropWhile_suffix Text.isBlank).subset hc)

theorem inkEnd_le {source : String} {before after : List Char} (h : source.toList = before ++ after)
    (hb : ∀ c ∈ after, Text.isBlank c) : Text.inkEnd source ≤ Text.size before := by
  have hdrop : after.reverse.dropWhile Text.isBlank = [] :=
    List.dropWhile_eq_nil_iff.2 fun c hc => hb c (List.mem_reverse.1 hc)
  obtain ⟨blanks, hcs, -⟩ := Text.trimEnd_append_blanks before
  have he : Text.trimEnd source.toList = Text.trimEnd before := by
    rw [Text.trimEnd, h, List.reverse_append, List.dropWhile_append, hdrop]
    rfl
  have hsize := congrArg Text.size hcs
  rw [Text.size_append] at hsize
  rw [Text.inkEnd, he]
  omega

theorem exhausted_eq {source after : String} {consumed : Nat}
    (h : Text.StandsAt source ⟨consumed, source.utf8ByteSize⟩ after) :
    exhausted source consumed = .ok (decide (¬consumed < Text.inkEnd source)) := by
  have hiff : Text.trim after = "" ↔ ¬consumed < Text.inkEnd source := by
    rw [trim_eq_empty_iff, Nat.not_lt]
    constructor
    · intro hb
      obtain ⟨before, behind, hs, hspan⟩ := h
      have hsize := congrArg String.utf8ByteSize hs
      simp only [Span.mk.injEq, String.utf8ByteSize_append] at hspan hsize
      have hnil : behind = "" := String.utf8ByteSize_eq_zero_iff.1 (by omega)
      have hl : source.toList = before.toList ++ after.toList := by rw [hs, hnil]; simp
      have hle := inkEnd_le hl hb
      rwa [Text.size_toList, ← hspan.1] at hle
    · exact h.isBlank_of_inkEnd_le
  rw [exhausted, cut_of_standsAt h, ok_bind, pure_ok]
  exact congrArg Except.ok (decide_eq_decide.2 hiff)

def IsCut (source : String) (i : Nat) : Prop := ∃ after, Text.StandsAt source ⟨i, source.utf8ByteSize⟩ after

theorem isCut_stop {source part : String} {span : Span} (h : Text.StandsAt source span part) :
    IsCut source span.stop := by
  obtain ⟨before, after, rfl, rfl⟩ := h
  exact ⟨after, before ++ part, "", by simp, by simp⟩

/-- Items that start, one after the other, behind what is dealt with before them. -/
inductive InTurn (source : String) : Nat → List Item → Prop
  | nil {consumed : Nat} (hc : IsCut source consumed) : InTurn source consumed []
  | cons {consumed : Nat} {item : Item} {items : List Item} (hc : IsCut source consumed)
      (hle : consumed ≤ item.span.start) (hs : InTurn source (max item.span.stop consumed) items) :
      InTurn source consumed (item :: items)

theorem take_eq {mode : Mode} {r : Run} {item : Item} (h : r.consumed ≤ item.span.start) :
    take mode r item = .ok (r.take mode item) := by
  have hc : consume r.consumed item.span = .ok (max item.span.stop r.consumed) := if_pos h
  rw [take, hc, ok_bind, lower_eq, ok_bind, Run.take]
  cases Transpile.lower mode item with
  | error f => rfl
  | ok lowered =>
      obtain ⟨draft, ds⟩ := lowered
      cases draft with
      | none => rfl
      | some d =>
          simp only [Option.elim_some, append_eq, ok_bind]
          rfl

theorem take_consumed {mode : Mode} {r s : Run} {item : Item} (h : r.take mode item = .ok s) :
    s.consumed = max item.span.stop r.consumed := by
  cases hl : Transpile.lower mode item with
  | error f => simp [Run.take, hl, Except.map] at h
  | ok lowered =>
      rw [r.take_of_lower hl] at h
      cases h
      rfl

theorem through_eq {mode : Mode} {source : String} {r : Run} {items : List Item} (h : InTurn source r.consumed items) :
    through mode source r items = .ok (r.through mode (Text.inkEnd source) items) := by
  induction items generalizing r with
  | nil =>
      cases h with
      | nil hc =>
          obtain ⟨after, ha⟩ := hc
          rw [through, exhausted_eq ha]
          rfl
  | cons item items ih =>
      cases h with
      | cons hc hle hs =>
          obtain ⟨after, ha⟩ := hc
          rw [through, Run.through, exhausted_eq ha, ok_bind, take_eq hle]
          by_cases hink : r.consumed < Text.inkEnd source
          · simp only [hink, not_true, decide_false, Bool.false_eq_true, if_false, if_true, ok_bind]
            cases hr : r.take mode item with
            | error f => rfl
            | ok s =>
                rw [← take_consumed hr] at hs
                exact ih hs
          · simp [hink]

theorem exists_start {source : String} {ts : List Token} {item : Item} {items : List Item}
    (h : Pattern.Tiles source ts (item :: items)) : ∃ t ∈ ts, item.span.start = t.start := by
  cases h with
  | @next tags block rest _ _ _ hb hr =>
      obtain ⟨first, last, hf, _, hs⟩ := hb.spans
      refine ⟨first, ?_, by rw [hs]⟩
      simp [List.mem_of_head? hf]

/-- A statement starts behind what is dealt with before, and what is dealt with then ends where a token does. -/
theorem inTurn_items {source : String} {consumed : Nat} {us : List Token} (hu : Token.StandIn source us)
    (hc : IsCut source consumed) (hle : ∀ u ∈ us, consumed ≤ u.start) : InTurn source consumed (Pattern.items us) := by
  generalize hi : Pattern.items us = items
  induction items generalizing us consumed with
  | nil => exact .nil hc
  | cons item items ih =>
      have htiles := Pattern.items_tiles hu
      rw [hi] at htiles
      obtain ⟨first, hfirst, hstart⟩ := exists_start htiles
      obtain ⟨last, hlast, hstop⟩ := htiles.exists_stop item (.head _)
      obtain ⟨before, vs, rfl, hr, hbehind⟩ := Pattern.items_eq_cons hu hi
      have hmax : max item.span.stop consumed = last.span.stop := by
        rw [hstop]
        exact Nat.max_eq_left (Nat.le_trans (hle last hlast) (Nat.le_add_right _ _))
      refine .cons hc (hstart ▸ hle first hfirst) (ih hu.append.2 ?_ ?_ hr.symm)
      · rw [hmax]
        exact isCut_stop (hu.standsAt hlast)
      · intro v hv
        exact Nat.max_le.2 ⟨hbehind v hv, hle v (List.mem_append_right _ hv)⟩

theorem transpile_eq (mode : Mode) (source : String) :
    transpile mode source = .ok (PhpTranspiler.transpile mode (.plain source)) := by
  have ht : through mode source .start (Pattern.scan source) =
      .ok (Run.start.through mode (Text.inkEnd source) (Pattern.scan source)) :=
    through_eq (inTurn_items (Lexer.standIn_tokenize source) ⟨source, Text.standsAt_self source⟩
      fun _ _ => Nat.zero_le _)
  rw [transpile, scan_eq, ok_bind, ht]
  rfl

/-- No access fails, whatever the source. Reading the tokens, telling the shape of a statement from any token on, taking
a statement of any shape apart, reading the whole source and rewriting it all go through on its bytes, and so do
decoding a string and reading arguments from any text. -/
theorem accesses_succeed (source : String) (mode : Mode) :
    tokenize source = .ok ((Lexer.tokenize source).map Spot.ofToken) ∧
      (∀ n, classify source (((Lexer.tokenize source).map Spot.ofToken).drop n) =
        .ok (Pattern.classify ((Lexer.tokenize source).drop n))) ∧
      (∀ shape (n : Fin (Lexer.tokenize source).length),
        extract source shape (((Lexer.tokenize source).map Spot.ofToken).drop n) =
          .ok (Pattern.extract shape (Lexer.tokenize source)[n] ((Lexer.tokenize source).drop (n + 1)))) ∧
      scan source = .ok (Pattern.scan source) ∧
      transpile mode source = .ok (PhpTranspiler.transpile mode (.plain source)) ∧
      (∀ text, unquote text = .ok (Quoted.decode? text)) ∧
      ∀ raw, arguments raw = .ok (Script.arguments raw) := by
  have h := legible_tokenize source
  refine ⟨tokenize_eq source, ?_, ?_, scan_eq source, transpile_eq mode source, unquote_eq, arguments_eq⟩
  · intro n
    rw [← List.map_drop]
    exact classify_eq (h.drop n)
  · intro shape n
    have hd := h.drop n
    rw [← List.map_drop]
    rw [List.drop_eq_getElem_cons n.isLt] at hd ⊢
    exact extract_eq hd shape

end PhpTranspiler.Indexed
