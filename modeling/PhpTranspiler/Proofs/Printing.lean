import PhpTranspiler.Anchored.SourceMap
import PhpTranspiler.Proofs.AnchoredParts
import PhpTranspiler.Proofs.Strictness

namespace PhpTranspiler

namespace Anchored

theorem cellsCode_append (cs ds : List Cell) : cellsCode (cs ++ ds) = cellsCode cs ++ cellsCode ds := by
  induction cs with
  | nil => simp [cellsCode]
  | cons c cs ih => rw [List.cons_append, cellsCode, cellsCode, ih, String.append_assoc]

theorem cellsCode_commaCells (xs : List (List Cell)) :
    cellsCode (commaCells xs) = Text.commaList (xs.map cellsCode) := by
  induction xs with
  | nil => rfl
  | cons x xs ih =>
      cases xs with
      | nil => rfl
      | cons y ys =>
          rw [commaCells, cellsCode_append, cellsCode, ih]
          simp [Text.commaList, Cell.code, String.append_assoc]

theorem linesCode_append (ls ms : List Line) : linesCode (ls ++ ms) = linesCode ls ++ linesCode ms := by
  induction ls with
  | nil => simp [linesCode]
  | cons l ls ih => simp only [List.cons_append, linesCode, ih, String.append_assoc]

/-- The offsets that are counted from the first place without reaching the words that stand for no byte. -/
def farOffset : Nat := 4294967293

theorem toNat_offset {n : Nat} (h : n < farOffset) : (firstPlace + n.toUInt32).toNat = n + 1 := by
  have hf : firstPlace.toNat = 1 := rfl
  unfold farOffset at h
  rw [toNat_add_toUInt32 (by omega), hf, Nat.add_comm]

theorem remark_of_lt {w : UInt32} (h : w.toNat ≤ farOffset) : remark w = [] := by
  apply if_neg
  rintro rfl
  revert h
  decide

variable {span : Span}

theorem place_ofSpan (h : span.start ≤ span.stop) (hs : span.stop < farOffset) :
    Place.ofSpan firstPlace span = ⟨firstPlace + span.start.toUInt32, firstPlace + span.stop.toUInt32⟩ := by
  have hf : firstPlace.toNat = 1 := rfl
  unfold farOffset at hs
  exact Place.ofSpan_eq h (by omega)

theorem remark_ofSpan (h : span.start < farOffset) (hs : span.stop < farOffset) :
    remark (Place.ofSpan firstPlace span).lo = [] := by
  apply remark_of_lt
  rw [Place.ofSpan, Place.between]
  split
  · rw [toNat_offset h]
    omega
  · rw [toNat_offset hs]
    omega

theorem remark_before (h : span.start ≤ span.stop) (hs : span.stop < farOffset) :
    remark ((Place.ofSpan firstPlace span).lo - 1) = [] ∧ (Place.ofSpan firstPlace span).hi ≠ 0 ∧
      remark ((Place.ofSpan firstPlace span).hi - 1) = [] := by
  have hone : (1 : UInt32).toNat = 1 := rfl
  have hword {n : Nat} (hn : n < farOffset) : (firstPlace + n.toUInt32 - 1).toNat = n := by
    rw [UInt32.toNat_sub_of_le, toNat_offset hn, hone, Nat.add_sub_cancel]
    rw [UInt32.le_iff_toNat_le, toNat_offset hn, hone]
    omega
  rw [place_ofSpan h hs]
  refine ⟨?_, ?_, ?_⟩
  · apply remark_of_lt
    rw [hword (by omega)]
    omega
  · intro hz
    have ht := congrArg UInt32.toNat hz
    rw [toNat_offset hs] at ht
    cases ht
  · apply remark_of_lt
    rw [hword hs]
    omega

def IsSteady (name : String) : Prop := dropEscapedNull name.toList = name.toList

section Names

variable {start : Nat} {name : String}

theorem cellsCode_name (h : IsSteady name) (hs : start + name.utf8ByteSize < farOffset) :
    cellsCode (Name.ofScript firstPlace (.at start name)).cells = name := by
  have hn : (Name.ofScript firstPlace (.at start name)).text = name := by
    rw [Name.text, Name.ofScript, Script.Identifier.at, h, String.ofList_toList]
  have hr : remark (Name.ofScript firstPlace (.at start name)).place.lo = [] :=
    remark_ofSpan (by simp only [Script.Identifier.at]; omega) hs
  rw [Name.cells, hn, hr]
  simp [cellsCode, Cell.code]

theorem cellsCode_parameter (h : IsSteady name) (hs : start + name.utf8ByteSize < farOffset) :
    cellsCode (Name.ofScript firstPlace (.at start name)).parameterCells = name := by
  have hr : remark (Name.ofScript firstPlace (.at start name)).place.lo = [] :=
    remark_ofSpan (by simp only [Script.Identifier.at]; omega) hs
  rw [Name.parameterCells, cellsCode_append, cellsCode_append, cellsCode_name h hs, hr]
  simp [cellsCode, Cell.code]

end Names

theorem cellsCode_ofLiteral (l : Script.Literal) (hs : span.start + 1 < farOffset) (ht : span.stop < farOffset) :
    cellsCode (Expression.ofLiteral firstPlace span l).cells = (Expression.ofLiteral firstPlace span l).layout := by
  have hr : remark (Place.ofSpan firstPlace span).lo = [] := remark_ofSpan (by omega) ht
  have hm : remark (Place.ofSpan firstPlace ⟨span.start + 1, span.stop⟩).lo = [] := remark_ofSpan hs ht
  rw [Expression.ofLiteral]
  cases l.value with
  | null => simp [Expression.cells, Expression.layout, hr, cellsCode, Cell.code]
  | bool b => cases b <;> simp [Expression.cells, Expression.layout, hr, cellsCode, Cell.code]
  | text s =>
      simp only [Expression.cells, Expression.layout, textCells, hr]
      split <;> simp [cellsCode, Cell.code]
  | number x =>
      simp only
      split <;> simp [Expression.cells, Expression.layout, numberCells, hr, hm, cellsCode, Cell.code]

end Anchored

namespace Script

open Anchored Lexer

variable {start : Nat}

theorem cellsCode_argument {a : Argument} (h : a.Made IsSteady) (hs : start + a.text.utf8ByteSize + 1 < farOffset) :
    cellsCode (Anchored.Expression.ofScript firstPlace (Draft.argument start a)).cells =
      (Anchored.Expression.ofScript firstPlace (Draft.argument start a)).layout := by
  cases h with
  | @«variable» name hn =>
      rw [Argument.text] at hs
      simp only [Draft.argument, Anchored.Expression.ofScript, Anchored.Expression.cells, Anchored.Expression.layout]
      exact cellsCode_name hn (by omega)
  | @literal s l hl =>
      rw [Argument.text] at hs
      simp only [Draft.argument, Anchored.Expression.ofScript]
      exact cellsCode_ofLiteral l (by simp only; omega) (by simp only; omega)

theorem cellsCode_arguments {args : List Argument} (h : ∀ a ∈ args, a.Made IsSteady)
    (hs : start + (Text.commaList (args.map Argument.text)).utf8ByteSize + 1 < farOffset) :
    (Anchored.Expression.listCells (Anchored.Expression.listOfScript firstPlace (Draft.arguments start args))).map
        cellsCode =
      Anchored.Expression.layouts (Anchored.Expression.listOfScript firstPlace (Draft.arguments start args)) := by
  induction args generalizing start with
  | nil => rfl
  | cons a args ih =>
      have hcomma : (", " : String).utf8ByteSize = 2 := rfl
      obtain ⟨ha, hargs⟩ := List.forall_mem_cons.1 h
      rw [Draft.arguments, Anchored.Expression.listOfScript, Anchored.Expression.listCells, List.map_cons,
        Anchored.Expression.layouts]
      cases args with
      | nil =>
          rw [cellsCode_argument ha hs]
          rfl
      | cons b bs =>
          simp only [List.map_cons, Text.commaList, String.utf8ByteSize_append, hcomma] at hs
          rw [cellsCode_argument ha (by omega), ih hargs (by simp only [List.map_cons]; omega)]

theorem cellsCode_callee {c : Callee} (h : c.Made IsSteady) (hs : start + c.text.utf8ByteSize < farOffset) :
    cellsCode (Anchored.Expression.ofScript firstPlace (Draft.callee start c)).cells =
      (Anchored.Expression.ofScript firstPlace (Draft.callee start c)).layout := by
  cases h with
  | plain hn =>
      rw [Callee.text] at hs
      simp only [Draft.callee, Anchored.Expression.ofScript, Anchored.Expression.cells, Anchored.Expression.layout]
      exact cellsCode_name hn (by omega)
  | @member object property ho hp =>
      have hdot : ("." : String).utf8ByteSize = 1 := rfl
      simp only [Callee.text, String.utf8ByteSize_append, hdot] at hs
      have hc : Draft.callee start (.member object property) =
          .member ⟨start, start + object.utf8ByteSize + 1 + property.utf8ByteSize⟩ (.identifier (.at start object))
            (.at (start + object.utf8ByteSize + 1) property) false false := rfl
      have hobject : cellsCode (Name.ofScript firstPlace (.at start object)).cells = object :=
        cellsCode_name ho (by omega)
      have hproperty : cellsCode (Name.ofScript firstPlace (.at (start + object.utf8ByteSize + 1) property)).cells =
          property := cellsCode_name hp (by omega)
      have hpoint : remark ((Name.ofScript firstPlace (.at (start + object.utf8ByteSize + 1) property)).place.lo - 1) =
          [] := (remark_before (by simp only [Identifier.at]; omega) (by simp only [Identifier.at]; omega)).1
      have hr : remark (Place.ofSpan firstPlace ⟨start,
          start + object.utf8ByteSize + 1 + property.utf8ByteSize⟩).lo = [] :=
        remark_ofSpan (by simp only; omega) (by simp only; omega)
      rw [hc]
      simp [Anchored.Expression.ofScript, Anchored.Expression.cells, Anchored.Expression.layout, memberCells,
        Anchored.Expression.point, cellsCode_append, cellsCode, Cell.code, hobject, hproperty, hpoint, hr]
      exact String.append_assoc.symm

theorem cellsCode_params {params : List String} (h : ∀ q ∈ params, IsSteady q)
    (hs : start + (Text.commaList params).utf8ByteSize < farOffset) :
    (((Draft.params start params).map (Name.ofScript firstPlace)).map Name.parameterCells).map cellsCode = params := by
  induction params generalizing start with
  | nil => rfl
  | cons q params ih =>
      have hcomma : (", " : String).utf8ByteSize = 2 := rfl
      obtain ⟨hq, hparams⟩ := List.forall_mem_cons.1 h
      rw [Draft.params, List.map_cons, List.map_cons, List.map_cons]
      cases params with
      | nil =>
          rw [cellsCode_parameter hq hs]
          rfl
      | cons r rs =>
          simp only [Text.commaList, String.utf8ByteSize_append, hcomma] at hs
          rw [cellsCode_parameter hq (by omega), ih hparams (by omega)]

theorem linesCode_nodes {ds : List Draft} {depth : Nat}
    (h : ∀ d ∈ ds, ∀ start, start + d.text.utf8ByteSize < farOffset →
      linesCode ((Anchored.Statement.ofScript firstPlace (d.node start)).lines depth) =
        (Anchored.Statement.ofScript firstPlace (d.node start)).layout depth)
    (hs : start + (Draft.lines ds).utf8ByteSize < farOffset) :
    linesCode (Anchored.Statement.listLines depth (Anchored.Statement.listOfScript firstPlace (Draft.nodes start ds))) =
      Anchored.Statement.layouts depth (Anchored.Statement.listOfScript firstPlace (Draft.nodes start ds)) := by
  induction ds generalizing start with
  | nil =>
      rw [Draft.nodes, Anchored.Statement.listOfScript, Anchored.Statement.listLines, Anchored.Statement.layouts]
      rfl
  | cons d ds ih =>
      have hline : ("\n" : String).utf8ByteSize = 1 := rfl
      obtain ⟨hd, hds⟩ := List.forall_mem_cons.1 h
      simp only [Draft.lines, String.utf8ByteSize_append, hline] at hs
      rw [Draft.nodes, Anchored.Statement.listOfScript, Anchored.Statement.listLines, Anchored.Statement.layouts,
        linesCode_append, hd start (by omega), ih hds (by omega)]

theorem linesCode_variable {name : String} {l : Literal} (hn : IsSteady name) (depth : Nat)
    (hs : start + (Draft.variable name l).text.utf8ByteSize < farOffset) :
    linesCode ((Anchored.Statement.ofScript firstPlace (Draft.node start (.variable name l))).lines depth) =
      (Anchored.Statement.ofScript firstPlace (Draft.node start (.variable name l))).layout depth := by
  have hvar : ("var " : String).utf8ByteSize = 4 := rfl
  have heq : (" = " : String).utf8ByteSize = 3 := rfl
  have hsemi : (";" : String).utf8ByteSize = 1 := rfl
  simp only [Draft.text, String.utf8ByteSize_append, hvar, heq, hsemi] at hs
  let place : Span := ⟨start + 4 + name.utf8ByteSize + 3, start + 4 + name.utf8ByteSize + 3 + l.raw.utf8ByteSize⟩
  have hd : Draft.node start (.variable name l) = .declaration ⟨start, place.stop + 1⟩
      [⟨⟨start + 4, place.stop⟩, .at (start + 4) name, some (.literal place l)⟩] := by
    rw [Draft.node]
    rfl
  have hname : cellsCode (Name.ofScript firstPlace (.at (start + 4) name)).cells = name :=
    cellsCode_name hn (by omega)
  have hl : cellsCode (Anchored.Expression.ofLiteral firstPlace place l).cells =
      (Anchored.Expression.ofLiteral firstPlace place l).layout :=
    cellsCode_ofLiteral l (by simp only [place]; omega) (by simp only [place]; omega)
  have hr : remark (Place.ofSpan firstPlace ⟨start, place.stop + 1⟩).lo = [] :=
    remark_ofSpan (by simp only; omega) (by simp only [place]; omega)
  have hr' : remark (Place.ofSpan firstPlace ⟨start + 4, place.stop⟩).lo = [] :=
    remark_ofSpan (by simp only; omega) (by simp only [place]; omega)
  rw [hd]
  simp [Anchored.Statement.ofScript, Anchored.Statement.lines, Anchored.Statement.layout, Anchored.Declarator.ofScript,
    Anchored.Declarator.cells, Anchored.Declarator.layout, Anchored.Expression.ofScript, commaCells, Text.commaList,
    linesCode, cellsCode_append, cellsCode, Cell.code, hname, hl, hr, hr', String.append_assoc]
  rfl

theorem linesCode_call {c : Call} (hc : c.callee.Made IsSteady) (ha : ∀ a ∈ c.args, a.Made IsSteady) (depth : Nat)
    (hs : start + (Draft.call c).text.utf8ByteSize < farOffset) :
    linesCode ((Anchored.Statement.ofScript firstPlace (Draft.node start (.call c))).lines depth) =
      (Anchored.Statement.ofScript firstPlace (Draft.node start (.call c))).layout depth := by
  have hopen : ("(" : String).utf8ByteSize = 1 := rfl
  have hclose : (");" : String).utf8ByteSize = 2 := rfl
  simp only [Draft.text, String.utf8ByteSize_append, hopen, hclose] at hs
  let args := start + c.callee.text.utf8ByteSize + 1
  let stop := args + (Text.commaList (c.args.map Argument.text)).utf8ByteSize + 1
  have hd : Draft.node start (.call c) = .expression ⟨start, stop + 1⟩
      (.call ⟨start, stop⟩ (Draft.callee start c.callee) (Draft.arguments args c.args) false) := by
    rw [Draft.node]
  have hcallee := cellsCode_callee hc (show start + c.callee.text.utf8ByteSize < farOffset by omega)
  have hargs := cellsCode_arguments ha
    (show args + (Text.commaList (c.args.map Argument.text)).utf8ByteSize + 1 < farOffset by simp only [args]; omega)
  have hr : remark (Place.ofSpan firstPlace ⟨start, stop + 1⟩).lo = [] :=
    remark_ofSpan (by simp only; omega) (by simp only [args, stop]; omega)
  have hr' : remark (Place.ofSpan firstPlace ⟨start, stop⟩).lo = [] :=
    remark_ofSpan (by simp only; omega) (by simp only [args, stop]; omega)
  rw [hd]
  simp [Anchored.Statement.ofScript, Anchored.Statement.lines, Anchored.Statement.layout, Anchored.Expression.ofScript,
    Anchored.Expression.cells, Anchored.Expression.layout, linesCode, cellsCode_append, cellsCode_commaCells, cellsCode,
    Cell.code, hcallee, hargs, hr, hr', String.append_assoc]

theorem linesCode_function {name : String} {params : List String} {body : List Draft} (hn : IsSteady name)
    (hp : ∀ q ∈ params, IsSteady q) {depth : Nat}
    (hb : ∀ d ∈ body, ∀ start, start + d.text.utf8ByteSize < farOffset →
      linesCode ((Anchored.Statement.ofScript firstPlace (d.node start)).lines (depth + 1)) =
        (Anchored.Statement.ofScript firstPlace (d.node start)).layout (depth + 1))
    (hs : start + (Draft.function name params body).text.utf8ByteSize < farOffset) :
    linesCode ((Anchored.Statement.ofScript firstPlace (Draft.node start (.function name params body))).lines depth) =
      (Anchored.Statement.ofScript firstPlace (Draft.node start (.function name params body))).layout depth := by
  have hword : ("function " : String).utf8ByteSize = 9 := rfl
  have hopen : ("(" : String).utf8ByteSize = 1 := rfl
  have hclose : (") " : String).utf8ByteSize = 2 := rfl
  let block := start + 9 + name.utf8ByteSize + 1 + (Text.commaList params).utf8ByteSize + 2
  let stop := start + (Draft.function name params body).text.utf8ByteSize
  have hd : Draft.node start (.function name params body) = .function ⟨start, stop⟩ (.at (start + 9) name)
      ⟨false, false, false⟩ (Draft.params (start + 9 + name.utf8ByteSize + 1) params) ⟨block, stop⟩
      (Draft.nodes (block + 2) body) := by
    rw [Draft.node]
    rfl
  have hstop : stop = block +
      (if body.isEmpty then "\x7b \x7d" else "\x7b\n" ++ Draft.lines body ++ "\x7d").utf8ByteSize := by
    simp only [stop, block, Draft.text, String.utf8ByteSize_append, hword, hopen, hclose]
    omega
  have hs : stop < farOffset := hs
  have hle : block ≤ stop := by omega
  have hname : cellsCode (Name.ofScript firstPlace (.at (start + 9) name)).cells = name :=
    cellsCode_name hn (by simp only [block] at hle; omega)
  have hparams := cellsCode_params hp
    (show start + 9 + name.utf8ByteSize + 1 + (Text.commaList params).utf8ByteSize < farOffset by
      simp only [block] at hle; omega)
  have hr : remark (Place.ofSpan firstPlace ⟨start, stop⟩).lo = [] :=
    remark_ofSpan (by simp only [block] at hle ⊢; omega) hs
  have hr' : remark (Place.ofSpan firstPlace ⟨block, stop⟩).lo = [] := remark_ofSpan (by simp only; omega) hs
  have hlast : cellsCode (closingCells (Place.ofSpan firstPlace ⟨block, stop⟩)) = "\x7d" := by
    obtain ⟨_, hz, hc⟩ := remark_before (show (⟨block, stop⟩ : Span).start ≤ (⟨block, stop⟩ : Span).stop from hle) hs
    rw [closingCells, if_neg hz, hc]
    rfl
  rw [hd]
  simp only [Anchored.Statement.ofScript, Anchored.Statement.lines, Anchored.Statement.layout, map_name_params,
    isEmpty_listOfScript]
  have hword' : (Name.ofScript firstPlace (.at (start + 9) name)).name = name := rfl
  rw [List.map_map, List.map_map, Function.comp_assoc] at hparams
  by_cases he : body.isEmpty
  · rw [if_pos he, if_pos he]
    simp [linesCode, cellsCode_append, cellsCode_commaCells, cellsCode, Cell.code, hname, hword', hparams, hr, hr',
      hlast, String.append_assoc]
  · have htwo : ("\x7b\n" : String).utf8ByteSize = 2 := rfl
    have hsplit : (") \x7b\n" : String) = ") " ++ "\x7b\n" := rfl
    simp only [he, Bool.false_eq_true, if_false, String.utf8ByteSize_append, htwo] at hstop
    have hbody := linesCode_nodes hb (show block + 2 + (Draft.lines body).utf8ByteSize < farOffset by omega)
    rw [if_neg he, if_neg he]
    simp [linesCode, linesCode_append, cellsCode_append, cellsCode_commaCells, cellsCode, Cell.code, hname, hword',
      hparams, hr, hr', hlast, hbody, String.append_assoc]
    rw [hsplit, String.append_assoc]

/-- What is printed for a statement is its plain layout, as long as no place of it is out of reach. -/
theorem linesCode_node {d : Draft} (h : d.Made IsSteady) (depth : Nat)
    (hs : start + d.text.utf8ByteSize < farOffset) :
    linesCode ((Anchored.Statement.ofScript firstPlace (d.node start)).lines depth) =
      (Anchored.Statement.ofScript firstPlace (d.node start)).layout depth := by
  induction h generalizing start depth with
  | «variable» hn hl => exact linesCode_variable hn depth hs
  | call hc ha => exact linesCode_call hc ha depth hs
  | function hn hp hb ih => exact linesCode_function hn hp (fun d hd start => ih d hd (depth + 1)) hs

theorem flatMap_lines {ds : List Draft} (hs : start + (Draft.lines ds).utf8ByteSize < farOffset) :
    ((Anchored.Statement.listOfScript firstPlace (Draft.nodes start ds)).flatMap fun s =>
        prependCells (remark s.place.lo) (s.lines 0)) =
      Anchored.Statement.listLines 0 (Anchored.Statement.listOfScript firstPlace (Draft.nodes start ds)) := by
  induction ds generalizing start with
  | nil =>
      rw [Draft.nodes, Anchored.Statement.listOfScript, Anchored.Statement.listLines]
      rfl
  | cons d ds ih =>
      have hline : ("\n" : String).utf8ByteSize = 1 := rfl
      simp only [Draft.lines, String.utf8ByteSize_append, hline] at hs
      have hplace : (Anchored.Statement.ofScript firstPlace (d.node start)).place =
          Place.ofSpan firstPlace (d.node start).span := by
        cases d <;> simp [Draft.node, Anchored.Statement.ofScript, Anchored.Statement.place, Statement.span]
      have hr : remark (Anchored.Statement.ofScript firstPlace (d.node start)).place.lo = [] := by
        rw [hplace, Draft.span_node]
        exact remark_ofSpan (by simp only; omega) (by simp only; omega)
      have hnil (ls : List Line) : prependCells [] ls = ls := by cases ls <;> rfl
      rw [Draft.nodes, Anchored.Statement.listOfScript, Anchored.Statement.listLines, List.flatMap_cons, hr, hnil,
        ih (by omega)]

theorem emit_code {ds : List Draft} (h : ∀ d ∈ ds, d.Made IsSteady)
    (hs : (Draft.lines ds).utf8ByteSize < farOffset) (text filename : String) (withMap : Bool) :
    (Program.emit ⟨⟨0, (Draft.lines ds).utf8ByteSize⟩, Draft.nodes 0 ds⟩ text filename withMap).code =
      (Module.ofScript firstPlace ⟨⟨0, (Draft.lines ds).utf8ByteSize⟩, Draft.nodes 0 ds⟩).layout := by
  have hr : remark (Place.ofSpan firstPlace ⟨0, (Draft.lines ds).utf8ByteSize⟩).lo = [] :=
    remark_ofSpan (show 0 < farOffset by decide) hs
  simp only [Program.emit, Module.code, Module.opening, Module.lines, Module.layout, Module.ofScript]
  rw [flatMap_lines (by omega), hr, linesCode_nodes (fun d hd start => linesCode_node (h d hd) 0) (by omega)]
  simp [cellsCode]

theorem Callee.Made.mono {p q : String → Prop} (hpq : ∀ name, p name → q name) {c : Callee} (h : c.Made p) :
    c.Made q := by
  cases h with
  | plain hn => exact .plain (hpq _ hn)
  | member ho hp => exact .member (hpq _ ho) (hpq _ hp)

theorem Argument.Made.mono {p q : String → Prop} (hpq : ∀ name, p name → q name) {a : Argument} (h : a.Made p) :
    a.Made q := by
  cases h with
  | «variable» hn => exact .variable (hpq _ hn)
  | literal hl => exact .literal hl

theorem Draft.Made.mono {p q : String → Prop} (hpq : ∀ name, p name → q name) {d : Draft} (h : d.Made p) :
    d.Made q := by
  induction h with
  | «variable» hn hl => exact .variable (hpq _ hn) hl
  | call hc ha => exact .call (hc.mono hpq) fun a hm => (ha a hm).mono hpq
  | function hn hp hb ih => exact .function (hpq _ hn) (fun q hq => hpq q (hp q hq)) ih

def IsPrintable (name : String) : Prop := Text.IsUnquoted name ∧ IsSteady name

theorem isSteady_of_forall {name : String} (h : ∀ c ∈ name.toList, c ≠ '\\') : IsSteady name := by
  rw [IsSteady]
  generalize name.toList = cs at h
  fun_induction dropEscapedNull cs with
  | case1 cs ih => exact absurd rfl (h '\\' (.head _))
  | case2 c cs hc ih => rw [ih fun d hd => h d (List.mem_cons_of_mem c hd)]
  | case3 => rfl

theorem printable_of_isWord {name : String} (h : Lexer.IsWord name.toList) :
    IsPrintable name := by
  have hc : ∀ c ∈ name.toList, c ≠ '"' ∧ c ≠ '\'' ∧ c ≠ '\\' := by
    intro c hm
    have hr := h.isWordRest c hm
    refine ⟨?_, ?_, ?_⟩
    all_goals
      rintro rfl
      revert hr
      decide
  constructor
  · intro c hm
    simp [Text.isQuote, hc c hm]
  · exact isSteady_of_forall fun c hm => (hc c hm).2.2

theorem callee_made_of_sourced {c : Callee} (h : c.Sourced) :
    c.Made IsPrintable := by
  cases h with
  | plain hn => exact .plain (printable_of_isWord hn.1)
  | log =>
      apply Callee.Made.member
      · exact printable_of_isWord (isWord_of_all (by decide))
      · exact printable_of_isWord (isWord_of_all (by decide))
  | @math name property hm =>
      apply Callee.Made.member
      · exact printable_of_isWord (isWord_of_all (by decide))
      · apply printable_of_isWord
        simp only [builtins, List.mem_cons, Prod.mk.injEq, Builtin.math.injEq, reduceCtorEq, and_false, false_or,
          List.not_mem_nil, or_false] at hm
        rcases hm with ⟨_, rfl⟩ | ⟨_, rfl⟩ | ⟨_, rfl⟩ | ⟨_, rfl⟩ | ⟨_, rfl⟩ | ⟨_, rfl⟩ | ⟨_, rfl⟩ | ⟨_, rfl⟩
        all_goals exact isWord_of_all (by decide)

theorem made_of_sourced {d : Draft} (h : d.Sourced) : d.Made IsPrintable := by
  induction h with
  | «variable» s hn => exact .variable (printable_of_isWord hn.1) (s := .text s) rfl
  | @call c hc ha =>
      refine .call (callee_made_of_sourced hc) fun a hm => ?_
      cases ha a hm with
      | «variable» hn => exact .variable (printable_of_isWord hn.1)
      | literal hl => exact .literal hl
  | function hn hp hb ih =>
      exact .function (printable_of_isWord hn.1) (fun q hq => printable_of_isWord (hp q hq).1) ih

end Script

open Script Anchored Lexer

theorem exists_drafts {mode : Mode} {source : String} {out : Transpiled}
    (h : transpile mode (.plain source) = .ok out) :
    ∃ ds, (∀ d ∈ ds, d.Sourced) ∧ out.text = Draft.lines ds ∧
      out.program = ⟨⟨0, (Draft.lines ds).utf8ByteSize⟩, Draft.nodes 0 ds⟩ := by
  cases hl : Transpile.lowerAll mode (Source.plain source).pulled with
  | error f =>
      rw [transpile_of_lowerAll_error hl] at h
      cases h
  | ok r =>
      obtain ⟨ds, diagnostics⟩ := r
      cases (transpile_of_lowerAll hl).symm.trans h
      exact ⟨ds, sourced_of_pulled hl, rfl, rfl⟩

/-- The plain layout of a page is its text, up to blanks outside of literals, whatever statements are laid out on it.
The printer prints this layout as long as it counts the places of the page as what they are and changes no name, which
holds of all that is read from tokens. -/
theorem squeeze_emit :
    (∀ (base : UInt32) (ds : List Draft), (∀ d ∈ ds, d.Made Text.IsUnquoted) →
      Text.squeeze (Module.ofScript base (ds.foldl Page.append .empty).program).layout =
        Text.squeeze (ds.foldl Page.append .empty).text) ∧
    (∀ ds : List Draft, (∀ d ∈ ds, d.Made IsSteady) → (ds.foldl Page.append .empty).text.utf8ByteSize < farOffset →
      ∀ filename withMap,
        ((ds.foldl Page.append .empty).program.emit (ds.foldl Page.append .empty).text filename withMap).code =
          (Module.ofScript firstPlace (ds.foldl Page.append .empty).program).layout) ∧
    ∀ mode source out, transpile mode (.plain source) = .ok out →
      Text.squeeze (Module.ofScript firstPlace out.program).layout = Text.squeeze out.text ∧
      (out.text.utf8ByteSize < farOffset → ∀ filename withMap,
        Text.squeeze (out.program.emit out.text filename withMap).code = Text.squeeze out.text) := by
  have hpage (ds : List Draft) : ds.foldl Page.append .empty = ⟨Draft.nodes 0 ds, Draft.lines ds⟩ := by
    rw [Page.foldl_append]
    simp [Page.empty, Page.cursor]
  have hlayout (base : UInt32) {ds : List Draft} (h : ∀ d ∈ ds, d.Made Text.IsUnquoted) :
      Text.squeeze (Module.ofScript base ⟨⟨0, (Draft.lines ds).utf8ByteSize⟩, Draft.nodes 0 ds⟩).layout =
        Text.squeeze (Draft.lines ds) :=
    (alike_layouts base (fun d hd start => alike_layout base (h d hd) start 0) 0).squeeze_eq
  refine ⟨?_, ?_, ?_⟩
  · intro base ds h
    rw [hpage]
    exact hlayout base h
  · intro ds h hs filename withMap
    rw [hpage] at hs ⊢
    exact emit_code h hs _ filename withMap
  · intro mode source out h
    obtain ⟨ds, hds, ht, hp⟩ := exists_drafts h
    have hmade := fun d hd => made_of_sourced (hds d hd)
    have hq := hlayout firstPlace fun d hd => (hmade d hd).mono fun _ hn => hn.1
    rw [hp, ht]
    refine ⟨hq, fun hs filename withMap => ?_⟩
    rw [emit_code (fun d hd => (hmade d hd).mono fun _ hn => hn.2) hs, hq]

theorem squeeze_emit_nested :
    ∃ ds : List Draft, (∀ d ∈ ds, d.Made IsPrintable) ∧
      (ds.foldl Page.append .empty).text =
        "function f(a) \x7b\nMath.abs(-5, a);\nfunction g() \x7b \x7d\n\x7d\nvar a = \" x \";\n" ∧
      (ds.foldl Page.append .empty).text.utf8ByteSize < farOffset ∧
      Text.squeeze ((ds.foldl Page.append .empty).program.emit (ds.foldl Page.append .empty).text "" false).code =
        Text.squeeze (ds.foldl Page.append .empty).text := by
  let five : Literal := ⟨.number (.ofInt (-5)), (-5 : Int).repr⟩
  let ds : List Draft :=
    [.function "f" ["a"] [.call ⟨.member "Math" "abs", [.literal five, .variable "a"]⟩, .function "g" [] []],
      .variable "a" ⟨.text " x ", quote " x "⟩]
  have hds : ∀ d ∈ ds, d.Made IsPrintable := by
    have hf : IsPrintable "f" := printable_of_isWord (isWord_of_all (by decide))
    have ha : IsPrintable "a" := printable_of_isWord (isWord_of_all (by decide))
    have hg : IsPrintable "g" := printable_of_isWord (isWord_of_all (by decide))
    have hfive : Literal.ofScalar (.number (-5 : Int).repr) = .ok five := Literal.ofScalar_repr (by decide)
    have habs := callee_made_of_sourced (.math (show ("abs", .math "abs") ∈ builtins by decide))
    have hcall : (Draft.call ⟨.member "Math" "abs", [.literal five, .variable "a"]⟩).Made IsPrintable :=
      .call habs (List.forall_mem_cons.2 ⟨.literal hfive, List.forall_mem_singleton.2 (.variable ha)⟩)
    have hinner : (Draft.function "g" [] []).Made IsPrintable :=
      .function hg (List.forall_mem_nil _) (List.forall_mem_nil _)
    have hbody := List.forall_mem_cons.2 ⟨hcall, List.forall_mem_singleton.2 hinner⟩
    have hlast := Draft.Made.variable ha (s := .text " x ") rfl
    exact List.forall_mem_cons.2
      ⟨.function hf (List.forall_mem_singleton.2 ha) hbody, List.forall_mem_singleton.2 hlast⟩
  have ht : (ds.foldl Page.append .empty).text =
      "function f(a) \x7b\nMath.abs(-5, a);\nfunction g() \x7b \x7d\n\x7d\nvar a = \" x \";\n" := by
    rw [Page.foldl_append]
    decide
  have hs : (ds.foldl Page.append .empty).text.utf8ByteSize < farOffset := by
    rw [ht]
    decide
  refine ⟨ds, hds, ht, hs, ?_⟩
  rw [squeeze_emit.2.1 ds (fun d hd => (hds d hd).mono fun _ hn => hn.2) hs "" false]
  exact squeeze_emit.1 firstPlace ds fun d hd => (hds d hd).mono fun _ hn => hn.1

end PhpTranspiler
