import PhpTranspiler.Proofs.Integers
import PhpTranspiler.Proofs.Spelling

namespace PhpTranspiler

theorem Text.sameWord_of_lower {word : String} (h : word.toList.map Char.toLower = word.toList) (name : String) :
    sameWord word name = (word == name.map Char.toLower) := by
  rw [sameWord, h, Bool.eq_iff_iff, beq_iff_eq, beq_iff_eq, ← String.toList_inj, String.toList_map]

namespace Fragment

open Token Lexer Nesting

theorem Plain.decode?_quoted (s : Plain) : Quoted.decode? s.quoted = some s.text := by
  have he : s.quoted.toList = '"' :: (s.text.toList ++ ['"']) := by simp [Plain.quoted]
  have hd : Quoted.dropClosing '"' (s.text.toList ++ ['"']) = s.text.toList := by simp [Quoted.dropClosing]
  have hb := Quoted.doubleBytes?_append (fun c hc => (s.isPlain c hc).2.1) []
  rw [List.append_nil, Quoted.doubleBytes?] at hb
  simp [Quoted.decode?, he, Quote.ofChar?, hd, hb, Quoted.fromUTF8?_bytes]

theorem Name.name_variable (n : Name) (kind : Kind) : (ofText kind n.variable).name = n.text := by
  simp [ofText, Token.name, Name.variable]

theorem Argument.isAtom_tokens (a : Argument) : ∀ t ∈ a.tokens, isAtom t := by
  match a with
  | .variable _ | .text _ | .integer ⟨.ofNat _, _⟩ | .bool true | .bool false | .null =>
      simp [tokens, isAtom, ofText]
  | .integer ⟨.negSucc _, _⟩ => simp [tokens, isAtom, ofText]

theorem Argument.map_bare_tokens (a : Argument) : a.tokens.map bare = a.tokens := by
  match a with
  | .variable _ | .text _ | .integer ⟨.ofNat _, _⟩ | .bool true | .bool false | .null => rfl
  | .integer ⟨.negSucc _, _⟩ => rfl

theorem Argument.tokens_ne_nil (a : Argument) : a.tokens ≠ [] := by
  match a with
  | .variable _ | .text _ | .integer ⟨.ofNat _, _⟩ | .bool true | .bool false | .null => simp [tokens]
  | .integer ⟨.negSucc _, _⟩ => simp [tokens]

theorem Argument.ofTokens_tokens (a : Argument) : Script.Argument.ofTokens a.tokens = .ok a.translation := by
  match a with
  | .variable name => exact congrArg (fun n => Except.ok (Script.Argument.variable n)) (name.name_variable _)
  | .text value =>
      simp [tokens, ofText, Script.Argument.ofTokens, Script.Argument.scalar?, value.decode?_quoted,
        Script.Literal.ofScalar, Except.map, translation]
  | .integer ⟨.ofNat n, h⟩ =>
      have hl := Script.Literal.ofScalar_repr h
      rw [Int.repr] at hl
      simp [tokens, ofText, Script.Argument.ofTokens, Script.Argument.scalar?, hl, Except.map, translation,
        Int.repr]
  | .integer ⟨.negSucc n, h⟩ =>
      have hl := Script.Literal.ofScalar_repr h
      rw [Int.repr] at hl
      simp [tokens, ofText, Script.Argument.ofTokens, hl, Except.map, translation, Int.repr]
  | .bool true => rfl
  | .bool false => rfl
  | .null => rfl

theorem Argument.spelled (a : Argument) : a.translation.Spelled a.tokens :=
  ⟨a.isAtom_tokens, a.map_bare_tokens, a.tokens_ne_nil, a.ofTokens_tokens⟩

def Lists (raw : String) (args : List Argument) : Prop :=
  (tokenize raw).map bare = separated (args.map Argument.tokens)

theorem Lists.arguments_eq {raw : String} {args : List Argument} (h : Lists raw args) :
    Script.arguments raw = .ok (args.map Argument.translation) :=
  Script.arguments_eq (fun a _ => a.spelled) h

theorem ofName?_eq (name : String) :
    Script.Builtin.ofName? name =
      if name.map Char.toLower ∈ printers then some .log
      else if name.map Char.toLower ∈ mathFunctions then some (.math (name.map Char.toLower))
      else none := by
  have hlower : ∀ entry ∈ Script.builtins, entry.1.toList.map Char.toLower = entry.1.toList := by decide
  have hf : Script.builtins.find? (fun entry => Text.sameWord entry.1 name) =
      Script.builtins.find? fun entry => entry.1 == name.map Char.toLower := by
    rw [← List.head?_filter, List.filter_congr fun entry he => Text.sameWord_of_lower (hlower entry he) name,
      List.head?_filter]
  rw [Script.Builtin.ofName?, hf]
  generalize name.map Char.toLower = word
  split
  · rename_i hw
    revert word
    decide
  · rename_i hp
    split
    · rename_i hw
      clear hp
      revert word
      decide
    · rename_i hm
      have hall : ∀ entry ∈ Script.builtins, entry.1 ∈ printers ∨ entry.1 ∈ mathFunctions := by decide
      have hnone : Script.builtins.find? (fun entry => entry.1 == word) = none := by
        rw [List.find?_eq_none]
        intro entry he hb
        rw [beq_iff_eq] at hb
        rcases hall entry he with h | h
        · exact hp (hb ▸ h)
        · exact hm (hb ▸ h)
      rw [hnone]
      rfl

theorem ofSource_eq {name raw : String} {args : List Argument} (h : Lists raw args)
    (hone : name.map Char.toLower ∈ printers → args.length = 1) :
    Script.Call.ofSource name raw = .ok ⟨callee name, args.map Argument.translation⟩ := by
  rw [Script.Call.ofSource, h.arguments_eq, ofName?_eq, callee]
  by_cases hp : name.map Char.toLower ∈ printers
  · simp [Except.bind, hp, hone hp, Script.Call.log]
  · by_cases hm : name.map Char.toLower ∈ mathFunctions <;> simp [Except.bind, hp, hm]

theorem names_free {name : String} (hn : name ∉ Script.reservedWords) (args : List Argument) :
    ∀ n ∈ Script.Call.names ⟨callee name, args.map Argument.translation⟩, n ∉ Script.reservedWords := by
  apply Script.Call.names_free
  · intro n hc
    simp only [callee] at hc
    split at hc
    · cases hc
    · split at hc
      · cases hc
      · cases hc
        exact hn
  · intro n hv
    obtain ⟨a, _, ha⟩ := List.mem_map.1 hv
    cases a with
    | «variable» v =>
        cases ha
        exact v.isFree
    | text | integer | null => cases ha
    | bool b => cases b <;> cases ha

theorem invoke_eq {name raw : String} {args : List Argument} (h : Lists raw args)
    (hone : name.map Char.toLower ∈ printers → args.length = 1) (hn : name ∉ Script.reservedWords) :
    Transpile.invoke name raw = .ok (.call ⟨callee name, args.map Argument.translation⟩) := by
  rw [Transpile.invoke, ofSource_eq h hone]
  simp [Except.bind, Except.map, Transpile.checkNames_of_free (names_free hn args)]

theorem Call.length_of_printer (c : Call) (h : c.callee.text.map Char.toLower ∈ printers) : c.args.length = 1 := by
  have hlower : ∀ word ∈ printers, word.toList.map Char.toLower = word.toList := by decide
  have hsame := Text.sameWord_of_lower (hlower _ h) c.callee.text
  rw [beq_self_eq_true] at hsame
  have hcases : ∀ word ∈ printers,
      word ∈ ["print_r", "var_dump"] ∨ word ∈ "echo" :: "print" :: Pattern.keywords := by decide
  rcases hcases _ h with hw | hw
  · exact c.printsOne _ hw hsame
  · exact absurd (c.isCallable _ hw) (by simp [hsame])

mutual

/-- An item that says what a statement says, whichever reader it comes from. -/
inductive Denotes : Item → Statement → Prop
  | assignment {place : Excerpt} {name : Name} {value : Plain} :
      Denotes (.assignment place name.text (.text value.text)) (.assignment name value)
  | echo {place : Excerpt} {raw : String} {arg : Argument} (h : Lists raw [arg]) :
      Denotes (.call place "echo" raw) (.echo arg)
  | print {place : Excerpt} {raw : String} {arg : Argument} (h : Lists raw [arg]) :
      Denotes (.call place "print" raw) (.print arg)
  | call {place : Excerpt} {raw : String} {c : Call} (h : Lists raw c.args) :
      Denotes (.call place c.callee.text raw) (.call c)
  | function {place : Excerpt} {name : Name} {params : List Name} {text : String} {items : List Item}
      {body : List Statement} (h : DenotesAll items body) :
      Denotes (.function place name.text (params.map Name.text) text items) (.function name params body)

inductive DenotesAll : List Item → List Statement → Prop
  | nil : DenotesAll [] []
  | cons {item : Item} {items : List Item} {s : Statement} {block : List Statement} (h : Denotes item s)
      (hs : DenotesAll items block) : DenotesAll (item :: items) (s :: block)

end

mutual

theorem Denotes.lower_eq (mode : Mode) {item : Item} {s : Statement} :
    Denotes item s → Transpile.lower mode item = .ok (some s.translation, [])
  | @Denotes.assignment place name value => Transpile.lower_assignment place name.isFree rfl
  | .echo h => by
      rw [Transpile.lower, invoke_eq h (fun _ => rfl) (by decide)]
      rfl
  | .print h => by
      rw [Transpile.lower, invoke_eq h (fun _ => rfl) (by decide)]
      rfl
  | @Denotes.call place raw c h => by
      rw [Transpile.lower, invoke_eq h c.length_of_printer c.callee.isFree]
      rfl
  | @Denotes.function place name params text items body h => by
      have hn : Transpile.checkNames (name.text :: params.map Name.text) = .ok () := by
        apply Transpile.checkNames_of_free
        simp only [List.mem_cons, List.mem_map]
        rintro _ (rfl | ⟨p, _, rfl⟩)
        · exact name.isFree
        · exact p.isFree
      rw [Transpile.lower, hn, h.lowerAll_eq mode]
      rfl

theorem DenotesAll.lowerAll_eq (mode : Mode) {items : List Item} {block : List Statement} :
    DenotesAll items block → Transpile.lowerAll mode items = .ok (Statement.translations block, [])
  | .nil => rfl
  | .cons h hs => Transpile.lowerAll_of_lower (h.lower_eq mode) (hs.lowerAll_eq mode)

end

theorem DenotesAll.length_eq {items : List Item} {block : List Statement} (h : DenotesAll items block) :
    items.length = (Statement.translations block).length := by
  induction items generalizing block with
  | nil =>
      cases h
      rfl
  | cons item items ih =>
      cases h with
      | cons _ hs => rw [Statement.translations, List.length_cons, List.length_cons, ih hs]

theorem ofBody_translations (block : List Statement) (start : Nat) :
    Summary.ofBody (Script.Draft.nodes start (Statement.translations block)) 0 =
      ⟨block.countP Statement.isAssignment, block.countP fun s => !s.isAssignment && !s.isFunction,
        block.countP Statement.isFunction, 0⟩ := by
  induction block generalizing start with
  | nil => rfl
  | cons s block ih =>
      rw [Statement.translations, Script.Draft.nodes, ← Summary.zero_add (.ofBody _ _), ← Summary.count_some, ih]
      show Summary.mk _ _ _ _ = Summary.mk _ _ _ _
      cases s <;> simp [Summary.count, Summary.zero, Statement.translation, Statement.isAssignment,
        Statement.isFunction, List.countP_cons, Nat.add_comm 1]

/-- The run over a source depends on what its items denote alone. -/
theorem DenotesAll.transpile_eq {source : Source} {block : List Statement} (h : DenotesAll source.pulled block)
    (mode : Mode) : transpile mode source = .ok (result block) := by
  rw [transpile_of_lowerAll (h.lowerAll_eq mode), h.length_eq, Nat.sub_self, ofBody_translations]
  rfl

end Fragment

end PhpTranspiler
