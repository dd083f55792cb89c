import PhpTranspiler.Proofs.Origin

namespace PhpTranspiler

open Script

namespace Quoted

theorem fromUTF8?_bytes (cs : List Char) :
    String.fromUTF8? ⟨(cs.flatMap bytes).toArray⟩ = some (String.ofList cs) := by
  have he : (⟨(cs.flatMap bytes).toArray⟩ : ByteArray) = (String.ofList cs).toByteArray := by
    apply ByteArray.ext
    rw [String.toByteArray_ofList, List.utf8Encode, List.data_toByteArray]
    rfl
  rw [he, String.fromUTF8?, dif_pos (String.isValidUTF8 _)]
  rfl

theorem doubleBytes?_of_ne {c : Char} (h : c ≠ '\\') (cs : List Char) :
    doubleBytes? (c :: cs) = (doubleBytes? cs).map (bytes c ++ ·) := by
  rw [doubleBytes?.eq_def]
  simp [h]

theorem doubleBytes?_append {cs : List Char} (h : ∀ c ∈ cs, c ≠ '\\') (rest : List Char) :
    doubleBytes? (cs ++ rest) = (doubleBytes? rest).map (cs.flatMap bytes ++ ·) := by
  induction cs with
  | nil => simp
  | cons c cs ih =>
      rw [List.cons_append, doubleBytes?_of_ne (h c (.head _)),
        ih fun d hd => h d (List.mem_cons_of_mem c hd), Option.map_map]
      simp [Function.comp_def]

theorem doubleBytes?_escape {c : Char} {cs : List Char} {bs : List UInt8} {n : Nat}
    (h : escape? c cs = some (bs, n)) :
    doubleBytes? ('\\' :: c :: cs) = (doubleBytes? (cs.drop n)).map (bs ++ ·) := by
  rw [doubleBytes?.eq_def]
  simp [h]

end Quoted

namespace Script

/-- The characters that are read back as themselves when they are written in a string. Of the control
characters these are the ones with an escape of their own. -/
def isRestored (c : Char) : Bool := !isControl c || c == '\n' || c == '\r' || c == '\t'

def readBack (c : Char) : List Char := if isRestored c then [c] else escape c

theorem hex_plain (n : Nat) (h : n < 160) :
    (Digits.hex 4 n).head? = some '0' ∧ ∀ d ∈ Digits.hex 4 n, d ≠ '\\' ∧ d ≠ '"' := by
  have hall : ∀ n < 160, (Digits.hex 4 n).head? = some '0' ∧
      (Digits.hex 4 n).all (fun d => d ≠ '\\' ∧ d ≠ '"') = true := by decide +kernel
  simpa using hall n h

theorem toNat_lt_of_isControl {c : Char} (h : isControl c) : c.toNat < 160 := by
  simp only [isControl, Bool.or_eq_true, Bool.and_eq_true, decide_eq_true_eq] at h
  omega

def namedEscapes : List (Char × Char) := [('"', '"'), ('\\', '\\'), ('\n', 'n'), ('\r', 'r'), ('\t', 't')]

theorem isRestored_of_named {c d : Char} (h : (c, d) ∈ namedEscapes) : isRestored c := by
  have hall : ∀ entry ∈ namedEscapes, isRestored entry.1 := by decide
  exact hall (c, d) h

theorem escape_forms (c : Char) :
    (∃ d, (c, d) ∈ namedEscapes ∧ escape c = ['\\', d]) ∨
      (isControl c = false ∧ c ≠ '\\' ∧ c ≠ '"' ∧ escape c = [c]) ∨
      (isControl c = true ∧ isRestored c = false ∧ escape c = '\\' :: 'u' :: Digits.hex 4 c.toNat) := by
  unfold escape
  split
  · exact .inl ⟨'"', by simp [namedEscapes], rfl⟩
  · exact .inl ⟨'\\', by simp [namedEscapes], rfl⟩
  · exact .inl ⟨'n', by simp [namedEscapes], rfl⟩
  · exact .inl ⟨'r', by simp [namedEscapes], rfl⟩
  · exact .inl ⟨'t', by simp [namedEscapes], rfl⟩
  · rename_i hquote hslash hline hreturn htab
    right
    by_cases hc : isControl c
    · have hr : isRestored c = false := by simpa [isRestored, hc] using ⟨⟨hline, hreturn⟩, htab⟩
      exact .inr ⟨hc, hr, if_pos hc⟩
    · exact .inl ⟨Bool.eq_false_iff.2 hc, hslash, hquote, if_neg hc⟩

/-- What an escape is to a reader that knows the escapes by name only. -/
theorem escape_cases (c : Char) :
    (isRestored c = true ∧ ∃ d b, escape c = ['\\', d] ∧ Quoted.simple? d = some b ∧ Quoted.bytes c = [b]) ∨
      (isRestored c = true ∧ escape c = [c] ∧ c ≠ '\\' ∧ c ≠ '"') ∨
      isRestored c = false ∧ c.toNat < 160 ∧ escape c = '\\' :: 'u' :: Digits.hex 4 c.toNat := by
  rcases escape_forms c with ⟨d, hm, he⟩ | ⟨hc, hb, hq, he⟩ | ⟨hc, hr, he⟩
  · have hall : ∀ entry ∈ namedEscapes, ∃ b, Quoted.simple? entry.2 = some b ∧ Quoted.bytes entry.1 = [b] := by
      simp only [namedEscapes, List.mem_cons, List.not_mem_nil, or_false]
      rintro entry (rfl | rfl | rfl | rfl | rfl) <;> exact ⟨_, rfl, by decide⟩
    obtain ⟨b, hs, hbytes⟩ := hall (c, d) hm
    exact .inl ⟨isRestored_of_named hm, d, b, he, hs, hbytes⟩
  · exact .inr (.inl ⟨by simp [isRestored, hc], he, hb, hq⟩)
  · exact .inr (.inr ⟨hr, toNat_lt_of_isControl hc, he⟩)

theorem doubleBytes?_escape_append (c : Char) (cs : List Char) :
    Quoted.doubleBytes? (escape c ++ cs) =
      (Quoted.doubleBytes? cs).map ((readBack c).flatMap Quoted.bytes ++ ·) := by
  rcases escape_cases c with ⟨hr, d, b, he, hs, hb⟩ | ⟨hr, he, hb, _⟩ | ⟨hr, hlt, he⟩
  · have hd : Quoted.escape? d cs = some ([b], 0) := by simp [Quoted.escape?, hs]
    rw [he, readBack, if_pos hr]
    simpa [hb] using Quoted.doubleBytes?_escape hd
  · rw [he, readBack, if_pos hr]
    simpa using Quoted.doubleBytes?_of_ne hb cs
  · obtain ⟨hz, hall⟩ := hex_plain c.toNat hlt
    have hu : Quoted.escape? 'u' (Digits.hex 4 c.toNat ++ cs) = some (0x5c :: Quoted.bytes 'u', 0) := by
      have hh : (Digits.hex 4 c.toNat ++ cs).head? = some '0' := by rw [List.head?_append, hz]; rfl
      have hs : Quoted.simple? 'u' = none ∧ Digits.isDigit 8 'u' = false := by decide
      simp [Quoted.escape?, hs, hh]
    have hslash : Quoted.bytes '\\' = [0x5c] := by decide
    rw [he, readBack, hr, if_neg (by simp), he, List.cons_append, List.cons_append,
      Quoted.doubleBytes?_escape hu, List.drop_zero,
      Quoted.doubleBytes?_append fun d hd => (hall d hd).1, Option.map_map]
    simp [Function.comp_def, hslash]

theorem enclosable_plain {quote : Char} {cs rest : List Char} (h : ∀ c ∈ cs, c ≠ '\\' ∧ c ≠ quote)
    (hr : Lexer.Enclosable quote rest) : Lexer.Enclosable quote (cs ++ rest) := by
  induction cs with
  | nil => exact hr
  | cons c cs ih =>
      obtain ⟨hb, hq⟩ := h c (.head _)
      exact .plain hb hq (ih fun d hd => h d (List.mem_cons_of_mem c hd))

theorem enclosable_escape (c : Char) {cs : List Char} (h : Lexer.Enclosable '"' cs) :
    Lexer.Enclosable '"' (escape c ++ cs) := by
  rcases escape_cases c with ⟨_, d, _, he, _⟩ | ⟨_, he, hb, hq⟩ | ⟨_, hlt, he⟩
  · rw [he]
    exact .escaped d h
  · rw [he]
    exact .plain hb hq h
  · rw [he]
    exact .escaped 'u' (enclosable_plain (hex_plain c.toNat hlt).2 h)

theorem enclosable_escapes (cs : List Char) : Lexer.Enclosable '"' (cs.flatMap escape) := by
  induction cs with
  | nil => exact .nil
  | cons c cs ih => exact enclosable_escape c ih

theorem doubleBytes?_escapes (cs : List Char) :
    Quoted.doubleBytes? (cs.flatMap escape) = some ((cs.flatMap readBack).flatMap Quoted.bytes) := by
  induction cs with
  | nil => simp [Quoted.doubleBytes?]
  | cons c cs ih =>
      rw [List.flatMap_cons, doubleBytes?_escape_append, ih]
      simp

def reread (s : String) : String := String.ofList (s.toList.flatMap readBack)

theorem decode?_quote (s : String) : Quoted.decode? (quote s) = some (reread s) := by
  have hd : Quoted.dropClosing '"' (s.toList.flatMap escape ++ ['"']) = s.toList.flatMap escape := by
    simp [Quoted.dropClosing]
  simp [Quoted.decode?, quote, Quote.ofChar?, hd, doubleBytes?_escapes, Quoted.fromUTF8?_bytes, reread]

theorem flatMap_readBack_eq_iff (cs : List Char) : cs.flatMap readBack = cs ↔ ∀ c ∈ cs, isRestored c := by
  induction cs with
  | nil => simp
  | cons c cs ih =>
      rw [List.flatMap_cons, List.forall_mem_cons, ← ih, readBack]
      by_cases hr : isRestored c
      · simp [hr]
      · -- An escape starts with a backslash, which is read back as itself.
        have hc : c ≠ '\\' := by
          rintro rfl
          exact hr (by decide)
        rcases escape_cases c with ⟨h, _⟩ | ⟨h, _⟩ | ⟨_, _, he⟩
        · exact absurd h hr
        · exact absurd h hr
        · simp [hr, he, hc.symm]

theorem reread_eq_iff (s : String) : reread s = s ↔ ∀ c ∈ s.toList, isRestored c := by
  rw [← flatMap_readBack_eq_iff, reread, ← String.toList_inj, String.toList_ofList]

def Statement.texts : Statement → List String
  | .declaration _ ds => ds.filterMap fun d =>
    match d.init with
    | some (.literal _ ⟨.text s, _⟩) => some s
    | _ => none
  | _ => []

namespace Draft

def declared (v : String × String) : Draft := .variable v.1 ⟨.text v.2, quote v.2⟩

theorem flatMap_texts_nodes (start : Nat) (vars : List (String × String)) :
    (nodes start (vars.map declared)).flatMap Statement.texts = vars.map Prod.snd := by
  induction vars generalizing start with
  | nil => simp [nodes]
  | cons v vars ih =>
      rw [List.map_cons, nodes, List.flatMap_cons, ih]
      simp [declared, node, Statement.texts]

theorem exists_node_mem {d : Draft} {ds : List Draft} (h : d ∈ ds) (start : Nat) :
    ∃ n, d.node n ∈ nodes start ds := by
  induction ds generalizing start with
  | nil => cases h
  | cons e ds ih =>
      rw [nodes]
      rcases List.mem_cons.1 h with rfl | h
      · exact ⟨start, .head _⟩
      · obtain ⟨n, hn⟩ := ih h (start + (text e).utf8ByteSize + 1)
        exact ⟨n, List.mem_cons_of_mem _ hn⟩

end Draft

end Script

open Token Lexer

namespace Lexer

def declarationTokens (v : String × String) : List Token :=
  [ofText .word "var", ofText .word v.1, ofText .equals "=", ofText (.quoted .double true) (quote v.2),
    ofText .semicolon ";"]

theorem bareTokens_declared {v : String × String} (h : IsWord v.1.toList) (rest : List Char) :
    bareTokens ((Draft.declared v).text.toList ++ rest) = declarationTokens v ++ bareTokens rest := by
  have hvar : IsWord "var".toList := isWord_of_all (by decide)
  have he : (Draft.declared v).text.toList ++ rest = "var".toList ++ ' ' :: (v.1.toList ++ ' ' :: '=' :: ' ' ::
      ('"' :: v.2.toList.flatMap escape ++ '"' :: ';' :: rest)) := by
    simp [Draft.declared, Draft.text, quote]
  rw [he, bareTokens_word hvar (endsWord_cons (by decide) _), bareTokens_blank (by decide),
    bareTokens_word h (endsWord_cons (by decide) _), bareTokens_blank (by decide),
    bareTokens_mark (by decide), bareTokens_blank (by decide), bareTokens_quoted (enclosable_escapes _),
    bareTokens_mark (by decide)]
  simp [declarationTokens, quote, single]

theorem bareTokens_lines {vars : List (String × String)} (h : ∀ v ∈ vars, IsWord v.1.toList) :
    bareTokens (Draft.lines (vars.map Draft.declared)).toList = vars.flatMap declarationTokens := by
  induction vars with
  | nil => exact bareTokens_nil
  | cons v vars ih =>
      have hl : (Draft.lines ((v :: vars).map Draft.declared)).toList =
          (Draft.declared v).text.toList ++ '\n' :: (Draft.lines (vars.map Draft.declared)).toList := by
        simp [Draft.lines]
      rw [hl, bareTokens_declared (h v (.head _)), bareTokens_blank (by decide),
        ih fun w hw => h w (List.mem_cons_of_mem v hw), List.flatMap_cons]

end Lexer

theorem Transpile.lower_assignment {mode : Mode} {name : String} {value : Scalar} {l : Literal} (place : Excerpt)
    (hn : name ∉ reservedWords) (hl : Literal.ofScalar value = .ok l) :
    lower mode (.assignment place name value) = .ok (some (.variable name l), []) := by
  have hc : checkName name = .ok () := if_neg hn
  rw [lower, declare, hc, hl]
  rfl

namespace Pattern

theorem bare_eq_ofText {t : Token} {kind : Kind} {text : String} (h : t.bare = ofText kind text) :
    t.kind = kind ∧ t.text = text := by
  simp only [ofText, bare, Token.mk.injEq] at h
  exact ⟨h.2.2.1, h.2.2.2⟩

theorem items_declaration {v : String × String} {ts more : List Token} (h : ts.map bare = declarationTokens v ++ more) :
    ∃ place us, items ts = .assignment place v.1 (.text (reread v.2)) :: items us ∧ us.map bare = more ∧
      ∃ before, ts = before ++ us := by
  obtain ⟨t, ts, rfl, ht, h⟩ := List.map_eq_cons_iff.1 h
  obtain ⟨n, ts, rfl, hname, h⟩ := List.map_eq_cons_iff.1 h
  obtain ⟨equals, ts, rfl, he, h⟩ := List.map_eq_cons_iff.1 h
  obtain ⟨literal, ts, rfl, hl, h⟩ := List.map_eq_cons_iff.1 h
  obtain ⟨semi, ts, rfl, hs, h⟩ := List.map_eq_cons_iff.1 h
  have hvar : t.isWord "var" := by
    rw [isWord, (bare_eq_ofText ht).1, (bare_eq_ofText ht).2]
    decide
  have hspells : Spells t (n :: equals :: literal :: semi :: ts) _ :=
    .writtenOut hvar (bare_eq_ofText hname).1 (bare_eq_ofText he).1 (bare_eq_ofText hl).1 (bare_eq_ofText hs).1
  have hdecode : Quoted.decode? literal.text = some (reread v.2) := by
    rw [(bare_eq_ofText hl).2, decode?_quote]
  rw [items_of_assignment hspells hdecode, (bare_eq_ofText hname).2]
  exact ⟨_, ts, rfl, h, [t, n, equals, literal, semi], rfl⟩

theorem lowerAll_declarations {vars : List (String × String)} {ts : List Token} (mode : Mode)
    (h : ts.map bare = vars.flatMap declarationTokens) (hn : ∀ v ∈ vars, v.1 ∉ reservedWords) :
    (∀ f, .fault f ∉ items ts) ∧ Transpile.lowerAll mode (items ts) =
      .ok (vars.map fun v => Draft.declared (v.1, reread v.2), []) := by
  induction vars generalizing ts with
  | nil =>
      obtain rfl : ts = [] := by simpa using h
      rw [items]
      exact ⟨by simp, rfl⟩
  | cons v vars ih =>
      rw [List.flatMap_cons] at h
      obtain ⟨place, us, hi, hus, _⟩ := items_declaration h
      obtain ⟨hf, hlower⟩ := ih hus fun w hw => hn w (List.mem_cons_of_mem v hw)
      rw [hi]
      constructor
      · intro f hm
        rcases List.mem_cons.1 hm with hm | hm
        · cases hm
        · exact hf f hm
      · exact Transpile.lowerAll_of_lower (Transpile.lower_assignment _ (hn v (.head _)) rfl) hlower

end Pattern

/-- A source without faults is taken whole. -/
theorem Source.pulled_of_faultless {source : String} (h : ∀ f, .fault f ∉ Pattern.scan source) :
    (plain source).pulled = Pattern.scan source := by
  obtain ⟨rest, hr, hink⟩ := Run.pulled_append (Text.inkEnd source) 0 (Pattern.scan source)
  have hn : rest = [] := by
    rcases hink with hn | hink
    · exact hn
    rcases Pattern.scan_remainder hr hink with hn | ⟨place, rfl, _⟩
    · exact hn
    · refine absurd ?_ (h (.unrecognized place))
      rw [hr]
      simp
  rw [hn, List.append_nil] at hr
  exact hr.symm

theorem declared_of_mem {mode : Mode} {source : String} {drafts : List Draft} {ds : List Diagnostic}
    (h : Transpile.lowerAll mode (Source.plain source).pulled = .ok (drafts, ds)) {d : Draft} (hd : d ∈ drafts)
    (hk : ∀ s ∈ Draft.nodes 0 drafts, s.kind = "VariableDeclaration") :
    ∃ v, d = .declared v ∧ IsWord v.1.toList ∧ v.1 ∉ reservedWords := by
  obtain ⟨n, hm⟩ := Draft.exists_node_mem hd 0
  have hkind := hk _ hm
  cases sourced_of_pulled h d hd with
  | call | function => simp [Draft.node, Statement.kind] at hkind
  | @«variable» name s hn => exact ⟨(name, s), rfl, hn.1, hn.2⟩

theorem exists_map_declared {p : String × String → Prop} {drafts : List Draft}
    (h : ∀ d ∈ drafts, ∃ v, d = .declared v ∧ p v) :
    ∃ vars : List (String × String), drafts = vars.map .declared ∧ ∀ v ∈ vars, p v := by
  induction drafts with
  | nil => exact ⟨[], rfl, by simp⟩
  | cons d drafts ih =>
      obtain ⟨v, rfl, hv⟩ := h d (.head _)
      obtain ⟨vars, rfl, hvars⟩ := ih fun e he => h e (List.mem_cons_of_mem _ he)
      exact ⟨v :: vars, rfl, List.forall_mem_cons.2 ⟨hv, hvars⟩⟩

theorem lowerAll_lines {vars : List (String × String)}
    (h : ∀ v ∈ vars, IsWord v.1.toList ∧ v.1 ∉ reservedWords) :
    Transpile.lowerAll .lenient (Source.plain (Draft.lines (vars.map .declared))).pulled =
      .ok ((vars.map fun v => (v.1, reread v.2)).map .declared, []) := by
  have ht := bareTokens_lines fun v hv => (h v hv).1
  obtain ⟨hf, hlower⟩ := Pattern.lowerAll_declarations .lenient ht fun v hv => (h v hv).2
  rw [Source.pulled_of_faultless hf, List.map_map]
  exact hlower

/-- Declarations that are written out are read again. They are read as what they were if and only if no string
has a control character that is written by its code. -/
theorem transpile_reread {source : String} {out : Transpiled}
    (h : transpile .lenient (.plain source) = .ok out)
    (hd : ∀ s ∈ out.program.body, s.kind = "VariableDeclaration") :
    ∃ again, transpile .lenient (.plain out.text) = .ok again ∧ again.diagnostics = [] ∧
      (again.program = out.program ∧ again.text = out.text ↔
        ∀ s ∈ out.program.body, ∀ v ∈ s.texts, ∀ c ∈ v.toList, isRestored c) := by
  obtain ⟨drafts, ds, hlower, _⟩ := Transpile.lowerAll_lenient (Source.plain source).pulled
  cases (transpile_of_lowerAll hlower).symm.trans h
  obtain ⟨vars, rfl, hvars⟩ := exists_map_declared fun d hm => declared_of_mem hlower hm hd
  refine ⟨_, transpile_of_lowerAll (lowerAll_lines hvars), rfl, ?_⟩
  have htexts : (∀ s ∈ Draft.nodes 0 (vars.map .declared), ∀ v ∈ s.texts, ∀ c ∈ v.toList, isRestored c) ↔
      ∀ v ∈ vars, reread v.2 = v.2 := by
    have hmem (v : String) : (∃ s ∈ Draft.nodes 0 (vars.map .declared), v ∈ s.texts) ↔
        v ∈ vars.map Prod.snd := by
      rw [← Draft.flatMap_texts_nodes 0 vars, List.mem_flatMap]
    constructor
    · intro hall v hv
      obtain ⟨s, hs, hm⟩ := (hmem v.2).2 (List.mem_map_of_mem hv)
      exact (reread_eq_iff v.2).2 (hall s hs v.2 hm)
    · intro hall s hs v hm
      obtain ⟨w, hw, rfl⟩ := List.mem_map.1 ((hmem v).1 ⟨s, hs, hm⟩)
      exact (reread_eq_iff w.2).1 (hall w hw)
  rw [htexts]
  constructor
  · rintro ⟨hp, _⟩
    have hb := congrArg (fun p => p.body.flatMap Statement.texts) hp
    simp only [Draft.flatMap_texts_nodes] at hb
    rw [List.map_map] at hb
    exact List.map_inj_left.1 hb
  · intro hr
    have he : (vars.map fun v => (v.1, reread v.2)) = vars := by
      have hid : ∀ v ∈ vars, (v.1, reread v.2) = id v := fun v hv => by rw [hr v hv]; rfl
      rw [List.map_congr_left hid, List.map_id]
    rw [he]
    exact ⟨rfl, rfl⟩

theorem transpile_reread_tab :
    ∃ out again, transpile .lenient (.plain "$a = \"x\\ty\";") = .ok out ∧ out.program.body ≠ [] ∧
      transpile .lenient (.plain out.text) = .ok again ∧ again.diagnostics = [] ∧
      again.program = out.program ∧ again.text = out.text := by
  have h : transpile .lenient (.plain "$a = \"x\\ty\";") = .ok
      { program := ⟨⟨0, 16⟩, [.declaration ⟨0, 15⟩ [⟨⟨4, 14⟩, ⟨⟨4, 5⟩, "a"⟩,
          some (.literal ⟨8, 14⟩ ⟨.text "x\ty", "\"x\\ty\""⟩)⟩]]⟩
        text := "var a = \"x\\ty\";\n"
        diagnostics := []
        summary := ⟨1, 0, 0, 0⟩ } := by cbv
  obtain ⟨again, hr, hn, hi⟩ := transpile_reread h (by decide)
  have he := hi.2 (by simp [Statement.texts, isRestored, isControl])
  exact ⟨_, again, h, List.cons_ne_nil _ _, hr, hn, he.1, he.2⟩

theorem transpile_reread_escape :
    ∃ out again, transpile .lenient (.plain "$a = \"\\e\";") = .ok out ∧
      (∀ s ∈ out.program.body, s.kind = "VariableDeclaration") ∧ out.text = "var a = \"\\u001b\";\n" ∧
      transpile .lenient (.plain out.text) = .ok again ∧ again.text = "var a = \"\\\\u001b\";\n" := by
  have h : transpile .lenient (.plain "$a = \"\\e\";") = .ok
      { program := ⟨⟨0, 18⟩, [.declaration ⟨0, 17⟩ [⟨⟨4, 16⟩, ⟨⟨4, 5⟩, "a"⟩,
          some (.literal ⟨8, 16⟩ ⟨.text "\x1b", "\"\\u001b\""⟩)⟩]]⟩
        text := "var a = \"\\u001b\";\n"
        diagnostics := []
        summary := ⟨1, 0, 0, 0⟩ } := by cbv
  have hagain : transpile .lenient (.plain "var a = \"\\u001b\";\n") = .ok
      { program := ⟨⟨0, 19⟩, [.declaration ⟨0, 18⟩ [⟨⟨4, 17⟩, ⟨⟨4, 5⟩, "a"⟩,
          some (.literal ⟨8, 17⟩ ⟨.text "\\u001b", "\"\\\\u001b\""⟩)⟩]]⟩
        text := "var a = \"\\\\u001b\";\n"
        diagnostics := []
        summary := ⟨1, 0, 0, 0⟩ } := by cbv
  exact ⟨_, _, h, by decide, rfl, hagain, rfl⟩

end PhpTranspiler
