import PhpTranspiler.Proofs.Indexed.Pattern

namespace PhpTranspiler.Indexed

section

variable {source : String} {t : Token} {ts us : List Token}

theorem classify_eq (h : Legible source ts) :
    classify source (ts.map Spot.ofToken) = .ok (Pattern.classify ts) := by
  cases ts with
  | nil => rfl
  | cons t ts =>
      obtain ⟨a, ha, hra⟩ := finds_assignment h
      obtain ⟨c, hc, hrc⟩ := finds_call h
      obtain ⟨d, hd, hrd⟩ := finds_function h
      have hsome {α : Type} {R : α → Pattern.Match → Prop} {x : Option α} {y : Option Pattern.Match}
          (hr : Option.Rel R x y) : y.isSome = x.isSome := by
        cases hr <;> rfl
      simp only [classify, ha, hc, hd, ok_bind, Pattern.classify, List.find?_cons, Pattern.match?, hsome hra, hsome hrc,
        hsome hrd]
      cases a.isSome <;> cases c.isSome <;> cases d.isSome <;> rfl

theorem continuesAt_eq {before rest : List Token} (h : Legible source us) (hus : us = before ++ rest) :
    continuesAt source (us.map Spot.ofToken) before.length = .ok (Pattern.continues rest) := by
  have hg := get_behind hus 0
  rw [Nat.add_zero] at hg
  rw [continuesAt, hg]
  cases rest with
  | nil => rfl
  | cons t rest =>
      have ht : t ∈ us := by simp [hus]
      exact anyM_ok fun word _ => h.isWord ht word

theorem element_behind {before rest : List Token} (hus : us = before ++ t :: rest) :
    element (us.map Spot.ofToken) before.length = .ok (Spot.ofToken t) := by
  have hg := get_behind hus 0
  rw [Nat.add_zero] at hg
  exact element_of_get hg

/-- Each token that the loop looks at is there, and no bracket is closed that is not open. -/
theorem skipFrom_eq {before rest : List Token} (depth : Nat) (h : Legible source us) (hus : us = before ++ rest)
    (hb : 0 < before.length) :
    skipFrom source (us.map Spot.ofToken) before.length depth = .ok (before.length + Pattern.chunkTail depth rest) := by
  induction rest generalizing before depth with
  | nil =>
      have hl : (us.map Spot.ofToken).length = before.length := by simp [hus]
      rw [skipFrom, hl, dif_neg (Nat.lt_irrefl _), Nat.max_eq_left hb]
      rfl
  | cons t rest ih =>
      have hlt : before.length < (us.map Spot.ofToken).length := by simp [hus]
      have hus' : us = (before ++ [t]) ++ rest := by simp [hus]
      have hlen : (before ++ [t]).length = before.length + 1 := List.length_append
      have hnext (depth : Nat) : skipFrom source (us.map Spot.ofToken) (before.length + 1) depth =
          .ok (before.length + (Pattern.chunkTail depth rest + 1)) := by
        rw [← hlen, ih depth hus' (by omega), hlen, Nat.add_assoc, Nat.add_comm 1]
      rw [skipFrom, dif_pos hlt, element_behind hus, ok_bind, Spot.kind_ofToken, Pattern.chunkTail]
      cases hk : t.kind with
      | opening b => exact hnext (depth + 1)
      | closing b =>
          cases depth with
          | zero => simp [Nat.max_eq_left hb]
          | succ depth =>
              have hc := continuesAt_eq h hus'
              rw [hlen] at hc
              simp only [Nat.add_eq_zero_iff, Nat.one_ne_zero, and_false, if_false, minus_of_le (Nat.le_add_left 1 depth),
                Nat.add_sub_cancel, ok_bind, hc, hnext]
              by_cases hcurly : b = .curly
              · simp only [hcurly, if_true, true_and]
                split <;> rfl
              · simp [hcurly]
      | semicolon =>
          by_cases hd : depth = 0 <;> simp [hd, hnext]
      | openTag | closeTag =>
          by_cases hd : depth = 0 <;> simp [hd, hb, hnext]
      | _ => exact hnext depth

theorem skip_eq (h : Legible source (t :: ts)) :
    skip source ((t :: ts).map Spot.ofToken) = .ok (Pattern.chunk t ts + 1) := by
  have hnext (depth : Nat) : skipFrom source ((t :: ts).map Spot.ofToken) 1 depth =
      .ok (Pattern.chunkTail depth ts + 1) := by
    rw [Nat.add_comm]
    exact skipFrom_eq depth h (show t :: ts = [t] ++ ts from rfl) (Nat.zero_lt_one)
  have hget : element ((t :: ts).map Spot.ofToken) 0 = .ok (Spot.ofToken t) := rfl
  rw [skip, skipFrom, dif_pos (by simp), hget, ok_bind, Spot.kind_ofToken, Pattern.chunk]
  cases hk : t.kind with
  | opening b => exact hnext 1
  | closing b => rfl
  | semicolon => rfl
  | _ => exact hnext 0

theorem spanOf_eq (h : Legible source (t :: ts)) {n : Nat} (hn : n ≤ ts.length) :
    spanOf ((t :: ts).map Spot.ofToken) (n + 1) = .ok (Pattern.excerpt t ts n).span := by
  obtain ⟨first, last, hfirst, hlast, hspan⟩ := (Pattern.excerpt_marks h.standIn n).spans
  have hget : (t :: ts)[n]? = some last := by
    have ht : t :: ts.take n = (t :: ts).take (n + 1) := rfl
    rw [ht, List.getLast?_eq_getElem?, List.length_take, List.length_cons, Nat.min_eq_left (by omega),
      Nat.add_sub_cancel, List.getElem?_take_of_lt (by omega)] at hlast
    exact hlast
  have hl : element ((t :: ts).map Spot.ofToken) n = .ok (Spot.ofToken last) := by
    apply element_of_get
    rw [map_ofToken_get, hget]
    rfl
  have hf : element ((t :: ts).map Spot.ofToken) 0 = .ok (Spot.ofToken t) := rfl
  cases hfirst
  rw [spanOf, hf, ok_bind, minus_of_le (by omega), ok_bind, Nat.add_sub_cancel, hl, hspan]
  rfl

theorem excerptOf_eq (h : Legible source (t :: ts)) {n : Nat} (hn : n ≤ ts.length) :
    excerptOf source ((t :: ts).map Spot.ofToken) (n + 1) = .ok (Pattern.excerpt t ts n) := by
  rw [excerptOf, spanOf_eq h hn, ok_bind, cut_of_standsAt (Pattern.excerpt_marks h.standIn n).text]
  rfl

theorem unrecognized_eq (h : Legible source (t :: ts)) :
    unrecognized source ((t :: ts).map Spot.ofToken) = .ok (Pattern.unrecognized t ts) := by
  rw [unrecognized, skip_eq h, ok_bind, excerptOf_eq h (Pattern.chunk_le t ts)]
  rfl

theorem extract_assignment (read : List Spot → Except Trap (List Item)) (h : Legible source (t :: ts)) :
    extractWith read source .assignment ((t :: ts).map Spot.ofToken) = .ok (Pattern.extract .assignment t ts) := by
  obtain ⟨found, ha, hrel⟩ := finds_assignment h
  simp only [extractWith, ha, ok_bind, Pattern.extract, Pattern.match?]
  generalize hm : Pattern.assignment? t ts = m at hrel
  cases hrel with
  | none => rw [unrecognized_eq h]; rfl
  | @some a m hof =>
      obtain ⟨literal, rfl, hget, hpos⟩ := hof
      have hmore := (Pattern.assignment?_spells hm).more_le
      have hlen : a.length - 1 + 1 = a.length := by omega
      have hliteral : element ((t :: ts).map Spot.ofToken) a.value = .ok (Spot.ofToken literal) := by
        apply element_of_get
        rw [map_ofToken_get, hget]
        rfl
      have hspan := spanOf_eq h hmore
      have hplace := excerptOf_eq h hmore
      rw [hlen] at hspan hplace
      simp only [hliteral, ok_bind, h.text (List.mem_of_getElem? hget), unquote_eq, hspan, hplace, Pattern.Match.item,
        hlen]
      cases Quoted.decode? literal.text <;> rfl

theorem extract_call (read : List Spot → Except Trap (List Item)) (h : Legible source (t :: ts)) :
    extractWith read source .call ((t :: ts).map Spot.ofToken) = .ok (Pattern.extract .call t ts) := by
  obtain ⟨found, hc, hrel⟩ := finds_call h
  simp only [extractWith, hc, ok_bind, Pattern.extract, Pattern.match?]
  generalize hm : Pattern.call? t ts = m at hrel
  cases hrel with
  | none => rw [unrecognized_eq h]; rfl
  | @some close m hof =>
      obtain ⟨args, rfl, hargs⟩ := hof
      have hmore := (Pattern.call?_spells hm).more_le
      have hfirst : element ((t :: ts).map Spot.ofToken) 0 = .ok (Spot.ofToken t) := rfl
      simp only [hfirst, ok_bind, h.text (.head ts), hargs, excerptOf_eq h hmore]
      rfl

theorem extract_function {read : List Spot → Except Trap (List Item)} (h : Legible source (t :: ts))
    (hr : ∀ us, Legible source us → us.length < ts.length + 1 → read (us.map Spot.ofToken) = .ok (Pattern.items us)) :
    extractWith read source .function ((t :: ts).map Spot.ofToken) = .ok (Pattern.extract .function t ts) := by
  obtain ⟨found, hd, hrel⟩ := finds_function h
  simp only [extractWith, hd, ok_bind, Pattern.extract, Pattern.match?]
  generalize hm : Pattern.function? t ts = m at hrel
  cases hrel with
  | none => rw [unrecognized_eq h]; rfl
  | @some d m hof =>
      obtain ⟨name, body, text, rfl, hget, htext, hstretch, hbody⟩ := hof
      have hmore := (Pattern.function?_spells hm).more_le
      have hlt := Pattern.match?_body (show Pattern.match? .function t ts = some _ from hm)
      have hname : element ((t :: ts).map Spot.ofToken) 1 = .ok (Spot.ofToken name) := by
        apply element_of_get
        rw [map_ofToken_get, hget]
        rfl
      simp only [hname, ok_bind, h.text (List.mem_of_getElem? hget), htext, hstretch, hr body hbody hlt,
        excerptOf_eq h hmore]
      rfl

theorem extractWith_eq {read : List Spot → Except Trap (List Item)} (h : Legible source (t :: ts))
    (hr : ∀ us, Legible source us → us.length < ts.length + 1 → read (us.map Spot.ofToken) = .ok (Pattern.items us))
    (shape : Shape) :
    extractWith read source shape ((t :: ts).map Spot.ofToken) = .ok (Pattern.extract shape t ts) := by
  cases shape with
  | assignment => exact extract_assignment read h
  | call => exact extract_call read h
  | function => exact extract_function h hr

theorem exists_first (ht : t.isTag = false) (ts : List Token) :
    (Pattern.classify (t :: ts) = none ∧
      Pattern.items (t :: ts) = .fault (Pattern.unrecognized t ts) :: Pattern.items (ts.drop (Pattern.chunk t ts))) ∨
    ∃ shape, Pattern.classify (t :: ts) = some shape ∧
      ((∃ item more, Pattern.extract shape t ts = .ok (item, more + 1) ∧ more ≤ ts.length ∧
        Pattern.items (t :: ts) = item :: Pattern.items (ts.drop more)) ∨
      ∃ fault, Pattern.extract shape t ts = .error fault ∧
        Pattern.items (t :: ts) = .fault fault :: Pattern.items (ts.drop (Pattern.chunk t ts))) := by
  cases hc : Pattern.classify (t :: ts) with
  | none =>
      have hr : Pattern.recognize? t ts = none := by rw [Pattern.recognize?, hc, Option.bind_none]
      exact .inl ⟨rfl, Pattern.items_of_none ht hr⟩
  | some shape =>
      obtain ⟨m, hm⟩ : ∃ m, Pattern.match? shape t ts = some m :=
        Option.isSome_iff_exists.1 (by simpa using List.find?_some hc)
      have hr : Pattern.recognize? t ts = some m := by rw [Pattern.recognize?, hc, Option.bind_some, hm]
      refine .inr ⟨shape, rfl, ?_⟩
      simp only [Pattern.extract, hm]
      cases hi : m.item t ts (Pattern.items m.body) with
      | ok item =>
          exact .inl ⟨item, m.more, rfl, (Pattern.match?_spells hm).more_le, Pattern.items_of_ok ht hr hi⟩
      | error fault => exact .inr ⟨fault, rfl, Pattern.items_of_error ht hr hi⟩

theorem items_dropWhile (ts : List Token) : Pattern.items (ts.dropWhile Token.isTag) = Pattern.items ts := by
  induction ts with
  | nil => rfl
  | cons t ts ih =>
      by_cases ht : t.isTag
      · rw [List.dropWhile_cons_of_pos ht, ih, Pattern.items_of_tag ht]
      · rw [List.dropWhile_cons_of_neg ht]

theorem length_takeWhile_isTag (ts : List Token) :
    ((ts.map Spot.ofToken).takeWhile Spot.isTag).length = (ts.takeWhile Token.isTag).length := by
  rw [List.takeWhile_map, List.length_map]
  rfl

theorem stretch_dropWhile (ts : List Token) :
    stretch (ts.map Spot.ofToken) (ts.takeWhile Token.isTag).length (ts.map Spot.ofToken).length =
      .ok ((ts.dropWhile Token.isTag).map Spot.ofToken) := by
  have hts := List.takeWhile_append_dropWhile (p := Token.isTag) (l := ts)
  exact stretch_of_rest (rest_map ⟨_, hts.symm, rfl⟩ Spot.ofToken)

theorem stepWith_first (read : List Spot → Except Trap (List Item)) (h : Legible source ts)
    (hd : ts.dropWhile Token.isTag = t :: us)
    (hr : ∀ vs, Legible source vs → vs.length < us.length + 1 → read (vs.map Spot.ofToken) = .ok (Pattern.items vs)) :
    ∃ item n, stepWith read source (ts.map Spot.ofToken) =
        .ok (some (item, (ts.takeWhile Token.isTag).length + (n + 1))) ∧ n ≤ us.length ∧
      Pattern.items (t :: us) = item :: Pattern.items (us.drop n) := by
  have hl : Legible source (t :: us) := by
    rw [← List.takeWhile_append_dropWhile (p := Token.isTag) (l := ts), hd] at h
    exact h.append.2
  have ht : t.isTag = false := by
    have hn := List.head?_dropWhile_not Token.isTag ts
    rw [hd] at hn
    exact hn
  have hempty : ((t :: us).map Spot.ofToken).isEmpty = false := rfl
  have hchunk := Pattern.chunk_le t us
  rw [stepWith, length_takeWhile_isTag, stretch_dropWhile, hd]
  simp only [ok_bind, hempty, Bool.false_eq_true, if_false, classify_eq hl, skip_eq hl]
  rcases exists_first ht us with ⟨hc, hi⟩ | ⟨shape, hc, ⟨item, more, he, hm, hi⟩ | ⟨fault, he, hi⟩⟩
  · refine ⟨_, _, ?_, hchunk, hi⟩
    simp only [hc, excerptOf_eq hl hchunk, ok_bind]
    rfl
  · refine ⟨_, _, ?_, hm, hi⟩
    simp only [hc, extractWith_eq hl hr, ok_bind, he]
    rfl
  · refine ⟨_, _, ?_, hchunk, hi⟩
    simp only [hc, extractWith_eq hl hr, ok_bind, he]
    rfl

theorem stepWith_eq (read : List Spot → Except Trap (List Item)) (h : Legible source ts)
    (hr : ∀ us, Legible source us → us.length < ts.length → read (us.map Spot.ofToken) = .ok (Pattern.items us)) :
    (stepWith read source (ts.map Spot.ofToken) = .ok none ∧ Pattern.items ts = []) ∨
      ∃ item n, stepWith read source (ts.map Spot.ofToken) = .ok (some (item, n)) ∧ 0 < n ∧ n ≤ ts.length ∧
        Pattern.items ts = item :: Pattern.items (ts.drop n) := by
  cases hd : ts.dropWhile Token.isTag with
  | nil =>
      refine .inl ⟨?_, by rw [← items_dropWhile, hd, Pattern.items]⟩
      rw [stepWith, length_takeWhile_isTag, stretch_dropWhile, hd]
      rfl
  | cons t us =>
      have hts := List.takeWhile_append_dropWhile (p := Token.isTag) (l := ts)
      have hlen := congrArg List.length hts
      rw [hd, List.length_append, List.length_cons] at hlen
      obtain ⟨item, n, hs, hn, hi⟩ := stepWith_first read h hd fun vs hv hlt => hr vs hv (by omega)
      have hdrop : ts.drop ((ts.takeWhile Token.isTag).length + (n + 1)) = us.drop n := by
        rw [← List.drop_drop, (take_takeWhile Token.isTag ts).2, hd, List.drop_succ_cons]
      exact .inr ⟨item, _, hs, by omega, by omega, by rw [← items_dropWhile, hd, hi, hdrop]⟩

/-- The loop of the reader ends before its rounds do, since each of them takes a token at least, and a body has fewer
tokens than its function. -/
theorem itemsFrom_eq {rounds : Nat} {before : List Token} (h : Legible source us) (hus : us = before ++ ts)
    (hr : ts.length < rounds) :
    itemsFrom source rounds (us.map Spot.ofToken) before.length = .ok (Pattern.items ts) := by
  induction rounds generalizing us ts before with
  | zero => omega
  | succ rounds ih =>
      have hl : Legible source ts := by
        rw [hus] at h
        exact h.append.2
      have hstretch : stretch (us.map Spot.ofToken) before.length (us.map Spot.ofToken).length =
          .ok (ts.map Spot.ofToken) :=
        stretch_of_rest (rest_map ⟨before, hus, rfl⟩ Spot.ofToken)
      have hread (vs : List Token) (hv : Legible source vs) (hlt : vs.length < ts.length) :
          itemsFrom source rounds (vs.map Spot.ofToken) 0 = .ok (Pattern.items vs) :=
        ih hv (show vs = [] ++ vs from rfl) (by omega)
      rw [itemsFrom, hstretch, ok_bind]
      rcases stepWith_eq (itemsFrom source rounds · 0) hl hread with ⟨hs, hi⟩ | ⟨item, n, hs, hpos, hn, hi⟩
      · rw [hs, hi]
        rfl
      · have hnext := ih h (show us = (before ++ ts.take n) ++ ts.drop n by simp [hus])
          (by rw [List.length_drop]; omega)
        rw [List.length_append, List.length_take, Nat.min_eq_left hn] at hnext
        rw [hs, hi, ok_bind]
        simp only [hnext, ok_bind]
        rfl

theorem items_eq (h : Legible source ts) : items source (ts.map Spot.ofToken) = .ok (Pattern.items ts) :=
  itemsFrom_eq h (show ts = [] ++ ts from rfl) (by simp)

theorem extract_eq (h : Legible source (t :: ts)) (shape : Shape) :
    extract source shape ((t :: ts).map Spot.ofToken) = .ok (Pattern.extract shape t ts) :=
  extractWith_eq h (fun _ hus _ => items_eq hus) shape

end

theorem scan_eq (source : String) : scan source = .ok (Pattern.scan source) := by
  rw [scan, tokenize_eq, ok_bind, items_eq (legible_tokenize source)]
  rfl

end PhpTranspiler.Indexed
