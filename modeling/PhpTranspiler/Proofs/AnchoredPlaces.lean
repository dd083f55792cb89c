import PhpTranspiler.Proofs.AnchoredParts
import PhpTranspiler.Proofs.Layout
import PhpTranspiler.Proofs.ShortestDigits

namespace PhpTranspiler

namespace Script

namespace Draft

open Script.Part

variable {start : Nat}

theorem drafted_argument {p : String → Prop} {a : Argument} (h : a.Made p) :
    Drafted (.expression (argument start a)) := by
  cases h with
  | «variable» _ => exact .intro trivial (List.forall_mem_nil _)
  | literal hl => exact .intro ⟨_, hl⟩ (List.forall_mem_nil _)

theorem drafted_arguments {p : String → Prop} {args : List Argument} (h : ∀ a ∈ args, a.Made p) :
    ∀ e ∈ arguments start args, Drafted (.expression e) := by
  induction args generalizing start with
  | nil => exact List.forall_mem_nil _
  | cons a args ih =>
      obtain ⟨ha, hargs⟩ := List.forall_mem_cons.1 h
      exact List.forall_mem_cons.2 ⟨drafted_argument ha, ih hargs⟩

theorem drafted_identifier (id : Identifier) : Drafted (.identifier id) := .intro trivial (List.forall_mem_nil _)

theorem drafted_callee (c : Callee) : Drafted (.expression (callee start c)) := by
  cases c with
  | plain name => exact .intro trivial (List.forall_mem_nil _)
  | member object property =>
      refine .intro ⟨_, rfl⟩ (List.forall_mem_cons.2 ⟨.intro trivial (List.forall_mem_nil _), ?_⟩)
      exact List.forall_mem_singleton.2 (drafted_identifier _)

theorem drafted_nodes {ds : List Draft} (h : ∀ d ∈ ds, ∀ start, Drafted (.statement (d.node start))) :
    ∀ s ∈ nodes start ds, Drafted (.statement s) := by
  induction ds generalizing start with
  | nil =>
      rw [nodes]
      exact List.forall_mem_nil _
  | cons d ds ih =>
      obtain ⟨hd, hds⟩ := List.forall_mem_cons.1 h
      rw [nodes]
      exact List.forall_mem_cons.2 ⟨hd start, ih hds⟩

theorem drafted_node {p : String → Prop} {d : Draft} (h : d.Made p) (start : Nat) :
    Drafted (.statement (d.node start)) := by
  induction h generalizing start with
  | «variable» _ hl =>
      rw [node]
      refine .intro trivial (List.forall_mem_singleton.2 (.intro trivial ?_))
      refine List.forall_mem_cons.2 ⟨drafted_identifier _, List.forall_mem_singleton.2 ?_⟩
      exact .intro ⟨_, hl⟩ (List.forall_mem_nil _)
  | call _ ha =>
      rw [node]
      refine .intro trivial (List.forall_mem_singleton.2 (.intro trivial ?_))
      exact List.forall_mem_cons.2 ⟨drafted_callee _, List.forall_mem_map.2 (drafted_arguments ha)⟩
  | function _ _ _ ih =>
      rw [node]
      refine .intro ⟨rfl, rfl⟩ (List.forall_mem_cons.2 ⟨drafted_identifier _, List.forall_mem_singleton.2 ?_⟩)
      exact .intro trivial (List.forall_mem_map.2 (drafted_nodes ih))

end Draft

theorem Page.drafted_program {p : String → Prop} {ds : List Draft} (h : ∀ d ∈ ds, d.Made p) :
    Part.Drafted (.program (ds.foldl append empty).program) := by
  rw [foldl_append]
  exact .intro trivial (List.forall_mem_map.2 (Draft.drafted_nodes fun d hd => Draft.drafted_node (h d hd)))

theorem Literal.raw_of_number {s : Scalar} {l : Literal} {x : Binary64} (h : Literal.ofScalar s = .ok l)
    (hv : l.value = .number x) : x.isFinite ∧ l.raw = numberText x := by
  cases s with
  | number numeral =>
      rw [Literal.ofScalar] at h
      split at h
      · rename_i y hy
        cases h
        cases hv
        exact ⟨(Option.filter_eq_some_iff.1 hy).2, rfl⟩
      · cases h
  | text s =>
      cases h
      cases hv
  | bool b => cases b <;> cases h <;> cases hv
  | null =>
      cases h
      cases hv

theorem numberText_of_below {x : Binary64} (hf : x.isFinite) (hx : x.isBelowZero) :
    ∃ raw, (numberText x).toList.dropWhile (· == '-') = raw ∧ numberText x = "-" ++ String.ofList raw ∧
      x.neg.negative = false ∧ x.neg.rank ≠ 0 ∧ Numeral.read? (String.ofList raw) = some x.neg := by
  obtain ⟨negative, rank⟩ := x
  rw [Binary64.isBelowZero, Bool.and_eq_true, bne_iff_ne] at hx
  obtain ⟨rfl, hr⟩ := hx
  have hlt : rank < Binary64.infinityRank := of_decide_eq_true hf
  have hb : Binary64.isBelowZero ⟨true, rank⟩ := Bool.and_eq_true_iff.2 ⟨rfl, bne_iff_ne.2 hr⟩
  refine ⟨magnitudeText rank, ?_, ?_, rfl, hr, read?_magnitudeText (Nat.pos_of_ne_zero hr) hlt⟩
  · rw [numberText, if_pos hb, String.toList_ofList, List.singleton_append, List.dropWhile_cons_of_pos rfl,
      dropWhile_magnitudeText]
  · rw [numberText, if_pos hb, ← String.toList_inj]
    simp

end Script

namespace Anchored

section

variable {base : UInt32} {text : String} {span : Span}

/-- A node has the place of a span, counted from `base` without overflow, in a text that starts there. Unless the node
is a parameter, its own text stands at this place. -/
structure Part.Anchors (base : UInt32) (text : String) (span : Span) (q : Part) : Prop where
  place : q.place = .ofSpan base span
  lo : q.place.lo.toNat = base.toNat + span.start
  hi : q.place.hi.toNat = base.toNat + span.stop
  bounds : base ≤ q.place.lo ∧ q.place.lo ≤ q.place.hi ∧ q.place.hi.toNat ≤ base.toNat + text.utf8ByteSize
  rendered : q.isParam = false →
    Text.StandsAt text ⟨q.place.lo.toNat - base.toNat, q.place.hi.toNat - base.toNat⟩ q.render

theorem Part.Anchors.of_span {q : Part} (hp : q.place = .ofSpan base span)
    (hb : base.toNat + text.utf8ByteSize < 2 ^ 32) (h : span.start ≤ span.stop) (hs : span.stop ≤ text.utf8ByteSize)
    (hr : q.isParam = false → Text.StandsAt text span q.render) : q.Anchors base text span := by
  obtain ⟨hlo, hhi⟩ : q.place.lo.toNat = base.toNat + span.start ∧ q.place.hi.toNat = base.toNat + span.stop := by
    rw [hp]
    exact Place.toNat_ofSpan h (by omega)
  refine ⟨hp, hlo, hhi, ⟨?_, ?_, by omega⟩, fun hq => ?_⟩
  · rw [UInt32.le_iff_toNat_le]
    omega
  · rw [UInt32.le_iff_toNat_le]
    omega
  · rw [hlo, hhi, Nat.add_sub_cancel_left, Nat.add_sub_cancel_left]
    exact hr hq

theorem Part.Anchors.of_standsAt {q : Part} (hp : q.place = .ofSpan base span)
    (hb : base.toNat + text.utf8ByteSize < 2 ^ 32) (h : Text.StandsAt text span q.render) :
    q.Anchors base text span := by
  refine .of_span hp hb ?_ h.stop_le fun _ => h
  rw [h.span_eq]
  exact Nat.le_add_right _ _

/-- A magnitude stands behind the minus of its number. -/
theorem standsAt_magnitude {s : Scalar} {l : Script.Literal} {x : Binary64} (hl : Script.Literal.ofScalar s = .ok l)
    (hv : l.value = .number x) (hx : x.isBelowZero) (h : Text.StandsAt text span l.raw) :
    Text.StandsAt text ⟨span.start + 1, span.stop⟩ (String.ofList (l.raw.toList.dropWhile (· == '-'))) := by
  obtain ⟨hf, hraw⟩ := Script.Literal.raw_of_number hl hv
  obtain ⟨raw, hdrop, hminus, _⟩ := Script.numberText_of_below hf hx
  have hone : ("-" : String).utf8ByteSize = 1 := rfl
  have hw : l.raw = "-" ++ String.ofList raw ++ "" := by rw [hraw, hminus, String.append_empty]
  have hin := h.within "-" "" hw rfl
  have hstop : span.stop = span.start + 1 + (String.ofList raw).utf8ByteSize := by
    have he : span.stop = span.start + l.raw.utf8ByteSize := congrArg Span.stop h.span_eq
    rw [hw, String.append_empty, String.utf8ByteSize_append, hone] at he
    omega
  rwa [hraw, hdrop, hstop]

theorem Part.Lowers.anchors {p : Script.Part} {q : Part} (h : Lowers base p span q) (hs : p.Sound text) (hd : p.Drafted)
    (hb : base.toNat + text.utf8ByteSize < 2 ^ 32) : q.Anchors base text span := by
  have hp := h.place_eq
  cases h with
  | part hc =>
      apply Anchors.of_standsAt hp hb
      rw [(hd.of_holds hc).render_ofScript]
      exact (hs.fits hc).rendered
  | added hc ha =>
      have hfits := hs.fits hc
      have hstop := hfits.rendered.stop_le
      cases ha with
      | param hq =>
          obtain ⟨i, hi, rfl⟩ := List.getElem_of_mem hq
          obtain ⟨hspan, _, hle⟩ := hfits.params.2 i _ (List.getElem?_eq_getElem hi)
          refine .of_span hp hb ?_ (Nat.le_trans hle hstop) fun hn => ?_
          · rw [hspan]
            exact Nat.le_add_right _ _
          · cases hn
      | magnitude hv hx =>
          obtain ⟨s, hl⟩ := hd.isDrafted hc
          exact .of_standsAt hp hb (standsAt_magnitude hl hv hx hfits.rendered)

end

/-- The places of a lowered page are anchored in its text. Every node has the place of a span, and none of them
overflows or leaves the text. The magnitude of a number below zero stands behind the minus and is a numeral of the
opposite number. -/
theorem lowered_in_place {ds : List Script.Draft} {base : UInt32} (hds : ∀ d ∈ ds, d.Made fun _ => True)
    (hb : base.toNat + (ds.foldl Script.Page.append .empty).text.utf8ByteSize < 2 ^ 32) :
    let page := ds.foldl Script.Page.append .empty
    let lowered := Part.module (.ofScript base page.program)
    (∀ q, lowered.Holds q → ∃ span, Part.Lowers base (.program page.program) span q) ∧
    (∀ span q, Part.Lowers base (.program page.program) span q → q.Anchors base page.text span) ∧
    ∀ span l x, (Script.Part.program page.program).Holds (.expression (.literal span l)) → l.value = .number x →
      x.isBelowZero → ∃ place raw,
        lowered.Holds (.expression (.minus (.ofSpan base span) (.number place x.neg raw))) ∧ l.raw = "-" ++ raw ∧
        Text.StandsAt page.text ⟨place.lo.toNat - base.toNat, place.hi.toNat - base.toNat⟩ raw ∧
        x.neg.negative = false ∧ x.neg.rank ≠ 0 ∧ Numeral.read? raw = some x.neg := by
  intro page lowered
  have hs : (Script.Part.program page.program).Sound page.text := Script.Page.program_sound ds
  have hd : (Script.Part.program page.program).Drafted := Script.Page.drafted_program hds
  have hanchors {span : Span} {q : Part} (h : Part.Lowers base (.program page.program) span q) :
      q.Anchors base page.text span := h.anchors hs hd hb
  refine ⟨fun q hq => Part.holds_ofScript_iff.1 hq, fun _ _ => hanchors, ?_⟩
  intro span l x hl hv hx
  obtain ⟨s, hscalar⟩ := hd.isDrafted hl
  obtain ⟨hf, hraw⟩ := Script.Literal.raw_of_number hscalar hv
  obtain ⟨raw, hdrop, hminus, hpos, hne, hread⟩ := Script.numberText_of_below hf hx
  have hstands := (hanchors (.added hl (.magnitude hv hx))).rendered rfl
  have hholds : lowered.Holds (.expression (.ofLiteral base span l)) := Part.holds_ofScript hl
  rw [Part.ofLiteral_of_below hv hx] at hholds
  rw [hraw, hdrop] at hstands hholds
  exact ⟨_, _, hholds, hraw.trans hminus, hstands, hpos, hne, hread⟩

theorem lowered_in_place_call :
    ∃ ds : List Script.Draft, (∀ d ∈ ds, d.Made fun _ => True) ∧
      (ds.foldl Script.Page.append .empty).text = "function f(a, b) \x7b\nMath.abs(-0.5, a);\n\x7d\n" ∧
      (1 : UInt32).toNat + (ds.foldl Script.Page.append .empty).text.utf8ByteSize < 2 ^ 32 ∧
      ∃ place, (Part.module (.ofScript 1 (ds.foldl Script.Page.append .empty).program)).Holds
          (.expression (.minus (.ofSpan 1 ⟨28, 32⟩) (.number place ⟨false, 1022 * Binary64.binade⟩ "0.5"))) ∧
        Text.StandsAt (ds.foldl Script.Page.append .empty).text ⟨place.lo.toNat - 1, place.hi.toNat - 1⟩ "0.5" := by
  let half : Script.Literal := ⟨.number ⟨true, 1022 * Binary64.binade⟩, "-0.5"⟩
  let call : Script.Draft := .call ⟨.member "Math" "abs", [.literal half, .variable "a"]⟩
  let ds : List Script.Draft := [.function "f" ["a", "b"] [call]]
  have hhalf : Script.Literal.ofScalar (.number "-0.5") = .ok half := by decide +kernel
  have hds : ∀ d ∈ ds, d.Made fun _ => True := by
    have hcall : call.Made fun _ => True :=
      .call (.member trivial trivial)
        (List.forall_mem_cons.2 ⟨.literal hhalf, List.forall_mem_singleton.2 (.variable trivial)⟩)
    exact List.forall_mem_singleton.2
      (.function trivial (fun _ _ => trivial) (List.forall_mem_singleton.2 hcall))
  have ht : (ds.foldl Script.Page.append .empty).text = "function f(a, b) \x7b\nMath.abs(-0.5, a);\n\x7d\n" := by
    rw [Script.Page.foldl_append]
    decide
  have hs : (1 : UInt32).toNat + (ds.foldl Script.Page.append .empty).text.utf8ByteSize < 2 ^ 32 := by
    rw [ht]
    decide
  refine ⟨ds, hds, ht, hs, ?_⟩
  have hl : (Script.Part.program (ds.foldl Script.Page.append .empty).program).Holds
      (.expression (.literal ⟨28, 32⟩ half)) := by
    rw [Script.Page.foldl_append]
    exact .head (.head _) (.head (.tail _ (.head _)) (.head (.head _) (.head (.head _)
      (.head (.tail _ (.head _)) .refl))))
  obtain ⟨place, raw, hm, hraw, hstands, _⟩ := (lowered_in_place hds hs).2.2 _ _ _ hl rfl (by decide)
  have he : raw = "0.5" := by
    have hw : half.raw = "-" ++ "0.5" := by decide
    exact (String.append_right_inj "-").1 (hraw.symm.trans hw)
  exact ⟨place, he ▸ hm, he ▸ hstands⟩

end Anchored

end PhpTranspiler
