import PhpTranspiler.Proofs.Accounting

namespace PhpTranspiler

open Script

/-- What is left of the result `a` with the diagnostics `ds` if the first statement that is not recognized
ends the run. -/
inductive Cut {α : Type} (a : α) (ds : List Diagnostic) : Except Fault α → Prop
  | whole (h : ∀ d ∈ ds, d.kind ≠ .statement) : Cut a ds (.ok a)
  | stopped {before rest : List Diagnostic} {place : Excerpt} (hb : ∀ d ∈ before, d.kind ≠ .statement)
      (hd : ds = before ++ .ofFault (.unrecognized place) :: rest) : Cut a ds (.error (.unrecognized place))

namespace Cut

variable {α β : Type} {a : α} {b : β} {ds es : List Diagnostic} {r : Except Fault α}

theorem map (h : Cut a ds r) (f : α → β) : Cut (f a) ds (r.map f) := by
  cases h with
  | whole h => exact .whole h
  | stopped hb hd => exact .stopped hb hd

theorem bind (h : Cut a ds r) {f : α → Except Fault β} (hf : Cut b es (f a)) :
    Cut b (ds ++ es) (r.bind f) := by
  cases h with
  | stopped hb hd =>
      apply stopped hb
      rw [hd, List.append_assoc, List.cons_append]
  | whole h =>
      change Cut b (ds ++ es) (f a)
      cases hfa : f a with
      | ok b' =>
          rw [hfa] at hf
          cases hf with
          | whole hes =>
              apply whole
              intro d hd
              rcases List.mem_append.1 hd with hd | hd
              · exact h d hd
              · exact hes d hd
      | error fault =>
          rw [hfa] at hf
          cases hf with
          | @stopped before rest place hb hes =>
              have he : ds ++ es = (ds ++ before) ++ .ofFault (.unrecognized place) :: rest := by
                rw [hes, List.append_assoc]
              refine stopped ?_ he
              intro d hd
              rcases List.mem_append.1 hd with hd | hd
              · exact h d hd
              · exact hb d hd

end Cut

namespace Transpile

theorem settle_kind (place : Excerpt) (r : Except Refusal Draft) :
    ∀ d ∈ (settle place r).2, d.kind ≠ .statement := by
  intro d hd
  cases r with
  | ok draft => simp [settle] at hd
  | error refusal =>
      simp only [settle, List.mem_singleton] at hd
      subst hd
      cases refusal <;> simp [Diagnostic.ofRefusal]

theorem report_cut (f : Fault) : Cut [Diagnostic.ofFault f] [.ofFault f] (report .strict f) := by
  cases f with
  | unrecognized place =>
      have he : [Diagnostic.ofFault (.unrecognized place)] = [] ++ [.ofFault (.unrecognized place)] := rfl
      exact .stopped (by simp) he
  | unsupported construct place =>
      apply Cut.whole
      simp [Diagnostic.ofFault]

mutual

theorem lower_cut : (item : Item) → ∀ {draft ds}, lower .lenient item = .ok (draft, ds) →
    Cut (draft, ds) ds (lower .strict item)
  | .assignment place name value, draft, ds, h => by
      rw [lower, Except.ok.injEq] at h
      rw [lower, h]
      have hk := settle_kind place (declare name value)
      rw [h] at hk
      exact .whole hk
  | .call place callee args, draft, ds, h => by
      rw [lower, Except.ok.injEq] at h
      rw [lower, h]
      have hk := settle_kind place (invoke callee args)
      rw [h] at hk
      exact .whole hk
  | .function place name params text items, draft, ds, h => by
      rw [lower] at h
      rw [lower]
      cases hc : checkNames (name :: params) with
      | error r =>
          -- The body is not visited, so nothing in it can end the run.
          simp only [hc, Except.ok.injEq, Prod.mk.injEq] at h
          obtain ⟨rfl, rfl⟩ := h
          exact .whole (settle_kind place (.error r))
      | ok _ =>
          obtain ⟨drafts, inner, hs, _⟩ := lowerAll_lenient items
          simp only [hc, hs, Except.map, Except.ok.injEq, Prod.mk.injEq] at h
          obtain ⟨rfl, rfl⟩ := h
          exact (lowerAll_cut items hs).map fun (body, ds) => (some (Draft.function name params body), ds)
  | .fault f, draft, ds, h => by
      rw [lower] at h
      rw [lower]
      cases h
      exact (report_cut f).map _

/-- In strict mode a block becomes what it does in lenient mode, up to the first statement in it that is
not recognized, at any depth. -/
theorem lowerAll_cut : (items : List Item) → ∀ {drafts ds}, lowerAll .lenient items = .ok (drafts, ds) →
    Cut (drafts, ds) ds (lowerAll .strict items)
  | [], drafts, ds, h => by
      cases h
      exact .whole (by simp)
  | item :: items, drafts, ds, h => by
      obtain ⟨draft, inner, more, rest, hi, hs, rfl, rfl⟩ := lowerAll_cons h
      rw [lowerAll]
      have hrest := (lowerAll_cut items hs).map fun (drafts, ds) => (draft.toList ++ drafts, inner ++ ds)
      exact (lower_cut item hi).bind hrest

end

end Transpile

theorem Run.foldlM_take_error {mode : Mode} {items : List Item} {f : Fault}
    (h : Transpile.lowerAll mode items = .error f) (r : Run) : items.foldlM (take mode) r = .error f := by
  induction items generalizing r with
  | nil => cases h
  | cons item items ih =>
      rw [Transpile.lowerAll] at h
      rw [List.foldlM_cons]
      cases hi : Transpile.lower mode item with
      | error fault =>
          rw [hi] at h
          cases h
          simp [take, hi, Except.map, bind, Except.bind]
      | ok lowered =>
          rw [take_of_lower r hi]
          apply ih
          cases hs : Transpile.lowerAll mode items with
          | error fault => simpa [hi, hs, Except.bind, Except.map] using h
          | ok others => simp [hi, hs, Except.bind, Except.map] at h

theorem transpile_of_lowerAll_error {mode : Mode} {source : Source} {f : Fault}
    (h : Transpile.lowerAll mode source.pulled = .error f) : transpile mode source = .error f := by
  have hf : (Run.pulled (Text.inkEnd source.text) Run.start.consumed source.items).foldlM
      (Run.take mode) Run.start = .error f := Run.foldlM_take_error h Run.start
  rw [transpile, Run.through_eq_foldlM, hf]
  rfl

/-- Strict mode is lenient mode up to the first statement that is not recognized, at whatever depth it
stands. Nothing else ends a run. -/
theorem transpile_strict_cut (source : Source) :
    ∃ out, transpile .lenient source = .ok out ∧
      match out.diagnostics.find? (·.kind = .statement) with
      | none => transpile .strict source = .ok out
      | some d => ∃ place, transpile .strict source = .error (.unrecognized place) ∧
          (Fault.unrecognized place).span = d.span ∧ (Fault.unrecognized place).message = d.message := by
  obtain ⟨drafts, ds, h, _⟩ := Transpile.lowerAll_lenient source.pulled
  refine ⟨_, transpile_of_lowerAll h, ?_⟩
  have hcut := Transpile.lowerAll_cut source.pulled h
  cases hs : Transpile.lowerAll .strict source.pulled with
  | ok lowered =>
      rw [hs] at hcut
      cases hcut with
      | whole hk =>
          have hn : ds.find? (·.kind = .statement) = none := by simpa using hk
          simp only [hn]
          exact transpile_of_lowerAll hs
  | error fault =>
      rw [hs] at hcut
      cases hcut with
      | @stopped before rest place hb hd =>
          have hf : ds.find? (·.kind = .statement) = some (.ofFault (.unrecognized place)) := by
            have hn : before.find? (·.kind = .statement) = none := by simpa using hb
            rw [hd, List.find?_append, hn]
            rfl
          simp only [hf]
          exact ⟨place, transpile_of_lowerAll_error hs, rfl, rfl⟩

end PhpTranspiler
