import PhpTranspiler.Text

namespace PhpTranspiler.Text

/-- The bytes of `text` at `span` are those of `part`, and both ends of `span` lie between characters. -/
def StandsAt (text : String) (span : Span) (part : String) : Prop :=
  ∃ before after, text = before ++ part ++ after ∧
    span = ⟨before.utf8ByteSize, before.utf8ByteSize + part.utf8ByteSize⟩

variable {text part whole : String} {span : Span}

theorem StandsAt.slice_eq (h : StandsAt text span part) : slice text span = part := by
  obtain ⟨before, after, rfl, rfl⟩ := h
  exact slice_append before part after

theorem StandsAt.span_eq (h : StandsAt text span part) :
    span = ⟨span.start, span.start + part.utf8ByteSize⟩ := by
  obtain ⟨before, after, _, rfl⟩ := h
  rfl

theorem StandsAt.stop_le (h : StandsAt text span part) : span.stop ≤ text.utf8ByteSize := by
  obtain ⟨before, after, rfl, rfl⟩ := h
  simp

theorem standsAt_self (text : String) : StandsAt text ⟨0, text.utf8ByteSize⟩ text :=
  ⟨"", "", by simp, by simp⟩

/-- A piece of a part stands in the text as far behind the start of the part as it does in the part. -/
theorem StandsAt.within {start : Nat} (h : StandsAt text span whole) (left right : String)
    (hw : whole = left ++ part ++ right) (hs : start = span.start + left.utf8ByteSize) :
    StandsAt text ⟨start, start + part.utf8ByteSize⟩ part := by
  obtain ⟨before, after, rfl, rfl⟩ := h
  refine ⟨before ++ left, right ++ after, ?_, ?_⟩
  · simp [hw, String.append_assoc]
  · simp [hs]

theorem eq_nil_of_size_eq_zero {cs : List Char} (h : size cs = 0) : cs = [] := by
  cases cs with
  | nil => rfl
  | cons c cs =>
      have hc := c.utf8Size_pos
      rw [size_cons] at h
      omega

end PhpTranspiler.Text
