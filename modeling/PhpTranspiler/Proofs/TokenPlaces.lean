import PhpTranspiler.Lexer
import PhpTranspiler.Proofs.Placement

namespace PhpTranspiler.Token

/-- The tokens follow each other from `start` on, with nothing but their gaps between them. -/
def Placed : Nat → List Token → Prop
  | _, [] => True
  | start, t :: ts => t.start = start + t.gap.utf8ByteSize ∧ Placed t.stop ts

def StandIn (source : String) (ts : List Token) : Prop :=
  ∃ before after, source = before ++ written ts ++ after ∧ Placed before.utf8ByteSize ts

theorem Placed.append {start : Nat} {ts us : List Token} (h : Placed start (ts ++ us)) :
    Placed start ts ∧ Placed (start + (written ts).utf8ByteSize) us := by
  induction ts generalizing start with
  | nil => exact ⟨trivial, h⟩
  | cons t ts ih =>
      obtain ⟨hs, ht⟩ := h
      obtain ⟨hl, hr⟩ := ih ht
      refine ⟨⟨hs, hl⟩, ?_⟩
      have he : start + (written (t :: ts)).utf8ByteSize = t.stop + (written ts).utf8ByteSize := by
        simp only [written, stop, String.utf8ByteSize_append, hs]
        omega
      rw [he]
      exact hr

theorem StandIn.append {source : String} {ts us : List Token} (h : StandIn source (ts ++ us)) :
    StandIn source ts ∧ StandIn source us := by
  obtain ⟨before, after, rfl, hp⟩ := h
  obtain ⟨hl, hr⟩ := hp.append
  refine ⟨⟨before, written us ++ after, ?_, hl⟩, ⟨before ++ written ts, after, ?_, ?_⟩⟩
  · simp [written_append, String.append_assoc]
  · simp [written_append, String.append_assoc]
  · simpa using hr

theorem StandIn.drop {source : String} {ts : List Token} (h : StandIn source ts) (n : Nat) :
    StandIn source (ts.drop n) := by
  rw [← List.take_append_drop n ts] at h
  exact h.append.2

theorem StandIn.take {source : String} {ts : List Token} (h : StandIn source ts) (n : Nat) :
    StandIn source (ts.take n) := by
  rw [← List.take_append_drop n ts] at h
  exact h.append.1

theorem StandIn.tail {source : String} {t : Token} {ts : List Token} (h : StandIn source (t :: ts)) :
    StandIn source ts :=
  h.drop 1

theorem StandIn.spelled {source : String} {t : Token} {ts : List Token} (h : StandIn source (t :: ts)) :
    Text.StandsAt source ⟨t.start, t.start + (spelled (t :: ts)).utf8ByteSize⟩ (spelled (t :: ts)) := by
  obtain ⟨before, after, rfl, hs, _⟩ := h
  refine ⟨before ++ t.gap, after, ?_, ?_⟩
  · simp [written, Token.spelled, String.append_assoc]
  · simp [hs]

theorem StandIn.standsAt {source : String} {ts : List Token} {t : Token} (h : StandIn source ts)
    (ht : t ∈ ts) : Text.StandsAt source t.span t.text := by
  obtain ⟨before, after, rfl⟩ := List.append_of_mem ht
  have hs := (h.append.2.take 1).spelled
  simpa [Token.spelled, written, span, stop] using hs

theorem Placed.getLast_stop {t last : Token} {ts : List Token} (h : Placed t.stop ts)
    (hl : (t :: ts).getLast? = some last) : last.stop = t.start + (spelled (t :: ts)).utf8ByteSize := by
  induction ts generalizing t with
  | nil =>
      cases hl
      simp [spelled, written, stop]
  | cons u us ih =>
      obtain ⟨hs, ht⟩ := h
      have hu := ih ht (by simpa using hl)
      simp only [spelled, written, stop, String.utf8ByteSize_append] at hs hu ⊢
      omega

theorem StandIn.getLast_stop {source : String} {t last : Token} {ts : List Token}
    (h : StandIn source (t :: ts)) (hl : (t :: ts).getLast? = some last) :
    last.stop = t.start + (Token.spelled (t :: ts)).utf8ByteSize := by
  obtain ⟨_, _, _, _, hp⟩ := h
  exact hp.getLast_stop hl

theorem Placed.le_start {start : Nat} {ts : List Token} (h : Placed start ts) : ∀ t ∈ ts, start ≤ t.start := by
  induction ts generalizing start with
  | nil => simp
  | cons t ts ih =>
      obtain ⟨hs, ht⟩ := h
      intro u hu
      rcases List.mem_cons.1 hu with rfl | hu
      · omega
      · have hle := ih ht u hu
        simp only [stop] at hle
        omega

theorem StandIn.stop_le_start {source : String} {ts us : List Token} (h : StandIn source (ts ++ us)) :
    ∀ t ∈ ts, ∀ u ∈ us, t.stop ≤ u.start := by
  induction ts with
  | nil => simp
  | cons t ts ih =>
      intro v hv u hu
      rcases List.mem_cons.1 hv with rfl | hv
      · obtain ⟨_, _, _, _, hp⟩ := h
        exact hp.le_start u (List.mem_append_right ts hu)
      · exact ih h.tail v hv u hu

end PhpTranspiler.Token

namespace PhpTranspiler.Lexer

theorem tokensFrom_of_gap {cs : List Char} (h : cs.drop (gapLength .blanks cs) = []) (start : Nat) :
    tokensFrom start cs = [] := by
  rw [tokensFrom]
  split
  · rfl
  · simp_all

theorem tokensFrom_of_lexeme {cs rest : List Char} {c : Char} {kind : Token.Kind} {n : Nat}
    (h : cs.drop (gapLength .blanks cs) = c :: rest) (hl : lexeme c rest = (kind, n)) (start : Nat) :
    tokensFrom start cs =
      ⟨String.ofList (cs.take (gapLength .blanks cs)),
        start + Text.size (cs.take (gapLength .blanks cs)), kind, String.ofList (c :: rest.take n)⟩ ::
        tokensFrom (start + Text.size (cs.take (gapLength .blanks cs)) + Text.size (c :: rest.take n))
          (rest.drop n) := by
  rw [tokensFrom]
  split
  · simp_all
  · rename_i c' rest' hc
    obtain ⟨rfl, rfl⟩ := List.cons_eq_cons.1 (h.symm.trans hc)
    rw [hl]

theorem placed_tokensFrom (start : Nat) (cs : List Char) : Token.Placed start (tokensFrom start cs) := by
  fun_induction tokensFrom start cs with
  | case1 => trivial
  | case2 start cs gap c rest hc kind n hl before text place ih =>
      refine ⟨?_, ?_⟩
      · simp [place]
      · simpa [Token.stop] using ih

theorem start_lt_stop {start : Nat} {cs : List Char} {t : Token} (ht : t ∈ tokensFrom start cs) :
    t.start < t.stop := by
  fun_induction tokensFrom start cs with
  | case1 => simp at ht
  | case2 start cs gap c rest hc kind n hl before text place ih =>
      rcases List.mem_cons.1 ht with rfl | ht
      · have hpos := c.utf8Size_pos
        simp only [Token.stop, Text.utf8ByteSize_ofList, text, Text.size_cons]
        omega
      · exact ih ht

theorem standIn_tokenize (source : String) : Token.StandIn source (tokenize source) := by
  obtain ⟨rest, hr⟩ := written_tokensFrom 0 source.toList
  refine ⟨"", String.ofList rest, ?_, placed_tokensFrom 0 source.toList⟩
  apply String.toList_injective
  simpa [tokenize] using hr

end PhpTranspiler.Lexer
