import MacroScript.Proofs.Statement.OfTokens
/-
  The pieces of free text and the text they stand for. Pieces hold the raw text of all tokens
  (`Piece.writtenAll_ofTokens`), merged as far as it goes (`Piece.merged_ofTokens`). So the pieces
  of a line, written out, are the line up to its first wait, and written out they read back.
  Main statement: `Statement.ofLine_writtenAll`.
-/

namespace MacroScript

open Token

namespace Piece

variable {t : Token} {ts : List Token} {ps : List Piece} {s : List Char}

/-! ## Pieces token by token -/

theorem ofTokens_cons_of_placeholder {p : Placeholder} (h : t.content = .placeholder p)
    (ts : List Token) : ofTokens (t :: ts) = .placeholder p :: ofTokens ts := by
  rw [ofTokens, h]

theorem ofTokens_cons_of_kind_ne (h : t.kind ≠ .placeholder) (ts : List Token) :
    ofTokens (t :: ts) = addText t.raw (ofTokens ts) := by
  unfold kind at h
  rw [ofTokens]
  cases hc : t.content with
  | placeholder p => exact absurd (by rw [hc]; rfl) h
  | _ => rfl

/-! ## Written pieces -/

theorem writtenAll_addText (s : List Char) (ps : List Piece) :
    writtenAll (addText s ps) = s ++ writtenAll ps := by
  match ps with
  | [] => simp [addText, written]
  | .text s' :: ps => simp [addText, written]
  | .placeholder p :: ps => simp [addText, written]

theorem writtenAll_ofTokens (h : ∀ t ∈ ts, t.WellFormed) : writtenAll (ofTokens ts) = raws ts := by
  induction ts with
  | nil => rfl
  | cons t ts ih =>
    rw [List.forall_mem_cons] at h
    by_cases hk : t.kind = .placeholder
    · obtain ⟨p, hc⟩ := content_of_kind_placeholder hk
      have hwf := h.1
      unfold WellFormed at hwf
      rw [hc] at hwf
      rw [ofTokens_cons_of_placeholder hc, writtenAll_cons, ih h.2, raws_cons, hwf.2.2]
      rfl
    · rw [ofTokens_cons_of_kind_ne hk, writtenAll_addText, ih h.2, raws_cons]

/-! ## No empty text -/

theorem text_nil_notMem_addText (hs : s ≠ []) (hps : .text [] ∉ ps) : .text [] ∉ addText s ps := by
  match ps with
  | [] => simpa [addText] using hs
  | .text s' :: ps => simp_all [addText]
  | .placeholder p :: ps => simp_all [addText]

theorem text_nil_notMem_ofTokens (h : ∀ t ∈ ts, t.raw ≠ []) : .text [] ∉ ofTokens ts := by
  induction ts with
  | nil => simp [ofTokens]
  | cons t ts ih =>
    rw [List.forall_mem_cons] at h
    by_cases hk : t.kind = .placeholder
    · obtain ⟨p, hc⟩ := content_of_kind_placeholder hk
      rw [ofTokens_cons_of_placeholder hc]
      simpa using ih h.2
    · rw [ofTokens_cons_of_kind_ne hk]
      exact text_nil_notMem_addText h.1 (ih h.2)

/-! ## Merged text -/

/-- No two neighbours are both text. -/
def Merged (ps : List Piece) : Prop :=
  ∀ before s t after, ps ≠ before ++ .text s :: .text t :: after

theorem merged_nil : Merged [] := by
  intro before s t after h
  simp at h

theorem merged_cons_iff {p : Piece} :
    Merged (p :: ps) ↔ (∀ s t, p = .text s → ps.head? ≠ some (.text t)) ∧ Merged ps := by
  constructor
  · intro h
    refine ⟨?_, fun before s t after hps => h (p :: before) s t after (by rw [hps]; rfl)⟩
    intro s t hp hhead
    obtain ⟨after, rfl⟩ := List.head?_eq_some_iff.mp hhead
    exact h [] s t after (by rw [hp]; rfl)
  · intro h before s t after hps
    obtain ⟨hfirst, hrest⟩ := h
    cases before with
    | nil =>
      obtain ⟨rfl, rfl⟩ := List.cons.inj hps
      exact hfirst s t rfl rfl
    | cons b before =>
      obtain ⟨-, rfl⟩ := List.cons.inj hps
      exact hrest before s t after rfl

theorem Merged.addText (h : Merged ps) (s : List Char) : Merged (addText s ps) := by
  match ps with
  | [] => exact merged_cons_iff.mpr ⟨by simp, merged_nil⟩
  | .text s' :: ps =>
    obtain ⟨hfirst, hrest⟩ := merged_cons_iff.mp h
    exact merged_cons_iff.mpr ⟨fun _ t _ => hfirst s' t rfl, hrest⟩
  | .placeholder p :: ps => exact merged_cons_iff.mpr ⟨by simp, h⟩

/-- The pieces of any tokens are merged. -/
theorem merged_ofTokens (ts : List Token) : Merged (ofTokens ts) := by
  induction ts with
  | nil => exact merged_nil
  | cons t ts ih =>
    by_cases hk : t.kind = .placeholder
    · obtain ⟨p, hc⟩ := content_of_kind_placeholder hk
      rw [ofTokens_cons_of_placeholder hc]
      exact merged_cons_iff.mpr ⟨by simp, ih⟩
    · rw [ofTokens_cons_of_kind_ne hk]
      exact ih.addText t.raw

end Piece

/-! ## Free text of a line -/

/-- **Free text is kept.** The pieces of a line, written out, are its text before the first wait,
which is all of it if there is none. No piece is empty text, no two neighbours are both text,
and what is written out says the same pieces, without a wait. -/
theorem Statement.ofLine_writtenAll {line : List Char} {pieces : List Piece} {n : Wait}
    (h : ofLine line = .ok (some ⟨.text pieces, n⟩)) :
    Piece.writtenAll pieces = raws ((Token.ofLine line).takeWhile fun t => t.kind ≠ .wait) ∧
    line = Piece.writtenAll pieces ++
      raws ((Token.ofLine line).dropWhile fun t => t.kind ≠ .wait) ∧
    .text [] ∉ pieces ∧
    (∀ before s t after, pieces ≠ before ++ .text s :: .text t :: after) ∧
    ofLine (Piece.writtenAll pieces) = .ok (some ⟨.text pieces, 0⟩) := by
  have hline := reads_ofLine line
  have hbefore := hline.before_wait
  obtain ⟨hbody, -⟩ := ofTokens_eq_some_iff.mp h
  obtain ⟨-, -, rfl⟩ := Body.ofTokens_eq_text_iff.mp hbody
  have hwritten := Piece.writtenAll_ofTokens hbefore.wellFormed
  have hagain : cutAtWait (Token.ofLine (raws (cutAtWait (Token.ofLine line)).1)) =
      ((cutAtWait (Token.ofLine line)).1, 0) := by
    rw [hbefore.ofLine_eq]
    exact cutAtWait_of_kind_ne fun t => kind_ne_wait_of_mem
  refine ⟨?_, ?_, ?_, Piece.merged_ofTokens _, ?_⟩
  · rw [hwritten, cutAtWait_fst_eq_takeWhile]
  · rw [hwritten, cutAtWait_fst_eq_takeWhile, ← raws_append, List.takeWhile_append_dropWhile,
      hline.raws_eq]
  · exact Piece.text_nil_notMem_ofTokens fun t ht => (hbefore.wellFormed t ht).raw_ne_nil
  · rw [hwritten]
    exact ofTokens_eq_some_iff.mpr ⟨by rw [hagain]; exact hbody, by rw [hagain]⟩

/-- Quotes stay in the text, and the directive between them does not stand alone. -/
theorem Statement.ofLine_writtenAll_quoted :
    ofLine "say \"<x>\" <me.1><wait>!".toList =
      .ok (some ⟨.text [.text "say \"<x>\" ".toList, .placeholder ⟨['m', 'e'], some ['1']⟩], 1⟩) ∧
    ofLine (Piece.writtenAll
        [.text "say \"<x>\" ".toList, .placeholder ⟨['m', 'e'], some ['1']⟩]) =
      .ok (some
        ⟨.text [.text "say \"<x>\" ".toList, .placeholder ⟨['m', 'e'], some ['1']⟩], 0⟩) := by
  have hline : ofLine "say \"<x>\" <me.1><wait>!".toList =
      .ok (some ⟨.text [.text "say \"<x>\" ".toList, .placeholder ⟨['m', 'e'], some ['1']⟩], 1⟩) :=
    rfl
  exact ⟨hline, (ofLine_writtenAll hline).2.2.2.2⟩

end MacroScript
