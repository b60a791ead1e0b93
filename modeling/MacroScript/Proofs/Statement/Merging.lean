import Mathlib.Data.List.SplitBy
import MacroScript.Proofs.Statement.Pieces
/-
  Free text said in two more ways. The pieces of tokens are those of their longest runs without
  a placeholder, one for each run, and those of the placeholders between them
  (`Piece.ofTokens_eq_map_ofRun`); and they come about in one pass from the first token to the
  last, where text goes on the last piece if that is text (`Piece.foldl_push`). Main statement:
  `Statement.ofTokens_text_runs`.
-/

namespace MacroScript

open Token

variable {t : Token} {ts run : List Token} {p : Placeholder} {ps : List Piece}

/-! ## Placeholders among tokens -/

/-- The placeholder of a token, if it is one. -/
def Token.placeholder? (t : Token) : Option Placeholder :=
  match t.content with
  | .placeholder p => some p
  | _ => none

theorem Token.placeholder?_of_content (h : t.content = .placeholder p) :
    t.placeholder? = some p := by
  rw [placeholder?, h]

theorem Token.placeholder?_of_kind_ne (h : t.kind ≠ .placeholder) : t.placeholder? = none := by
  unfold kind at h
  rw [placeholder?]
  cases hc : t.content with
  | placeholder p => exact absurd (by rw [hc]; rfl) h
  | _ => rfl

/-! ## Runs -/

/-- The longest runs of tokens that are no placeholders, and each placeholder on its own. -/
def Token.textRuns (ts : List Token) : List (List Token) :=
  ts.splitBy fun t u => t.kind ≠ .placeholder ∧ u.kind ≠ .placeholder

theorem Token.textRuns_cons_of_placeholder (h : t.kind = .placeholder) (ts : List Token) :
    textRuns (t :: ts) = [t] :: textRuns ts := by
  unfold textRuns
  rw [← List.singleton_append, List.splitBy_append, List.splitBy_of_isChain (by simp) (by simp)]
  · rfl
  · simp [h]

theorem Token.textRuns_append (hne : run ≠ []) (hrun : ∀ t ∈ run, t.kind ≠ .placeholder)
    (hts : ∀ t ∈ ts.head?, t.kind = .placeholder) : textRuns (run ++ ts) = run :: textRuns ts := by
  have hchain : run.IsChain fun t u =>
      decide (t.kind ≠ .placeholder ∧ u.kind ≠ .placeholder) = true := by
    apply List.Pairwise.isChain
    apply List.pairwise_of_forall_mem_list
    intro t ht u hu
    exact decide_eq_true ⟨hrun t ht, hrun u hu⟩
  unfold textRuns
  rw [List.splitBy_append, List.splitBy_of_isChain hne hchain]
  · rfl
  · intro t _ u hu
    simp [hts u hu]

/-- Tokens taken run by run. -/
theorem Token.runs_induction {motive : List Token → Prop} (nil : motive [])
    (placeholder : ∀ t ts, t.kind = .placeholder → motive ts → motive (t :: ts))
    (text : ∀ run ts, run ≠ [] → (∀ t ∈ run, t.kind ≠ .placeholder) →
      (∀ t ∈ ts.head?, t.kind = .placeholder) → motive ts → motive (run ++ ts))
    (ts : List Token) : motive ts := by
  induction hn : ts.length using Nat.strong_induction_on generalizing ts with
  | h n ih =>
    cases ts with
    | nil => exact nil
    | cons t ts =>
      by_cases hk : t.kind = .placeholder
      · exact placeholder t ts hk (ih ts.length (by rw [← hn]; simp) ts rfl)
      · obtain ⟨run, rest, hrun, hrest, hts⟩ :=
          exists_longest_run (fun u : Token => decide (u.kind ≠ .placeholder)) (t :: ts)
        have hne : run ≠ [] := by
          rintro rfl
          exact hk (by simpa using hrest t (by rw [← List.nil_append rest, ← hts]; rfl))
        have hshort : rest.length < n := by
          rw [← hn, hts, List.length_append]
          have := List.length_pos_of_ne_nil hne
          omega
        rw [hts]
        exact text run rest hne (by simpa using hrun) (by simpa using hrest)
          (ih rest.length hshort rest rfl)

namespace Piece

/-! ## Pieces of runs -/

/-- The piece of a run: a placeholder on its own, or else the raw text of all its tokens. -/
def ofRun : List Token → Piece
  | [⟨.placeholder p, _⟩] => .placeholder p
  | run => .text (raws run)

theorem ofRun_of_placeholder (h : t.content = .placeholder p) : ofRun [t] = .placeholder p := by
  obtain ⟨content, raw⟩ := t
  rw [show content = .placeholder p from h]
  rfl

theorem ofRun_of_kind_ne (h : ∀ t ∈ run, t.kind ≠ .placeholder) : ofRun run = .text (raws run) := by
  unfold ofRun
  split
  · exact absurd rfl (h _ (List.mem_cons_self ..))
  · rfl

theorem addText_addText (s s' : List Char) (ps : List Piece) :
    addText s (addText s' ps) = addText (s ++ s') ps := by
  match ps with
  | [] => rfl
  | .text u :: ps => simp [addText]
  | .placeholder p :: ps => rfl

theorem ofTokens_append (hne : run ≠ []) (hrun : ∀ t ∈ run, t.kind ≠ .placeholder)
    (ts : List Token) : ofTokens (run ++ ts) = addText (raws run) (ofTokens ts) := by
  induction run with
  | nil => exact absurd rfl hne
  | cons t us ih =>
    rw [List.forall_mem_cons] at hrun
    rw [List.cons_append, ofTokens_cons_of_kind_ne hrun.1, raws_cons]
    by_cases hus : us = []
    · rw [hus, List.nil_append, raws_nil, List.append_nil]
    · rw [ih hus hrun.2, addText_addText]

/-- Text before a placeholder or at the end is a piece of its own. -/
theorem addText_ofTokens (hts : ∀ t ∈ ts.head?, t.kind = .placeholder) (s : List Char) :
    addText s (ofTokens ts) = .text s :: ofTokens ts := by
  cases ts with
  | nil => rfl
  | cons t ts =>
    obtain ⟨p, hc⟩ := content_of_kind_placeholder (hts t rfl)
    rw [ofTokens_cons_of_placeholder hc]
    rfl

/-- The pieces of tokens are the pieces of their runs. -/
theorem ofTokens_eq_map_ofRun (ts : List Token) : ofTokens ts = (textRuns ts).map ofRun := by
  induction ts using runs_induction with
  | nil => rfl
  | placeholder t ts hk ih =>
    obtain ⟨p, hc⟩ := content_of_kind_placeholder hk
    rw [ofTokens_cons_of_placeholder hc, textRuns_cons_of_placeholder hk, List.map_cons,
      ofRun_of_placeholder hc, ih]
  | text run ts hne hrun hts ih =>
    rw [ofTokens_append hne hrun, addText_ofTokens hts, textRuns_append hne hrun hts, List.map_cons,
      ofRun_of_kind_ne hrun, ih]

/-! ## Pieces in one pass -/

/-- Puts one more token at the end of pieces. Its text goes on a last piece of text. -/
def push (ps : List Piece) (t : Token) : List Piece :=
  match t.placeholder?, ps.getLast? with
  | some p, _ => ps ++ [.placeholder p]
  | none, some (.text s) => ps.dropLast ++ [.text (s ++ t.raw)]
  | none, _ => ps ++ [.text t.raw]

theorem push_of_placeholder (h : t.content = .placeholder p) (ps : List Piece) :
    push ps t = ps ++ [.placeholder p] := by
  rw [push, placeholder?_of_content h]

theorem push_append_text (h : t.kind ≠ .placeholder) (ps : List Piece) (s : List Char) :
    push (ps ++ [.text s]) t = ps ++ [.text (s ++ t.raw)] := by
  rw [push, placeholder?_of_kind_ne h, List.getLast?_concat, List.dropLast_concat]

theorem push_of_getLast_ne (h : t.kind ≠ .placeholder) (hps : ∀ s, ps.getLast? ≠ some (.text s)) :
    push ps t = ps ++ [.text t.raw] := by
  rw [push, placeholder?_of_kind_ne h]
  split
  · next hp => cases hp
  · next s _ hs => exact absurd hs (hps s)
  · rfl

/-- What one pass makes of tokens, whether it comes to them after a piece of text or not. -/
theorem foldl_push (ts : List Token) :
    (∀ ps : List Piece, (∀ s, ps.getLast? ≠ some (.text s)) →
      ts.foldl push ps = ps ++ ofTokens ts) ∧
    ∀ ps s, ts.foldl push (ps ++ [.text s]) = ps ++ addText s (ofTokens ts) := by
  -- both halves go through together: a text token leaves pieces that end in text, a placeholder
  -- pieces that do not
  induction ts with
  | nil => exact ⟨fun ps _ => (List.append_nil ps).symm, fun ps s => rfl⟩
  | cons t ts ih =>
    obtain ⟨hclosed, hopen⟩ := ih
    by_cases hk : t.kind = .placeholder
    · obtain ⟨p, hc⟩ := content_of_kind_placeholder hk
      have hlast : ∀ ps s, (ps ++ [Piece.placeholder p]).getLast? ≠ some (.text s) := by simp
      refine ⟨?_, ?_⟩
      · intro ps _
        rw [List.foldl_cons, push_of_placeholder hc, hclosed _ (hlast ps),
          ofTokens_cons_of_placeholder hc, List.append_assoc]
        rfl
      · intro ps s
        rw [List.foldl_cons, push_of_placeholder hc, hclosed _ (hlast _),
          ofTokens_cons_of_placeholder hc, List.append_assoc, List.append_assoc]
        rfl
    · refine ⟨?_, ?_⟩
      · intro ps hps
        rw [List.foldl_cons, push_of_getLast_ne hk hps, hopen, ofTokens_cons_of_kind_ne hk]
      · intro ps s
        rw [List.foldl_cons, push_append_text hk, hopen, ofTokens_cons_of_kind_ne hk,
          addText_addText]

end Piece

/-! ## Nothing lost -/

def Piece.placeholder? : Piece → Option Placeholder
  | .text _ => none
  | .placeholder p => some p

def Piece.text? : Piece → Option (List Char)
  | .text s => some s
  | .placeholder _ => none

theorem Piece.filterMap_placeholder?_addText (s : List Char) (ps : List Piece) :
    (addText s ps).filterMap placeholder? = ps.filterMap placeholder? := by
  match ps with
  | [] => rfl
  | .text u :: ps => rfl
  | .placeholder p :: ps => rfl

theorem Piece.flatten_text?_addText (s : List Char) (ps : List Piece) :
    ((addText s ps).filterMap text?).flatten = s ++ (ps.filterMap text?).flatten := by
  match ps with
  | [] => rfl
  | .text u :: ps => exact List.append_assoc ..
  | .placeholder p :: ps => rfl

/-- The placeholders among the pieces are those among the tokens. -/
theorem Piece.filterMap_placeholder?_ofTokens (ts : List Token) :
    (ofTokens ts).filterMap placeholder? = ts.filterMap Token.placeholder? := by
  induction ts with
  | nil => rfl
  | cons t ts ih =>
    by_cases hk : t.kind = .placeholder
    · obtain ⟨p, hc⟩ := content_of_kind_placeholder hk
      rw [ofTokens_cons_of_placeholder hc,
        List.filterMap_cons_some (placeholder?_of_content hc), ← ih]
      rfl
    · rw [ofTokens_cons_of_kind_ne hk, filterMap_placeholder?_addText, ih,
        List.filterMap_cons_none (placeholder?_of_kind_ne hk)]

/-- The text among the pieces is the raw text of all other tokens. -/
theorem Piece.flatten_text?_ofTokens (ts : List Token) :
    ((ofTokens ts).filterMap text?).flatten = raws (ts.filter fun t => t.kind ≠ .placeholder) := by
  induction ts with
  | nil => rfl
  | cons t ts ih =>
    by_cases hk : t.kind = .placeholder
    · obtain ⟨p, hc⟩ := content_of_kind_placeholder hk
      rw [ofTokens_cons_of_placeholder hc, List.filter_cons_of_neg (by simpa using hk), ← ih]
      rfl
    · rw [ofTokens_cons_of_kind_ne hk, flatten_text?_addText, ih,
        List.filter_cons_of_pos (by simpa using hk), raws_cons]

/-- **Text is merged run by run.** Tokens that begin with neither a command nor a wait say free
text. Its pieces are, for the tokens before the first wait, each placeholder and one text for each
longest run of other tokens, their raw texts put together; and they are what one pass makes that
lengthens the last piece. So no two neighbours are both text, the placeholders are those of the
tokens, and the text is that of the other tokens. -/
theorem Statement.ofTokens_text_runs (hcommand : t.kind ≠ .command) (hwait : t.kind ≠ .wait) :
    ∃ before pieces n, before = (t :: ts).takeWhile (fun u => u.kind ≠ .wait) ∧
      ofTokens (t :: ts) = .ok (some ⟨.text pieces, n⟩) ∧
      pieces = (textRuns before).map Piece.ofRun ∧
      pieces = before.foldl Piece.push [] ∧
      (∀ first s s' last, pieces ≠ first ++ .text s :: .text s' :: last) ∧
      pieces.filterMap Piece.placeholder? = before.filterMap Token.placeholder? ∧
      (pieces.filterMap Piece.text?).flatten =
        raws (before.filter fun u => u.kind ≠ .placeholder) := by
  have hbody : Body.ofTokens (cutAtWait (t :: ts)).1 =
      .ok (some (.text (Piece.ofTokens (cutAtWait (t :: ts)).1))) := by
    rw [cutAtWait_cons_of_kind_ne hwait]
    exact Body.ofTokens_cons_of_kind_ne hcommand _
  have hpass : Piece.ofTokens (cutAtWait (t :: ts)).1 =
      (cutAtWait (t :: ts)).1.foldl Piece.push [] :=
    ((Piece.foldl_push _).1 [] (by simp)).symm
  exact ⟨_, _, _, cutAtWait_fst_eq_takeWhile _, ofTokens_eq_some_iff.mpr ⟨hbody, rfl⟩,
    Piece.ofTokens_eq_map_ofRun _, hpass, Piece.merged_ofTokens _,
    Piece.filterMap_placeholder?_ofTokens _, Piece.flatten_text?_ofTokens _⟩

/-- Empty raw texts make text of their own, and what a token means makes none. -/
theorem Statement.ofTokens_text_runs_empty_raw :
    ∃ n, ofTokens [⟨.string ['v'], []⟩, ⟨.placeholder ⟨['k'], none⟩, ['<']⟩,
        ⟨.placeholder ⟨['k'], some []⟩, []⟩, ⟨.whitespace, ['x']⟩, ⟨.command ['c'], ['y']⟩,
        ⟨.string ['v'], []⟩, ⟨.wait 3, ['z']⟩, text ['w']] =
      .ok (some ⟨.text [.text [], .placeholder ⟨['k'], none⟩, .placeholder ⟨['k'], some []⟩,
        .text ['x', 'y']], n⟩) := by
  obtain ⟨before, pieces, n, rfl, h, rfl, -⟩ := @ofTokens_text_runs ⟨.string ['v'], []⟩
    [⟨.placeholder ⟨['k'], none⟩, ['<']⟩, ⟨.placeholder ⟨['k'], some []⟩, []⟩,
      ⟨.whitespace, ['x']⟩, ⟨.command ['c'], ['y']⟩, ⟨.string ['v'], []⟩, ⟨.wait 3, ['z']⟩,
      text ['w']] (by decide) (by decide)
  exact ⟨n, h⟩

end MacroScript
