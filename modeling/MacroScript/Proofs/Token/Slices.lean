import MacroScript.Proofs.Grammar.Layout
import MacroScript.Proofs.Token.Scan
/-
  A run of bare characters as two byte positions in the line. Parts that tile the line leave no
  gap inside a run, so the line between the start of its first part and the end of its last is
  the text of the run (`OpenRun.extend`), and cutting the runs out of the line gives the tokens
  of the parts (`ofSlices?_eq_ofParts`). Main statement: `Grammar.line_parts_tile`.
-/

namespace MacroScript

namespace Token

variable {line u : List Char} {run : Option (Nat × Nat)} {start stop : Nat} {p : Part}
  {ps : List Part}

/-! ## Open runs -/

/-- The run open at a byte position of the line, and its text: none and no text, or two
positions, the second of which is this one, with that text between them. -/
def OpenRun (line : List Char) (stop : Nat) : Option (Nat × Nat) → List Char → Prop
  | none, u => u = []
  | some (a, b), u => u ≠ [] ∧ b = stop ∧ slice? line a b = some u

theorem openRun_none : OpenRun line stop none [] := rfl

/-- Closing a run gives the token of its text. -/
theorem OpenRun.sliceRun? (h : OpenRun line stop run u) :
    sliceRun? line run = some (flush u []) := by
  match run, h with
  | none, h =>
    obtain rfl : u = [] := h
    rfl
  | some (a, b), h =>
    obtain ⟨hne, -, hslice⟩ := h
    rw [Token.sliceRun?, hslice, flush_of_ne_nil hne]
    rfl

/-- A bare part that begins where the open run ends makes one run with it. -/
theorem OpenRun.extend (h : OpenRun line p.start run u) (hne : p.text ≠ [])
    (hslice : slice? line p.start p.stop = some p.text) :
    OpenRun line p.stop (some (run.elim p.start Prod.fst, p.stop)) (u ++ p.text) := by
  have htext : u ++ p.text ≠ [] := by simp [hne]
  match run, h with
  | none, h =>
    obtain rfl : u = [] := h
    exact ⟨htext, rfl, hslice⟩
  | some (a, b), h =>
    obtain ⟨-, rfl, hrun⟩ := h
    exact ⟨htext, rfl, slice?_append_slice? hrun hslice⟩

/-! ## Tokens of parts that tile -/

theorem flush_nil_append (u : List Char) (ts : List Token) : flush u [] ++ ts = flush u ts := by
  unfold flush
  split
  · rfl
  · rfl

theorem ofSlices?_cons_of_bare (h : p.rule = .bare) :
    ofSlices? line run (p :: ps) =
      ofSlices? line (some (run.elim p.start Prod.fst, p.stop)) ps := by
  rw [ofSlices?, if_pos h]

theorem ofSlices?_cons_of_ne_bare (h : p.rule ≠ .bare) {before after : List Token}
    (hrun : sliceRun? line run = some before) (hps : ofSlices? line none ps = some after) :
    ofSlices? line run (p :: ps) = some (before ++ ((ofPart? p).toList ++ after)) := by
  rw [ofSlices?, if_neg h, hrun, hps]
  rfl

theorem collect_of_bare (h : p.rule = .bare) (ps : List Part) :
    collect (p :: ps) = (p.text ++ (collect ps).1, (collect ps).2) := by
  rw [collect]
  dsimp only
  rw [if_pos h]

/-- The open run and the parts after it, cut out of the line, are the tokens of their texts. -/
theorem ofSlices?_eq_flush (htiles : Part.Tiles start stop ps)
    (hslices : ∀ p ∈ ps, slice? line p.start p.stop = some p.text)
    (hrun : OpenRun line start run u) :
    ofSlices? line run ps = some (flush (u ++ (collect ps).1) (collect ps).2) := by
  induction ps generalizing start run u with
  | nil =>
    rw [ofSlices?, hrun.sliceRun?, collect, List.append_nil]
  | cons p ps ih =>
    obtain ⟨rfl, hne, htiles⟩ := htiles
    rw [List.forall_mem_cons] at hslices
    by_cases hbare : p.rule = .bare
    · rw [ofSlices?_cons_of_bare hbare, collect_of_bare hbare, ← List.append_assoc]
      exact ih htiles hslices.2 (hrun.extend hne hslices.1)
    · have hrest : ofSlices? line none ps = some (ofParts ps) := ih htiles hslices.2 openRun_none
      rw [ofSlices?_cons_of_ne_bare hbare hrun.sliceRun? hrest, collect_of_ne_bare hbare,
        flush_nil_append, List.append_nil]

theorem ofSlices?_append_endOfInput (run : Option (Nat × Nat)) (ps : List Part) (pos : Nat) :
    ofSlices? line run (ps ++ [⟨.endOfInput, pos, [], []⟩]) = ofSlices? line run ps := by
  induction ps generalizing run with
  | nil =>
    rw [List.nil_append, ofSlices?, ofSlices?, if_neg (by simp), ofSlices?]
    cases sliceRun? line run with
    | none => rfl
    | some ts => exact congrArg some (List.append_nil ts)
  | cons p ps ih => rw [List.cons_append, ofSlices?, ofSlices?, ih, ih]

/-- Cut out of a line that they tile, the parts give their tokens. -/
theorem ofSlices?_eq_ofParts (htiles : Part.Tiles 0 stop ps)
    (hslices : ∀ p ∈ ps, slice? line p.start p.stop = some p.text) (pos : Nat) :
    ofSlices? line none (ps ++ [⟨.endOfInput, pos, [], []⟩]) = some (ofParts ps) := by
  rw [ofSlices?_append_endOfInput]
  exact ofSlices?_eq_flush htiles hslices openRun_none

end Token

namespace Grammar

/-- **The parts of a line tile it.** Every line matches. Its one part covers all of it, and the
parts in that are a command head or none, then quoted strings, directives, bare characters and
blanks, and then the mark of the end. They leave no gap, so every run of bare characters can be
cut out of the line, which gives the tokens of the line. The parts of any match of any pattern
lie in order and nested, on character boundaries. So no line is taken for bare text as a whole. -/
theorem line_parts_tile (s : List Char) :
    (∃ (head : Option Part) (body : List Part),
      line.parts? s = some [⟨.line, 0, s,
        head.toList ++ body ++ [⟨.endOfInput, byteSize s, [], []⟩]⟩] ∧
      (∀ p ∈ head, p.rule = .command) ∧
      (∀ p ∈ body, p.rule ∈ [Rule.quoted, .directive, .bare, .blank]) ∧
      Part.Tiles 0 (byteSize s) (head.toList ++ body) ∧
      Token.ofSlices? s none (head.toList ++ body ++ [⟨.endOfInput, byteSize s, [], []⟩]) =
        some (Token.ofLine s)) ∧
    (∀ (a : Pattern) (parts : List Part), a.parts? s = some parts →
      Part.Nested s 0 (byteSize s) parts) ∧
    Token.ofLine? s = .ok (Token.ofLine s) := by
  refine ⟨?_, fun a parts => Pattern.parts?_nested, Token.ofLine?_eq_ok s⟩
  obtain ⟨head, body, hparts, hhead, hbody, htiles⟩ := exists_line_parts s
  refine ⟨head, body, hparts, hhead, hbody, htiles, ?_⟩
  have hinner : Part.Nested s 0 (0 + byteSize s)
      (head.toList ++ body ++ [⟨.endOfInput, byteSize s, [], []⟩]) := by
    cases Pattern.parts?_nested hparts with
    | cons _ _ hinner _ => exact hinner
  have hslices := (List.forall_mem_append.mp hinner.slice?_of_mem).1
  have htokens : Token.ofLine s = Token.ofParts (head.toList ++ body) := by
    apply Token.ofLine_of_ok
    unfold Token.ofLine?
    rw [hparts]
    exact congrArg Except.ok (Token.ofParts_append_endOfInput _ _)
  rw [htokens]
  exact Token.ofSlices?_eq_ofParts htiles hslices _

/-- The key of this directive has characters of two and of four bytes. -/
theorem line_parts_tile_wide :
    directive.parts? "<é😀.v>!".toList = some [⟨.directive, 0, "<é😀.v>".toList,
      [⟨.directiveKey, 1, "é😀".toList, []⟩, ⟨.directiveValue, 8, ['v'], []⟩]⟩] ∧
    Part.Nested "<é😀.v>!".toList 0 11 [⟨.directive, 0, "<é😀.v>".toList,
      [⟨.directiveKey, 1, "é😀".toList, []⟩, ⟨.directiveValue, 8, ['v'], []⟩]⟩] := by
  have hparts : directive.parts? "<é😀.v>!".toList = some [⟨.directive, 0, "<é😀.v>".toList,
      [⟨.directiveKey, 1, "é😀".toList, []⟩, ⟨.directiveValue, 8, ['v'], []⟩]⟩] := rfl
  exact ⟨hparts, (line_parts_tile "<é😀.v>!".toList).2.1 directive _ hparts⟩

end Grammar

end MacroScript
