import MacroScript.Proofs.Grammar.LineRules
/-
  Where the parts of a match lie in its text. For every pattern they lie one after another inside
  what was matched, each on character boundaries and with its own parts inside it
  (`Pattern.run_nested`). A repetition of a pattern that records one part for each match leaves no
  gap between them (`Pattern.Records.tiles_manyMatch`), so the parts of a line tile it
  (`Grammar.exists_line_parts`).
-/

namespace MacroScript

/-! ## Parts in order -/

/-- The parts lie in order, without overlap, between two byte positions of the text. Each covers
its own text there, on character boundaries, and its inner parts lie in the same way inside it. -/
inductive Part.Nested (text : List Char) : Nat → Nat → List Part → Prop
  | nil {start stop : Nat} : start ≤ stop → Nested text start stop []
  | cons {start stop : Nat} {p : Part} {ps : List Part} : start ≤ p.start →
      slice? text p.start p.stop = some p.text → Nested text p.start p.stop p.inner →
      Nested text p.stop stop ps → Nested text start stop (p :: ps)

/-- The parts cover everything between two byte positions: none is empty, the first begins at
the one, each begins where the part before it ends, and the last ends at the other. -/
def Part.Tiles : Nat → Nat → List Part → Prop
  | start, stop, [] => start = stop
  | start, stop, p :: ps => p.start = start ∧ p.text ≠ [] ∧ Tiles p.stop stop ps

namespace Part

variable {text : List Char} {start middle stop : Nat} {p : Part} {ps qs : List Part}

theorem Nested.mono {start' stop' : Nat} (h : Nested text start stop ps) (hstart : start' ≤ start)
    (hstop : stop ≤ stop') : Nested text start' stop' ps := by
  induction h generalizing start' with
  | nil hle => exact .nil (Nat.le_trans hstart (Nat.le_trans hle hstop))
  | cons hle hslice hinner _ _ ih =>
    exact .cons (Nat.le_trans hstart hle) hslice hinner (ih (Nat.le_refl _) hstop)

theorem Nested.append (hps : Nested text start middle ps) (hqs : Nested text middle stop qs) :
    Nested text start stop (ps ++ qs) := by
  induction hps with
  | nil hle => exact hqs.mono hle (Nat.le_refl _)
  | cons hstart hslice hinner _ _ ih => exact .cons hstart hslice hinner (ih hqs)

theorem Nested.singleton (hslice : slice? text p.start p.stop = some p.text)
    (hinner : Nested text p.start p.stop p.inner) : Nested text p.start p.stop [p] :=
  .cons (Nat.le_refl _) hslice hinner (.nil (Nat.le_refl _))

theorem Nested.slice?_of_mem (h : Nested text start stop ps) :
    ∀ p ∈ ps, slice? text p.start p.stop = some p.text := by
  induction h with
  | nil => simp
  | cons _ hslice _ _ _ ih => exact List.forall_mem_cons.mpr ⟨hslice, ih⟩

theorem Tiles.append (hps : Tiles start middle ps) (hqs : Tiles middle stop qs) :
    Tiles start stop (ps ++ qs) := by
  induction ps generalizing start with
  | nil =>
    obtain rfl : start = middle := hps
    exact hqs
  | cons p ps ih => exact ⟨hps.1, hps.2.1, ih hps.2.2⟩

end Part

/-! ## Parts of any match -/

/-- The parts of the match lie inside what it took, right after `before` in the text. -/
def Match.Nested (text before : List Char) (m : Match) : Prop :=
  Part.Nested text (byteSize before) (byteSize before + byteSize m.taken) m.parts

theorem Match.nested_of_parts_eq_nil {text before : List Char} {m : Match} (h : m.parts = []) :
    m.Nested text before := by
  unfold Match.Nested
  rw [h]
  exact .nil (Nat.le_add_right ..)

theorem Match.Nested.append {text before : List Char} {m n : Match} (hm : m.Nested text before)
    (hn : n.Nested text (before ++ m.taken)) : (m.append n).Nested text before := by
  unfold Match.Nested at hn ⊢
  dsimp only [Match.append]
  rw [byteSize_append] at hn ⊢
  rw [← Nat.add_assoc]
  exact Part.Nested.append hm hn

namespace Pattern

variable {a b : Pattern} {text before s : List Char} {pos : Nat} {m : Match}

theorem iterate_nested {step : Nat → List Char → Option Match}
    (hrest : ∀ {pos s m}, step pos s = some m → m.taken ++ m.rest = s)
    (hstep : ∀ {before s m}, text = before ++ s → step (byteSize before) s = some m →
      m.Nested text before) (rounds : Nat) (htext : text = before ++ s) :
    (iterate step rounds (byteSize before) s).Nested text before := by
  induction rounds generalizing before s with
  | zero => exact Match.nested_of_parts_eq_nil rfl
  | succ rounds ih =>
    rw [iterate]
    cases hm : step (byteSize before) s with
    | none => exact Match.nested_of_parts_eq_nil rfl
    | some m =>
      have htext' : text = (before ++ m.taken) ++ m.rest := by
        rw [htext, List.append_assoc, hrest hm]
      have hnext := ih htext'
      rw [byteSize_append] at hnext
      exact (hstep htext hm).append hnext

/-- The parts of a match lie inside what it took. -/
theorem run_nested (htext : text = before ++ s) (h : a.run (byteSize before) s = some m) :
    m.Nested text before := by
  induction a generalizing before s m with
  | one p =>
    obtain ⟨c, rest, -, -, rfl⟩ := run_one_eq_some_iff.mp h
    exact Match.nested_of_parts_eq_nil rfl
  | span p =>
    obtain ⟨u, rest, -, -, -, rfl⟩ := run_span_eq_some_iff.mp h
    exact Match.nested_of_parts_eq_nil rfl
  | word w =>
    obtain ⟨rest, -, rfl⟩ := run_word_eq_some_iff.mp h
    exact Match.nested_of_parts_eq_nil rfl
  | seq a b iha ihb =>
    obtain ⟨m₁, m₂, ha, hb, rfl⟩ := run_seq_eq_some_iff.mp h
    have htext' : text = (before ++ m₁.taken) ++ m₁.rest := by
      rw [htext, List.append_assoc, run_taken_append_rest ha]
    rw [← byteSize_append] at hb
    exact (iha htext ha).append (ihb htext' hb)
  | alt a b iha ihb =>
    rcases run_alt_eq_some_iff.mp h with ha | ⟨-, hb⟩
    · exact iha htext ha
    · exact ihb htext hb
  | opt a ih =>
    rcases run_opt_eq_some_iff.mp h with ha | ⟨-, rfl⟩
    · exact ih htext ha
    · exact Match.nested_of_parts_eq_nil rfl
  | many a ih =>
    obtain rfl := Option.some.inj h
    exact iterate_nested run_taken_append_rest ih s.length htext
  | part r a ih =>
    obtain ⟨n, hn, rfl⟩ := run_part_eq_some_iff.mp h
    have hslice : slice? text (byteSize before) (byteSize before + byteSize n.taken) =
        some n.taken :=
      slice?_eq_some_iff.mpr
        ⟨before, n.rest, by rw [htext, run_taken_append_rest hn], rfl, rfl⟩
    exact Part.Nested.singleton (p := ⟨r, byteSize before, n.taken, n.parts⟩) hslice (ih htext hn)
  | finish =>
    cases s with
    | nil =>
      obtain rfl := Option.some.inj h
      have hslice : slice? text (byteSize before) (byteSize before) = some [] :=
        slice?_eq_some_iff.mpr ⟨before, [], htext, rfl, rfl⟩
      exact Part.Nested.singleton (p := ⟨.endOfInput, byteSize before, [], []⟩) hslice
        (.nil (Nat.le_refl _))
    | cons c s => cases h

/-- The parts of a match at the start of a text lie inside the text. -/
theorem parts?_nested {parts : List Part} (h : a.parts? s = some parts) :
    Part.Nested s 0 (byteSize s) parts := by
  obtain ⟨m, hm, rfl⟩ := Option.map_eq_some_iff.mp h
  have hnested : Part.Nested s (byteSize []) (byteSize [] + byteSize m.taken) m.parts :=
    run_nested (List.nil_append s).symm hm
  refine hnested.mono (Nat.zero_le _) ?_
  rw [← run_taken_append_rest hm, byteSize_append]
  simp

/-! ## Patterns that record what they take -/

/-- Every match of the pattern records one part, of one of these rules, for all that it took. -/
def Records (a : Pattern) (rules : List Rule) : Prop :=
  ∀ pos s m, a.run pos s = some m →
    ∃ p, m.parts = [p] ∧ p.rule ∈ rules ∧ p.start = pos ∧ p.text = m.taken

theorem records_part (r : Rule) (a : Pattern) : (part r a).Records [r] := by
  intro pos s m h
  obtain ⟨n, -, rfl⟩ := run_part_eq_some_iff.mp h
  exact ⟨_, rfl, List.mem_singleton_self r, rfl, rfl⟩

theorem Records.alt {rs rs' : List Rule} (ha : a.Records rs) (hb : b.Records rs') :
    (alt a b).Records (rs ++ rs') := by
  intro pos s m h
  rcases run_alt_eq_some_iff.mp h with h | ⟨-, h⟩
  · obtain ⟨p, hparts, hrule, hp⟩ := ha pos s m h
    exact ⟨p, hparts, List.mem_append_left rs' hrule, hp⟩
  · obtain ⟨p, hparts, hrule, hp⟩ := hb pos s m h
    exact ⟨p, hparts, List.mem_append_right rs hrule, hp⟩

theorem Records.tiles {rules : List Rule} (hr : a.Records rules) (h : a.run pos s = some m)
    (hne : m.taken ≠ []) :
    Part.Tiles pos (pos + byteSize m.taken) m.parts ∧ ∀ p ∈ m.parts, p.rule ∈ rules := by
  obtain ⟨p, hparts, hrule, rfl, htext⟩ := hr pos s m h
  rw [hparts]
  refine ⟨⟨rfl, by rwa [htext], ?_⟩, by simpa using hrule⟩
  rw [← htext]
  rfl

/-- The parts of a repetition leave no gap. -/
theorem Records.tiles_manyMatch {rules : List Rule} (hr : a.Records rules) (ha : a.Productive)
    (pos : Nat) (s : List Char) :
    Part.Tiles pos (pos + byteSize (a.manyMatch pos s).taken) (a.manyMatch pos s).parts ∧
      ∀ p ∈ (a.manyMatch pos s).parts, p.rule ∈ rules := by
  induction pos, s using ha.manyMatch_induction with
  | stops pos s _ => exact ⟨rfl, by simp [Match.empty]⟩
  | goes pos s m n hm ih =>
    obtain ⟨htiles, hrules⟩ := hr.tiles hm (ha pos s m hm)
    dsimp only [Match.append]
    rw [byteSize_append, ← Nat.add_assoc]
    exact ⟨htiles.append ih.1, List.forall_mem_append.mpr ⟨hrules, ih.2⟩⟩

end Pattern

/-! ## Parts of a line -/

namespace Grammar

open Pattern

theorem token_records : token.Records [.quoted, .directive, .bare, .blank] :=
  (records_part .quoted _).alt <| (records_part .directive _).alt <|
    (records_part .bare _).alt (records_part .blank _)

theorem opt_command_run (s : List Char) : ∃ head : Option Part, ∃ taken rest,
    (opt command).run 0 s = some ⟨taken, head.toList, rest⟩ ∧ taken ++ rest = s ∧
      (∀ p ∈ head, p.rule = .command) ∧ Part.Tiles 0 (byteSize taken) head.toList := by
  cases h : command.run 0 s with
  | none =>
    have hopt := run_opt_eq_some_iff.mpr (Or.inr ⟨h, rfl⟩)
    exact ⟨none, [], s, hopt, rfl, by simp, rfl⟩
  | some m =>
    obtain ⟨name, rest, -, -, -, rfl, rfl⟩ := command_run_eq_some_iff.mp h
    refine ⟨some (commandPart 0 name), _, rest, run_opt_eq_some_iff.mpr (Or.inl h), rfl,
      by simp [commandPart], rfl, List.cons_ne_nil _ _, ?_⟩
    exact Nat.zero_add _

/-- Every line matches. Its parts are a command head or none, then tokens, which tile the line,
and then the mark of its end. -/
theorem exists_line_parts (s : List Char) : ∃ (head : Option Part) (body : List Part),
    line.parts? s = some [⟨.line, 0, s,
      head.toList ++ body ++ [⟨.endOfInput, byteSize s, [], []⟩]⟩] ∧
    (∀ p ∈ head, p.rule = .command) ∧
    (∀ p ∈ body, p.rule ∈ [Rule.quoted, .directive, .bare, .blank]) ∧
    Part.Tiles 0 (byteSize s) (head.toList ++ body) := by
  obtain ⟨head, taken, rest, hopt, rfl, hhead, htiles⟩ := opt_command_run s
  obtain ⟨hbody, hrules⟩ := token_records.tiles_manyMatch token_productive (byteSize taken) rest
  refine ⟨head, (token.manyMatch (byteSize taken) rest).parts, ?_, hhead, hrules, ?_⟩
  · rw [line_parts? hopt, List.append_assoc]
  · rw [taken_manyMatch_token, ← byteSize_append] at hbody
    exact htiles.append hbody

end Grammar

end MacroScript
