import MacroScript.Proofs.Grammar.Matching
import MacroScript.Proofs.Token.Beginnings
/-
  The texts that each rule of a line matches, said without patterns. A command head ends before
  the first space, a quoted string at the second quote, a directive at the first end mark, a
  blank before the first other character. Some token begins at every character
  (`token_run_ne_none`), so the tokens of a text end only where the text does.
-/

namespace MacroScript.Grammar

open Pattern

variable {pos : Nat} {s : List Char} {m : Match}

/-! ## Command heads -/

/-- The part of a command head. -/
def commandPart (pos : Nat) (name : List Char) : Part :=
  ⟨.command, pos, '/' :: name, [⟨.commandName, pos + 1, name, []⟩]⟩

theorem command_run_eq_some_iff :
    command.run pos s = some m ↔ ∃ name rest, name ≠ [] ∧ (∀ c ∈ name, isSpace c = false) ∧
      (∀ c ∈ rest.head?, isSpace c = true) ∧ s = '/' :: name ++ rest ∧
      m = ⟨'/' :: name, [commandPart pos name], rest⟩ := by
  constructor
  · intro h
    obtain ⟨_, hseq, rfl⟩ := run_part_eq_some_iff.mp h
    obtain ⟨_, _, rfl, hrun, rfl⟩ := run_word_seq_eq_some_iff.mp hseq
    obtain ⟨name, rest, hne, hname, hrest, rfl, rfl⟩ := run_part_span1_eq_some_iff.mp hrun
    exact ⟨name, rest, hne, by simpa using hname, by simpa using hrest, rfl, rfl⟩
  · intro h
    obtain ⟨name, rest, hne, hname, hrest, rfl, rfl⟩ := h
    have hrun : commandName.run (pos + 1) (name ++ rest) =
        some ⟨name, [⟨.commandName, pos + 1, name, []⟩], rest⟩ :=
      run_part_span1_eq_some_iff.mpr
        ⟨name, rest, hne, by simpa using hname, by simpa using hrest, rfl, rfl⟩
    exact run_part_eq_some_iff.mpr
      ⟨_, run_word_seq_eq_some_iff.mpr ⟨name ++ rest, _, rfl, hrun, rfl⟩, rfl⟩

theorem command_run_eq_none (h : ¬ BeginsCommand s) : command.run pos s = none := by
  rw [Option.eq_none_iff_forall_ne_some]
  intro m hm
  obtain ⟨name, rest, hne, hname, hrest, hs, -⟩ := command_run_eq_some_iff.mp hm
  exact h (beginsCommand_iff.mpr ⟨name, rest, hne, hname, hrest, hs⟩)

/-! ## Quoted strings -/

/-- The part of a quoted string. -/
def quotedPart (pos : Nat) (value : List Char) : Part :=
  ⟨.quoted, pos, '"' :: value ++ ['"'], [⟨.quotedText, pos + 1, value, []⟩]⟩

theorem quoted_run_eq_some_iff :
    quoted.run pos s = some m ↔ ∃ value rest, '"' ∉ value ∧ s = '"' :: value ++ '"' :: rest ∧
      m = ⟨'"' :: value ++ ['"'], [quotedPart pos value], rest⟩ := by
  constructor
  · intro h
    obtain ⟨_, hseq, rfl⟩ := run_part_eq_some_iff.mp h
    obtain ⟨_, _, rfl, hinner, rfl⟩ := run_word_seq_eq_some_iff.mp hseq
    obtain ⟨_, _, htext, hclose, rfl⟩ := run_seq_eq_some_iff.mp hinner
    obtain ⟨_, hspan, rfl⟩ := run_part_eq_some_iff.mp htext
    obtain ⟨value, _, hvalue, -, rfl, rfl⟩ := run_span_eq_some_iff.mp hspan
    obtain ⟨rest, rfl, rfl⟩ := run_word_eq_some_iff.mp hclose
    exact ⟨value, rest, forall_ne_iff_notMem.mp hvalue, rfl, rfl⟩
  · intro h
    obtain ⟨value, rest, hvalue, rfl, rfl⟩ := h
    have hspan : (span (· != '"')).run (pos + 1) (value ++ '"' :: rest) =
        some ⟨value, [], '"' :: rest⟩ :=
      run_span_eq_some_iff.mpr
        ⟨value, '"' :: rest, forall_ne_iff_notMem.mpr hvalue, by simp, rfl, rfl⟩
    have htext : quotedText.run (pos + 1) (value ++ '"' :: rest) =
        some ⟨value, [⟨.quotedText, pos + 1, value, []⟩], '"' :: rest⟩ :=
      run_part_eq_some_iff.mpr ⟨_, hspan, rfl⟩
    have hclose : (word ['"']).run (pos + 1 + byteSize value) ('"' :: rest) =
        some ⟨['"'], [], rest⟩ :=
      run_word_eq_some_iff.mpr ⟨rest, rfl, rfl⟩
    have hinner := run_seq_eq_some_iff.mpr ⟨_, _, htext, hclose, rfl⟩
    exact run_part_eq_some_iff.mpr
      ⟨_, run_word_seq_eq_some_iff.mpr ⟨value ++ '"' :: rest, _, rfl, hinner, rfl⟩, rfl⟩

theorem quoted_run_eq_none (h : ¬ BeginsQuoted s) : quoted.run pos s = none := by
  rw [Option.eq_none_iff_forall_ne_some]
  intro m hm
  obtain ⟨value, rest, hvalue, hs, -⟩ := quoted_run_eq_some_iff.mp hm
  exact h ⟨value, rest, hvalue, hs⟩

/-! ## Directives -/

/-- The parts inside a directive: its key, and its value if it has one. -/
def directiveInner (pos : Nat) (p : Placeholder) : List Part :=
  ⟨.directiveKey, pos + 1, p.key, []⟩ :: (p.value.map fun value =>
    ⟨.directiveValue, pos + 1 + byteSize p.key + 1, value, []⟩).toList

/-- The part of a directive. -/
def directivePart (pos : Nat) (p : Placeholder) : Part :=
  ⟨.directive, pos, p.written, directiveInner pos p⟩

theorem isKeyChar_iff {c : Char} : isKeyChar c = true ↔ c ≠ '>' ∧ c ≠ '.' := by
  simp [isKeyChar]

theorem directiveKey_run_eq_some_iff :
    directiveKey.run pos s = some m ↔ ∃ key rest, key ≠ [] ∧ (∀ c ∈ key, c ≠ '>' ∧ c ≠ '.') ∧
      (∀ c ∈ rest.head?, c = '>' ∨ c = '.') ∧ s = key ++ rest ∧
      m = ⟨key, [⟨.directiveKey, pos, key, []⟩], rest⟩ := by
  constructor
  · intro h
    obtain ⟨key, rest, hne, hkey, hrest, rfl, rfl⟩ := run_part_span1_eq_some_iff.mp h
    refine ⟨key, rest, hne, fun c hc => isKeyChar_iff.mp (hkey c hc), ?_, rfl, rfl⟩
    intro c hc
    have hnot : ¬ (c ≠ '>' ∧ c ≠ '.') := by
      rw [← isKeyChar_iff, hrest c hc]
      decide
    by_cases he : c = '>'
    · exact Or.inl he
    · exact Or.inr (Classical.byContradiction fun hd => hnot ⟨he, hd⟩)
  · intro h
    obtain ⟨key, rest, hne, hkey, hrest, rfl, rfl⟩ := h
    have hstop : ∀ c ∈ rest.head?, isKeyChar c = false := by
      intro c hc
      rcases hrest c hc with rfl | rfl
      · rfl
      · rfl
    have hchars : ∀ c ∈ key, isKeyChar c = true := fun c hc => isKeyChar_iff.mpr (hkey c hc)
    exact run_part_span1_eq_some_iff.mpr ⟨key, rest, hne, hchars, hstop, rfl, rfl⟩

/-- The dot and the value of a directive. The value ends before the first end mark. -/
theorem dotValue_run_eq_some_iff :
    (seq (.word ['.']) directiveValue).run pos s = some m ↔
      ∃ value rest, value ≠ [] ∧ '>' ∉ value ∧ (∀ c ∈ rest.head?, c = '>') ∧
        s = '.' :: value ++ rest ∧
        m = ⟨'.' :: value, [⟨.directiveValue, pos + 1, value, []⟩], rest⟩ := by
  constructor
  · intro h
    obtain ⟨_, _, rfl, hrun, rfl⟩ := run_word_seq_eq_some_iff.mp h
    obtain ⟨value, rest, hne, hvalue, hrest, rfl, rfl⟩ := run_part_span1_eq_some_iff.mp hrun
    exact ⟨value, rest, hne, forall_ne_iff_notMem.mp hvalue, by simpa using hrest, rfl, rfl⟩
  · intro h
    obtain ⟨value, rest, hne, hvalue, hrest, rfl, rfl⟩ := h
    have hrun : directiveValue.run (pos + 1) (value ++ rest) =
        some ⟨value, [⟨.directiveValue, pos + 1, value, []⟩], rest⟩ :=
      run_part_span1_eq_some_iff.mpr
        ⟨value, rest, hne, forall_ne_iff_notMem.mpr hvalue, by simpa using hrest, rfl, rfl⟩
    exact run_word_seq_eq_some_iff.mpr ⟨value ++ rest, _, rfl, hrun, rfl⟩

theorem optValue_run {value : Option (List Char)} (hne : ∀ v ∈ value, v ≠ [])
    (hchars : ∀ v ∈ value, '>' ∉ v) (pos : Nat) (rest : List Char) :
    (opt (seq (.word ['.']) directiveValue)).run pos (value.elim [] ('.' :: ·) ++ '>' :: rest) =
      some ⟨value.elim [] ('.' :: ·),
        (value.map fun v => ⟨.directiveValue, pos + 1, v, []⟩).toList, '>' :: rest⟩ := by
  rw [run_opt_eq_some_iff]
  cases value with
  | none =>
    refine Or.inr ⟨?_, rfl⟩
    rw [Option.eq_none_iff_forall_ne_some]
    intro n hn
    obtain ⟨v, _, -, -, -, hs, -⟩ := dotValue_run_eq_some_iff.mp hn
    exact absurd (List.cons.inj hs).1 (by decide)
  | some v =>
    refine Or.inl (dotValue_run_eq_some_iff.mpr ?_)
    exact ⟨v, '>' :: rest, hne v rfl, hchars v rfl, by simp, rfl, rfl⟩

/-- What stands after a key, a dot with a value or the end mark, is no part of the key. -/
theorem head?_value_append (value : Option (List Char)) (rest : List Char) :
    ∀ c ∈ (value.elim [] ('.' :: ·) ++ '>' :: rest).head?, c = '>' ∨ c = '.' := by
  cases value with
  | none => simp
  | some v => simp

theorem directive_run_written {p : Placeholder} (hp : p.Writable) (pos : Nat)
    (rest : List Char) :
    directive.run pos (p.written ++ rest) = some ⟨p.written, [directivePart pos p], rest⟩ := by
  have hkey : directiveKey.run (pos + 1) (p.key ++ (p.value.elim [] ('.' :: ·) ++ '>' :: rest)) =
      some ⟨p.key, [⟨.directiveKey, pos + 1, p.key, []⟩],
        p.value.elim [] ('.' :: ·) ++ '>' :: rest⟩ :=
    directiveKey_run_eq_some_iff.mpr
      ⟨p.key, _, hp.key_ne_nil, hp.key_chars, head?_value_append p.value rest, rfl, rfl⟩
  have hvalue := optValue_run hp.value_ne_nil hp.value_chars (pos + 1 + byteSize p.key) rest
  have hclose : ∀ pos, (word ['>']).run pos ('>' :: rest) = some ⟨['>'], [], rest⟩ :=
    fun pos => run_word_eq_some_iff.mpr ⟨rest, rfl, rfl⟩
  have htail := run_seq_eq_some_iff.mpr ⟨_, _, hvalue, hclose _, rfl⟩
  have hbody := run_seq_eq_some_iff.mpr ⟨_, _, hkey, htail, rfl⟩
  rw [directive, run_part_eq_some_iff]
  refine ⟨_, run_word_seq_eq_some_iff.mpr ⟨_, _, p.written_append rest, hbody, rfl⟩, ?_⟩
  simp [Match.append, Placeholder.written, directivePart, directiveInner]

theorem directive_run_eq_none (h : ¬ BeginsDirective s) : directive.run pos s = none := by
  rw [Option.eq_none_iff_forall_ne_some]
  intro m hm
  obtain ⟨_, hseq, rfl⟩ := run_part_eq_some_iff.mp hm
  obtain ⟨_, _, rfl, hbody, rfl⟩ := run_word_seq_eq_some_iff.mp hseq
  obtain ⟨_, _, hrun, htail, rfl⟩ := run_seq_eq_some_iff.mp hbody
  obtain ⟨key, _, hkey, hkeyChars, -, rfl, rfl⟩ := directiveKey_run_eq_some_iff.mp hrun
  obtain ⟨_, _, hopt, hclose, rfl⟩ := run_seq_eq_some_iff.mp htail
  apply h
  rcases run_opt_eq_some_iff.mp hopt with hdot | hnone
  · obtain ⟨v, _, hne, hchars, -, rfl, rfl⟩ := dotValue_run_eq_some_iff.mp hdot
    obtain ⟨rest, rfl, rfl⟩ := run_word_eq_some_iff.mp hclose
    have hp : Placeholder.Writable ⟨key, some v⟩ :=
      ⟨hkey, hkeyChars, by simpa using hne, by simpa using hchars⟩
    exact ⟨⟨key, some v⟩, hp, rest, (Placeholder.written_append ⟨key, some v⟩ rest).symm⟩
  · obtain ⟨-, rfl⟩ := hnone
    obtain ⟨rest, rfl, rfl⟩ := run_word_eq_some_iff.mp hclose
    have hp : Placeholder.Writable ⟨key, none⟩ := ⟨hkey, hkeyChars, by simp, by simp⟩
    exact ⟨⟨key, none⟩, hp, rest, (Placeholder.written_append ⟨key, none⟩ rest).symm⟩

theorem directive_run_eq_some_iff :
    directive.run pos s = some m ↔ ∃ p : Placeholder, ∃ rest, p.Writable ∧ s = p.written ++ rest ∧
      m = ⟨p.written, [directivePart pos p], rest⟩ := by
  constructor
  · intro h
    by_cases hs : BeginsDirective s
    · obtain ⟨p, hp, rest, rfl⟩ := hs
      rw [directive_run_written hp, Option.some.injEq] at h
      exact ⟨p, rest, hp, rfl, h.symm⟩
    · rw [directive_run_eq_none hs] at h
      cases h
  · intro h
    obtain ⟨p, rest, hp, rfl, rfl⟩ := h
    exact directive_run_written hp pos rest

/-! ## Bare characters and blanks -/

theorem bare_run_eq_some_iff :
    bare.run pos s = some m ↔ ∃ c rest, isSpace c = false ∧ s = c :: rest ∧
      m = ⟨[c], [⟨.bare, pos, [c], []⟩], rest⟩ := by
  constructor
  · intro h
    obtain ⟨_, hone, rfl⟩ := run_part_eq_some_iff.mp h
    obtain ⟨c, rest, hc, rfl, rfl⟩ := run_one_eq_some_iff.mp hone
    exact ⟨c, rest, by simpa using hc, rfl, rfl⟩
  · intro h
    obtain ⟨c, rest, hc, rfl, rfl⟩ := h
    have hone : (one fun c => !isSpace c).run pos (c :: rest) = some ⟨[c], [], rest⟩ :=
      run_one_eq_some_iff.mpr ⟨c, rest, by simpa using hc, rfl, rfl⟩
    exact run_part_eq_some_iff.mpr ⟨_, hone, rfl⟩

theorem blank_run_eq_some_iff :
    blank.run pos s = some m ↔ ∃ w rest, w ≠ [] ∧ (∀ c ∈ w, isSpace c = true) ∧
      (∀ c ∈ rest.head?, isSpace c = false) ∧ s = w ++ rest ∧
      m = ⟨w, [⟨.blank, pos, w, []⟩], rest⟩ :=
  run_part_span1_eq_some_iff

/-! ## Tokens -/

theorem token_run_quoted {value : List Char} (hvalue : '"' ∉ value) (pos : Nat)
    (rest : List Char) :
    token.run pos ('"' :: value ++ '"' :: rest) =
      some ⟨'"' :: value ++ ['"'], [quotedPart pos value], rest⟩ := by
  rw [token, run_alt_eq_some_iff]
  exact Or.inl (quoted_run_eq_some_iff.mpr ⟨value, rest, hvalue, rfl, rfl⟩)

theorem token_run_directive {p : Placeholder} (hp : p.Writable) (pos : Nat) (rest : List Char) :
    token.run pos (p.written ++ rest) = some ⟨p.written, [directivePart pos p], rest⟩ := by
  have hd : BeginsDirective (p.written ++ rest) := ⟨p, hp, rest, rfl⟩
  have hq : ¬ BeginsQuoted (p.written ++ rest) := by
    intro hq
    have h := hq.head?_eq
    rw [hd.head?_eq] at h
    exact absurd h (by decide)
  rw [token, run_alt_eq_some_iff]
  refine Or.inr ⟨quoted_run_eq_none hq, ?_⟩
  rw [run_alt_eq_some_iff]
  exact Or.inl (directive_run_written hp pos rest)

theorem token_run_bare {c : Char} {rest : List Char} (hc : isSpace c = false)
    (hq : ¬ BeginsQuoted (c :: rest)) (hd : ¬ BeginsDirective (c :: rest)) (pos : Nat) :
    token.run pos (c :: rest) = some ⟨[c], [⟨.bare, pos, [c], []⟩], rest⟩ := by
  rw [token, run_alt_eq_some_iff]
  refine Or.inr ⟨quoted_run_eq_none hq, ?_⟩
  rw [run_alt_eq_some_iff]
  refine Or.inr ⟨directive_run_eq_none hd, ?_⟩
  rw [run_alt_eq_some_iff]
  exact Or.inl (bare_run_eq_some_iff.mpr ⟨c, rest, hc, rfl, rfl⟩)

/-- A space begins neither a quoted string nor a directive. -/
theorem not_begins_of_isSpace {c : Char} (hc : isSpace c = true) (rest : List Char) :
    ¬ BeginsQuoted (c :: rest) ∧ ¬ BeginsDirective (c :: rest) := by
  constructor
  · intro h
    obtain rfl : c = '"' := Option.some.inj h.head?_eq
    exact absurd hc (by decide)
  · intro h
    obtain rfl : c = '<' := Option.some.inj h.head?_eq
    exact absurd hc (by decide)

theorem token_run_blank {w rest : List Char} (hne : w ≠ []) (hw : ∀ c ∈ w, isSpace c = true)
    (hrest : ∀ c ∈ rest.head?, isSpace c = false) (pos : Nat) :
    token.run pos (w ++ rest) = some ⟨w, [⟨.blank, pos, w, []⟩], rest⟩ := by
  obtain ⟨c, w, rfl⟩ := List.exists_cons_of_ne_nil hne
  have hc : isSpace c = true := hw c (List.mem_cons_self ..)
  obtain ⟨hq, hd⟩ := not_begins_of_isSpace hc (w ++ rest)
  have hbare : bare.run pos (c :: w ++ rest) = none := by
    rw [Option.eq_none_iff_forall_ne_some]
    intro m hm
    obtain ⟨c', _, hc', hs, -⟩ := bare_run_eq_some_iff.mp hm
    rw [← (List.cons.inj hs).1, hc] at hc'
    exact absurd hc' (by decide)
  rw [token, run_alt_eq_some_iff]
  refine Or.inr ⟨quoted_run_eq_none hq, ?_⟩
  rw [run_alt_eq_some_iff]
  refine Or.inr ⟨directive_run_eq_none hd, ?_⟩
  rw [run_alt_eq_some_iff]
  exact Or.inr ⟨hbare, blank_run_eq_some_iff.mpr ⟨c :: w, rest, hne, hw, hrest, rfl, rfl⟩⟩

theorem token_productive : token.Productive := by
  intro pos s m h
  rcases run_alt_eq_some_iff.mp h with h | ⟨-, h⟩
  · obtain ⟨value, rest, -, -, rfl⟩ := quoted_run_eq_some_iff.mp h
    simp
  rcases run_alt_eq_some_iff.mp h with h | ⟨-, h⟩
  · obtain ⟨_, hseq, rfl⟩ := run_part_eq_some_iff.mp h
    obtain ⟨_, _, -, -, rfl⟩ := run_word_seq_eq_some_iff.mp hseq
    simp
  rcases run_alt_eq_some_iff.mp h with h | ⟨-, h⟩
  · obtain ⟨c, rest, -, -, rfl⟩ := bare_run_eq_some_iff.mp h
    simp
  · obtain ⟨w, rest, hne, -, -, -, rfl⟩ := blank_run_eq_some_iff.mp h
    exact hne

/-- Some token begins at every character. -/
theorem token_run_ne_none (pos : Nat) (c : Char) (rest : List Char) :
    token.run pos (c :: rest) ≠ none := by
  rw [Option.ne_none_iff_exists']
  by_cases hq : BeginsQuoted (c :: rest)
  · obtain ⟨value, rest', hvalue, hs⟩ := hq
    rw [hs]
    exact ⟨_, token_run_quoted hvalue pos rest'⟩
  by_cases hd : BeginsDirective (c :: rest)
  · obtain ⟨p, hp, rest', hs⟩ := hd
    rw [hs]
    exact ⟨_, token_run_directive hp pos rest'⟩
  cases hc : isSpace c with
  | false => exact ⟨_, token_run_bare hc hq hd pos⟩
  | true =>
    obtain ⟨w, rest', hw, hrest, rfl⟩ := exists_longest_run isSpace rest
    have hall : ∀ d ∈ c :: w, isSpace d = true := by simpa using ⟨hc, hw⟩
    exact ⟨_, token_run_blank (List.cons_ne_nil c w) hall hrest pos⟩

theorem token_run_nil (pos : Nat) : token.run pos [] = none := token_productive.run_nil

/-- The tokens of a text leave nothing of it. -/
theorem rest_manyMatch_token (pos : Nat) (s : List Char) : (token.manyMatch pos s).rest = [] := by
  obtain ⟨pos', h⟩ := token_productive.run_rest_manyMatch pos s
  cases hrest : (token.manyMatch pos s).rest with
  | nil => rfl
  | cons c rest =>
    rw [hrest] at h
    exact absurd h (token_run_ne_none pos' c rest)

theorem taken_manyMatch_token (pos : Nat) (s : List Char) :
    (token.manyMatch pos s).taken = s := by
  have h := run_taken_append_rest (run_many : (many token).run pos s = _)
  rwa [rest_manyMatch_token, List.append_nil] at h

/-- The tokens of a text take all of it. -/
theorem many_token_run (pos : Nat) (s : List Char) :
    (many token).run pos s = some ⟨s, (token.manyMatch pos s).parts, []⟩ := by
  calc (many token).run pos s
    _ = some ⟨(token.manyMatch pos s).taken, (token.manyMatch pos s).parts,
          (token.manyMatch pos s).rest⟩ := run_many
    _ = some ⟨s, (token.manyMatch pos s).parts, []⟩ := by
        rw [taken_manyMatch_token, rest_manyMatch_token]

/-! ## Lines -/

/-- A line matches with its command head, if it has one, and then the tokens of what is left. -/
theorem line_parts? {head rest : List Char} {ps : List Part}
    (hopt : (opt command).run 0 s = some ⟨head, ps, rest⟩) :
    line.parts? s = some [⟨.line, 0, s, ps ++ ((token.manyMatch (byteSize head) rest).parts ++
      [⟨.endOfInput, byteSize s, [], []⟩])⟩] := by
  obtain rfl : head ++ rest = s := run_taken_append_rest hopt
  have hmany := many_token_run (0 + byteSize head) rest
  have hfinish : finish.run (0 + byteSize head + byteSize rest) [] =
      some ⟨[], [⟨.endOfInput, 0 + byteSize head + byteSize rest, [], []⟩], []⟩ := rfl
  have htail := run_seq_eq_some_iff.mpr ⟨_, _, hmany, hfinish, rfl⟩
  have hall := run_seq_eq_some_iff.mpr ⟨_, _, hopt, htail, rfl⟩
  have hrun := run_part_eq_some_iff (r := .line).mpr ⟨_, hall, rfl⟩
  unfold parts?
  rw [line, hrun]
  simp [Match.append]

end MacroScript.Grammar
