import MacroScript.Proofs.Completion.Cursor
import MacroScript.Proofs.Text.Lines
import MacroScript.Proofs.Token.NormalForm
/-
  Completions and tokens agree. A completion is offered right after the first character of every
  command head and of every directive of a script, and a completion of a command begins where a
  line does. The position of a token is that of its line and that of the token in the line, in
  bytes. Main statement: `Completion.atCursor?_agrees`.
-/

namespace MacroScript

open Token

variable {script line rest : List Char} {k : Nat}

/-! ## Command heads -/

theorem beginsCommand_cons_slash_iff :
    BeginsCommand ('/' :: rest) ↔ ∃ d ∈ rest.head?, isSpace d = false := by
  constructor
  · rintro ⟨d, tail, hd, hrest⟩
    rw [(List.cons.inj hrest).2]
    exact ⟨d, rfl, hd⟩
  · rintro ⟨d, hd, hspace⟩
    obtain ⟨tail, rfl⟩ := List.head?_eq_some_iff.mp hd
    exact ⟨d, tail, hspace, rfl⟩

/-! ## Completions at lines and tokens -/

namespace Completion

/-- A slash that begins a line may be completed to a command. -/
theorem atCursor?_start (h : (Lines.split script)[k]? = some line)
    (hslash : line.head? = some '/') :
    atCursor? script (Lines.start script k + 1) =
      some ⟨Lines.start script k, .command, suggestions⟩ := by
  obtain ⟨before, after, hscript, hsize, hlast⟩ := Lines.exists_append_of_getElem? h
  obtain ⟨rest, rfl⟩ := List.head?_eq_some_iff.mp hslash
  rw [← hsize]
  exact atCursor?_eq_some_iff.mpr ⟨before, rest ++ after, .command, hscript, rfl, hlast, rfl⟩

/-- An angle bracket anywhere in a line may be completed to a placeholder. -/
theorem atCursor?_bracket {front : List Char}
    (h : (Lines.split script)[k]? = some (front ++ '<' :: rest)) :
    atCursor? script (Lines.start script k + byteSize front + 1) =
      some ⟨Lines.start script k + byteSize front, .placeholder, suggestions⟩ := by
  obtain ⟨before, after, rfl, hsize, -⟩ := Lines.exists_append_of_getElem? h
  rw [← hsize, ← byteSize_append]
  exact atCursor?_eq_some_iff.mpr ⟨before ++ front, rest ++ after, .placeholder,
    by simp [Trigger.char], rfl, trivial, rfl⟩

/-- A completion of a command begins where a line with a slash in front does. -/
theorem exists_line_of_command {cursor : Nat} {completion : Completion}
    (h : atCursor? script cursor = some completion) (ht : completion.trigger = .command) :
    ∃ k rest, (Lines.split script)[k]? = some ('/' :: rest) ∧
      completion.start = Lines.start script k := by
  obtain ⟨before, after, t, rfl, -, hmay, rfl⟩ := atCursor?_eq_some_iff.mp h
  obtain rfl : t = .command := ht
  have hbefore : ∀ c ∈ before.getLast?, c = '\n' := hmay
  obtain ⟨k, hstart, hline⟩ := Lines.exists_getElem?_split hbefore ('/' :: after)
  have hfirst : (Lines.split ('/' :: after)).head? = (Lines.split after).head?.map ('/' :: ·) := by
    rw [Lines.split_cons (by decide) (fun hc => absurd hc (by decide)), List.head?_modifyHead]
  obtain ⟨rest, lines, hsplit⟩ := List.exists_cons_of_ne_nil (Lines.split_ne_nil after)
  rw [hfirst, hsplit] at hline
  exact ⟨k, rest, hline, hstart.symm⟩

/-- **Completions and tokens agree.** Where a line of a script begins with a command, a command is
completed right after the slash, from the start of the line; where a placeholder or a wait stands
in a line, a placeholder is completed right after the bracket, from the start of the token. And a
command is completed only from the start of a line with a slash in front, which begins with a
command exactly if a character that is no space comes right after the slash. -/
theorem atCursor?_agrees (script : List Char) :
    (∀ k line, (Lines.split script)[k]? = some line →
      slice? script (Lines.start script k) (Lines.start script k + byteSize line) = some line ∧
      ((∃ t ∈ (Token.ofLine line).head?, t.kind = .command) →
        atCursor? script (Lines.start script k + 1) =
          some ⟨Lines.start script k, .command, suggestions⟩) ∧
      ∀ before t after, Token.ofLine line = before ++ t :: after →
        t.kind = .placeholder ∨ t.kind = .wait →
        atCursor? script (Lines.start script k + byteSize (raws before) + 1) =
          some ⟨Lines.start script k + byteSize (raws before), .placeholder, suggestions⟩) ∧
    ∀ cursor completion, atCursor? script cursor = some completion →
      completion.trigger = .command →
      ∃ k rest, (Lines.split script)[k]? = some ('/' :: rest) ∧
        completion.start = Lines.start script k ∧
        ((∃ t ∈ (Token.ofLine ('/' :: rest)).head?, t.kind = .command) ↔
          ∃ d ∈ rest.head?, isSpace d = false) := by
  constructor
  · intro k line h
    have hread := reads_ofLine line
    refine ⟨?_, ?_, ?_⟩
    · obtain ⟨before, after, hscript, hsize, -⟩ := Lines.exists_append_of_getElem? h
      exact slice?_eq_some_iff.mpr ⟨before, after, hscript, hsize, rfl⟩
    · intro hcommand
      exact atCursor?_start h (hread.begins_iff.mp hcommand).head?_eq
    · intro before t after htokens hk
      rw [htokens] at hread
      have ht := hread.wellFormed t (List.mem_append_right before (List.mem_cons_self ..))
      obtain ⟨inside, hraw⟩ := ht.raw_directive hk
      have hline : raws before ++ '<' :: (inside ++ ['>'] ++ raws after) = line := by
        rw [← hread.raws_eq, raws_append, raws_cons, hraw, List.cons_append, List.cons_append]
      exact atCursor?_bracket (by rw [hline]; exact h)
  · intro cursor completion h ht
    obtain ⟨k, rest, hline, hstart⟩ := exists_line_of_command h ht
    refine ⟨k, rest, hline, hstart, ?_⟩
    rw [(reads_ofLine ('/' :: rest)).begins_iff, beginsCommand_cons_slash_iff]

/-- The second line starts after a character of two bytes and a break of two. -/
theorem atCursor?_agrees_second_line :
    (Lines.split "é\r\n/a <t>".toList)[1]? = some "/a <t>".toList ∧
    Token.ofLine "/a <t>".toList = [⟨.command ['a'], "/a".toList⟩, ⟨.whitespace, [' ']⟩] ++
      ⟨.placeholder ⟨['t'], none⟩, "<t>".toList⟩ :: [] ∧
    atCursor? "é\r\n/a <t>".toList 5 = some ⟨4, .command, suggestions⟩ ∧
    atCursor? "é\r\n/a <t>".toList 8 = some ⟨7, .placeholder, suggestions⟩ ∧
    ∃ k rest, (Lines.split "é\r\n/a <t>".toList)[k]? = some ('/' :: rest) ∧
      4 = Lines.start "é\r\n/a <t>".toList k := by
  have hline : (Lines.split "é\r\n/a <t>".toList)[1]? = some "/a <t>".toList := by decide
  have htokens : Token.ofLine "/a <t>".toList =
      [⟨.command ['a'], "/a".toList⟩, ⟨.whitespace, [' ']⟩] ++
        ⟨.placeholder ⟨['t'], none⟩, "<t>".toList⟩ :: [] := by
    decide +kernel
  have hhead : ∃ t ∈ (Token.ofLine "/a <t>".toList).head?, t.kind = .command := by
    rw [htokens]
    exact ⟨_, rfl, rfl⟩
  obtain ⟨htokensAgree, hlinesAgree⟩ := atCursor?_agrees "é\r\n/a <t>".toList
  obtain ⟨-, hcommand, hplaceholder⟩ := htokensAgree 1 _ hline
  obtain ⟨k, rest, hk, hstart, -⟩ := hlinesAgree 5 _ (hcommand hhead) rfl
  exact ⟨hline, htokens, hcommand hhead, hplaceholder _ _ _ htokens (Or.inl rfl),
    k, rest, hk, hstart⟩

end Completion

end MacroScript
