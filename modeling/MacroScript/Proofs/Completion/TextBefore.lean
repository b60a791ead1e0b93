import MacroScript.Proofs.Completion.Cursor
import MacroScript.Proofs.Text.Runs
/-
  Completions and the text before the cursor. That text alone decides, by its last one or two
  characters, and what comes after the cursor does not (`Completion.atCursor?_append`). Of the
  text before, only the current line matters: lines in front of it only move the completion
  (`Completion.atCursor?_after_feed`). Main statement: `Completion.atCursor?_by_text_before`.
-/

namespace MacroScript

variable {before line : List Char}

/-! ## The line after a line feed -/

theorem currentLine_after_feed (front : List Char) (hline : '\n' ∉ line) :
    currentLine (front ++ '\n' :: line) = line := by
  have hreverse : (front ++ '\n' :: line).reverse = line.reverse ++ '\n' :: front.reverse := by
    simp
  have hstop : ∀ c ∈ ('\n' :: front.reverse).head?, (c != '\n') = false := by simp
  have hchars : ∀ c ∈ line.reverse, (c != '\n') = true := forall_ne_iff_notMem.mpr (by simpa)
  rw [currentLine, hreverse, takeWhile_append_of_stop hchars hstop, List.reverse_reverse]

theorem currentLine_of_feed_notMem (hline : '\n' ∉ line) : currentLine line = line := by
  have hchars : ∀ c ∈ line.reverse, (c != '\n') = true := forall_ne_iff_notMem.mpr (by simpa)
  have hstop : ∀ c ∈ ([] : List Char).head?, (c != '\n') = false := by simp
  have htake := takeWhile_append_of_stop hchars hstop
  rw [List.append_nil] at htake
  rw [currentLine, htake, List.reverse_reverse]

/-! ## Ends of the text before -/

/-- A text ends with a bracket or, as the first character of a line, with a slash. -/
def Trigger.Ends (before : List Char) : Trigger → Prop
  | .command => before = ['/'] ∨ ['\n', '/'] <:+ before
  | .placeholder => ['<'] <:+ before

theorem Trigger.ends_iff {t : Trigger} :
    t.Ends before ↔ ∃ front, before = front ++ [t.char] ∧ t.MayFollow front := by
  cases t with
  | command =>
    constructor
    · rintro (rfl | ⟨front, rfl⟩)
      · exact ⟨[], rfl, by simp [MayFollow]⟩
      · exact ⟨front ++ ['\n'], by simp [char], by simp [MayFollow]⟩
    · rintro ⟨front, rfl, hmay⟩
      rcases List.eq_nil_or_concat front with rfl | ⟨front, c, rfl⟩
      · exact Or.inl rfl
      · obtain rfl : c = '\n' := hmay c (by simp)
        exact Or.inr ⟨front, by simp [char]⟩
  | placeholder =>
    constructor
    · rintro ⟨front, rfl⟩
      exact ⟨front, rfl, trivial⟩
    · rintro ⟨front, rfl, -⟩
      exact ⟨front, rfl⟩

namespace Completion

variable {text : List Char} {cursor : Nat} {completion : Completion}

/-! ## Completions by the text before -/

theorem atCursor?_append (before after : List Char) :
    atCursor? (before ++ after) (byteSize before) =
      (Trigger.atEnd? (currentLine before)).map fun t =>
        ⟨byteSize before - 1, t, suggestions⟩ := by
  unfold atCursor?
  rw [splitAtByte?_append]
  cases hend : Trigger.atEnd? (currentLine before) with
  | none => simp [hend]
  | some t => simp [hend, t.utf8Size_char]

theorem atCursor?_eq_some_iff_ends : atCursor? text cursor = some completion ↔
    ∃ before after, text = before ++ after ∧ byteSize before = cursor ∧
      completion.trigger.Ends before ∧ completion.start + 1 = cursor ∧
      completion.options = suggestions := by
  rw [atCursor?_eq_some_iff]
  constructor
  · rintro ⟨front, after, t, rfl, rfl, hmay, rfl⟩
    have hends : t.Ends (front ++ [t.char]) := Trigger.ends_iff.mpr ⟨front, rfl, hmay⟩
    exact ⟨front ++ [t.char], after, by simp, t.byteSize_append_char front, hends, rfl, rfl⟩
  · rintro ⟨before, after, rfl, rfl, hends, hstart, hoptions⟩
    obtain ⟨front, rfl, hmay⟩ := Trigger.ends_iff.mp hends
    have hsize := completion.trigger.byteSize_append_char front
    refine ⟨front, after, completion.trigger, by simp, hsize, hmay, ?_⟩
    rw [hsize] at hstart
    cases completion
    simp_all

/-- Lines in front of the current one only move a completion. -/
theorem atCursor?_after_feed (front : List Char) (hline : '\n' ∉ line) (after : List Char) :
    atCursor? (front ++ '\n' :: (line ++ after)) (byteSize front + 1 + byteSize line) =
      (atCursor? line (byteSize line)).map fun completion =>
        { completion with start := byteSize front + 1 + completion.start } := by
  have hsize : byteSize (front ++ '\n' :: line) = byteSize front + 1 + byteSize line := by
    rw [byteSize_append, byteSize_cons, Nat.add_assoc]
    rfl
  have hfar := atCursor?_append (front ++ '\n' :: line) after
  have hnear := atCursor?_append line []
  rw [currentLine_after_feed front hline, hsize, List.append_assoc, List.cons_append] at hfar
  rw [currentLine_of_feed_notMem hline, List.append_nil] at hnear
  rw [hfar, hnear]
  cases hend : Trigger.atEnd? line with
  | none => rfl
  | some t =>
    -- the character of the trigger is in the line, so its position is too
    have hpos : 1 ≤ byteSize line := by
      obtain ⟨c, rest, rfl⟩ : ∃ c rest, line = c :: rest := by
        apply List.exists_cons_of_ne_nil
        rintro rfl
        cases hend
      have := c.utf8Size_pos
      rw [byteSize_cons]
      omega
    simp only [Option.map_some, Option.some.injEq, Completion.mk.injEq, and_true]
    omega

theorem exists_atCursor?_iff : (∃ completion, atCursor? text cursor = some completion) ↔
    cursor ≤ byteSize text ∧ ∃ before after, text = before ++ after ∧
      byteSize before = cursor ∧ ∃ t : Trigger, t.Ends before := by
  constructor
  · rintro ⟨completion, h⟩
    obtain ⟨before, after, rfl, rfl, hends, -⟩ := atCursor?_eq_some_iff_ends.mp h
    refine ⟨?_, before, after, rfl, rfl, completion.trigger, hends⟩
    rw [byteSize_append]
    exact Nat.le_add_right ..
  · rintro ⟨-, before, after, rfl, rfl, t, hends⟩
    obtain ⟨front, rfl, -⟩ := Trigger.ends_iff.mp hends
    refine ⟨⟨byteSize front, t, suggestions⟩, atCursor?_eq_some_iff_ends.mpr ?_⟩
    exact ⟨front ++ [t.char], after, rfl, rfl, hends, (t.byteSize_append_char front).symm, rfl⟩

/-- What a completion replaces is the character of its trigger, between two boundaries. -/
theorem slice?_start_cursor (h : atCursor? text cursor = some completion) :
    (∃ cut, splitAtByte? text completion.start = some cut) ∧
      slice? text completion.start cursor = some [completion.trigger.char] := by
  obtain ⟨before, after, t, rfl, rfl, -, rfl⟩ := atCursor?_eq_some_iff.mp h
  refine ⟨⟨_, splitAtByte?_append before (t.char :: after)⟩, slice?_eq_some_iff.mpr ?_⟩
  refine ⟨before, after, rfl, rfl, ?_⟩
  rw [byteSize_cons, t.utf8Size_char, byteSize_nil]

/-- **The text before the cursor decides.** A completion is offered at a cursor exactly if the
cursor is a boundary in the text and the text before it ends with a bracket or, as the first
character of a line, with a slash: of a placeholder after a bracket, of a command after a slash.
It begins one byte before the cursor, at a boundary, and replaces the bracket or the slash. So a
completion at the end of a line is the same wherever the line stands and whatever follows, but
for its position. -/
theorem atCursor?_by_text_before (text : List Char) (cursor : Nat) :
    ((∃ completion, atCursor? text cursor = some completion) ↔
      cursor ≤ byteSize text ∧ ∃ before after, text = before ++ after ∧
        byteSize before = cursor ∧ ∃ t : Trigger, t.Ends before) ∧
    (∀ completion, atCursor? text cursor = some completion ↔
      ∃ before after, text = before ++ after ∧ byteSize before = cursor ∧
        completion.trigger.Ends before ∧ completion.start + 1 = cursor ∧
        completion.options = suggestions) ∧
    (∀ completion, atCursor? text cursor = some completion →
      (∃ cut, splitAtByte? text completion.start = some cut) ∧
        slice? text completion.start cursor = some [completion.trigger.char]) ∧
    ∀ front line after, '\n' ∉ line →
      atCursor? (front ++ '\n' :: (line ++ after)) (byteSize front + 1 + byteSize line) =
        (atCursor? line (byteSize line)).map fun completion =>
          { completion with start := byteSize front + 1 + completion.start } := by
  refine ⟨exists_atCursor?_iff, fun _ => atCursor?_eq_some_iff_ends, ?_, ?_⟩
  · exact fun _ h => slice?_start_cursor h
  · exact fun front line after hline => atCursor?_after_feed front hline after

/-- A bracket after characters of two and of three bytes, and a slash after an empty line. -/
theorem atCursor?_by_text_before_wide :
    slice? "é\n가<b".toList 6 7 = some ['<'] ∧
    atCursor? "é\n가<b".toList 7 = some ⟨6, .placeholder, suggestions⟩ ∧
    atCursor? "\r\n/a".toList 3 = some ⟨2, .command, suggestions⟩ := by
  have hbracket : atCursor? "é\n가<b".toList 7 = some ⟨6, .placeholder, suggestions⟩ :=
    (atCursor?_by_text_before "é\n가<b".toList 7).2.2.2 ['é'] ['가', '<'] ['b'] (by decide)
  have hslash : atCursor? "\r\n/a".toList 3 = some ⟨2, .command, suggestions⟩ :=
    ((atCursor?_by_text_before "\r\n/a".toList 3).2.1 _).mpr
      ⟨['\r', '\n', '/'], ['a'], rfl, rfl, Or.inr ⟨['\r'], rfl⟩, rfl, rfl⟩
  exact ⟨((atCursor?_by_text_before _ _).2.2.1 _ hbracket).2, hbracket, hslash⟩

end Completion

end MacroScript
