import MacroScript.Completion
/-
  Where completions are offered, said by the text before the cursor and without the current
  line. The text ends with the character of a trigger, and a slash stands at the start of the
  text or right after a line feed (`Completion.atCursor?_eq_some_iff`).
-/

namespace MacroScript

variable {before : List Char} {c : Char}

/-! ## The current line -/

theorem currentLine_append_feed (before : List Char) : currentLine (before ++ ['\n']) = [] := by
  simp [currentLine]

theorem currentLine_append_of_ne (hc : c ≠ '\n') (before : List Char) :
    currentLine (before ++ [c]) = currentLine before ++ [c] := by
  simp [currentLine, hc]

theorem currentLine_eq_nil_iff :
    currentLine before = [] ↔ ∀ c ∈ before.getLast?, c = '\n' := by
  cases hlast : before.getLast? with
  | none =>
    obtain rfl := List.getLast?_eq_none_iff.mp hlast
    simp [currentLine]
  | some c =>
    obtain ⟨a, rfl⟩ := List.getLast?_eq_some_iff.mp hlast
    by_cases hc : c = '\n'
    · subst hc
      simp [currentLine_append_feed]
    · simp [currentLine_append_of_ne hc, hc]

/-! ## Triggers -/

/-- A completion of this sort may begin after the text: a command only at the start of a line. -/
def Trigger.MayFollow (before : List Char) : Trigger → Prop
  | .command => ∀ c ∈ before.getLast?, c = '\n'
  | .placeholder => True

theorem Trigger.utf8Size_char (t : Trigger) : t.char.utf8Size = 1 := by
  cases t with
  | command => rfl
  | placeholder => rfl

theorem Trigger.byteSize_append_char (before : List Char) (t : Trigger) :
    byteSize (before ++ [t.char]) = byteSize before + 1 := by
  rw [byteSize_append, byteSize_cons, t.utf8Size_char, byteSize_nil]

theorem Trigger.atEnd?_eq_command_iff {line : List Char} :
    atEnd? line = some .command ↔ line = ['/'] := by
  unfold atEnd?
  split
  · next h => simpa [char] using h
  · next h =>
    split
    · simpa [char] using h
    · simpa [char] using h

theorem Trigger.atEnd?_eq_placeholder_iff {line : List Char} :
    atEnd? line = some .placeholder ↔ line.getLast? = some '<' := by
  unfold atEnd?
  split
  · next h => simp [h, char]
  · split
    · next h => simpa [char] using h
    · next h => simpa [char] using h

theorem Trigger.atEnd?_nil : atEnd? [] = none := rfl

/-- The last character before the cursor is the trigger's. -/
theorem Trigger.atEnd?_append_singleton {t : Trigger} :
    atEnd? (currentLine (before ++ [c])) = some t ↔ c = t.char ∧ t.MayFollow before := by
  by_cases hc : c = '\n'
  · subst hc
    rw [currentLine_append_feed, atEnd?_nil]
    cases t with
    | command => simp [char]
    | placeholder => simp [char]
  · rw [currentLine_append_of_ne hc]
    cases t with
    | command =>
      rw [atEnd?_eq_command_iff, MayFollow, ← currentLine_eq_nil_iff, List.append_eq_singleton_iff]
      simp [char, and_comm]
    | placeholder =>
      rw [atEnd?_eq_placeholder_iff, List.getLast?_concat]
      simp [char, MayFollow]

/-! ## Completions -/

namespace Completion

variable {text : List Char} {cursor : Nat} {completion : Completion}

/-- A completion is offered right after the character of a trigger that may stand there. It
begins at that character. -/
theorem atCursor?_eq_some_iff : atCursor? text cursor = some completion ↔
    ∃ before after, ∃ t : Trigger, text = before ++ t.char :: after ∧
      cursor = byteSize before + 1 ∧ t.MayFollow before ∧
      completion = ⟨byteSize before, t, suggestions⟩ := by
  constructor
  · intro h
    obtain ⟨⟨front, after⟩, hcut, h⟩ := Option.bind_eq_some_iff.mp h
    obtain ⟨t, hend, h⟩ := Option.bind_eq_some_iff.mp h
    obtain rfl := Option.some.inj h
    obtain ⟨rfl, rfl⟩ := splitAtByte?_eq_some_iff.mp hcut
    rcases List.eq_nil_or_concat front with rfl | ⟨before, c, hfront⟩
    · cases hend
    · rw [List.concat_eq_append] at hfront
      subst hfront
      obtain ⟨rfl, hmay⟩ := Trigger.atEnd?_append_singleton.mp hend
      refine ⟨before, after, t, by simp, t.byteSize_append_char before, hmay, ?_⟩
      rw [byteSize_append, byteSize_cons, byteSize_nil, Nat.add_zero, Nat.add_sub_cancel]
  · rintro ⟨before, after, t, rfl, rfl, hmay, rfl⟩
    have hcut : splitAtByte? (before ++ t.char :: after) (byteSize before + 1) =
        some (before ++ [t.char], after) :=
      splitAtByte?_eq_some_iff.mpr ⟨by simp, t.byteSize_append_char before⟩
    have hend : Trigger.atEnd? (currentLine (before ++ [t.char])) = some t :=
      Trigger.atEnd?_append_singleton.mpr ⟨rfl, hmay⟩
    unfold atCursor?
    rw [hcut]
    simp only [Option.bind_eq_bind, Option.bind_some, hend]
    rw [t.utf8Size_char, Nat.add_sub_cancel]
    rfl

end Completion

end MacroScript
