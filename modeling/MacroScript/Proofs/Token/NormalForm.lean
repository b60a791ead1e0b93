import MacroScript.Proofs.Token.Canonical
/-
  The normal form of the tokens of a line, place by place: the neighbours of a token
  (`Reads.separated_at`), the text from a bare character on (`Reads.noneMissed_at`), where a
  command may stand (`Reads.command_at`). Main statement: `ofLine_normalForm`.
-/

namespace MacroScript.Token

theorem Reads.separated_at {line : List Char} {before after : List Token} {t : Token}
    (h : Reads line (before ++ t :: after)) : ∀ u ∈ after.head?,
      ¬ (t.kind = .whitespace ∧ u.kind = .whitespace) ∧ ¬ (t.IsBare ∧ u.IsBare) := by
  cases before with
  | nil => exact h.separated.1
  | cons b before => exact h.append_right.separated.1

theorem Reads.noneMissed_at {line : List Char} {before after : List Token} {t : Token}
    (h : Reads line (before ++ t :: after)) (hb : t.IsBare) {x y : List Char} {c : Char}
    (hraw : t.raw = x ++ c :: y) :
    ¬ BeginsQuoted (c :: y ++ raws after) ∧ ¬ BeginsDirective (c :: y ++ raws after) := by
  cases before with
  | nil => exact h.noneMissed.1 hb x c y hraw
  | cons b before => exact h.append_right.noneMissed.1 hb x c y hraw

theorem Reads.command_at {line : List Char} {before after : List Token} {t : Token}
    (h : Reads line (before ++ t :: after)) (hk : t.kind = .command) :
    before = [] ∧ ∀ u ∈ after.head?, u.kind = .whitespace := by
  cases before with
  | nil => exact ⟨rfl, h.commandFirst.1 hk⟩
  | cons b before =>
    have hmem : t ∈ before ++ t :: after := List.mem_append_right _ (List.mem_cons_self ..)
    exact absurd hk (h.commandFirst.2 t hmem)

theorem Reads.begins_iff {line : List Char} {ts : List Token} (h : Reads line ts) :
    (∃ t ∈ ts.head?, t.kind = .command) ↔ BeginsCommand line := by
  constructor
  · intro hhead
    obtain ⟨t, ht, hk⟩ := hhead
    rcases reads_iff.mp h with ⟨-, hts⟩ | ⟨name, rest, us, hne, hname, hrest, hline, -⟩
    · exact absurd hk (hts.kind_ne_command t (List.mem_of_mem_head? ht))
    · exact beginsCommand_iff.mpr ⟨name, rest, hne, hname, hrest, hline⟩
  · exact h.command_of_begins

/-- **Normal form.** The first token of a line is a command exactly if the line begins with one.
At every place in the tokens: a command stands first, and whitespace comes after it; no two
neighbours are both whitespace or both bare; and from no character of bare text on does the line
begin with a quoted string or a directive, so that no quote comes after a quote in bare text. -/
theorem ofLine_normalForm (line : List Char) :
    ((∃ t ∈ (ofLine line).head?, t.kind = .command) ↔ BeginsCommand line) ∧
    ∀ before t after, ofLine line = before ++ t :: after →
      (t.kind = .command → before = [] ∧ ∀ u ∈ after.head?, u.kind = .whitespace) ∧
      (∀ u ∈ after.head?, ¬ (t.kind = .whitespace ∧ u.kind = .whitespace) ∧
        ¬ (t.IsBare ∧ u.IsBare)) ∧
      (t.IsBare → ∀ x c y, t.raw = x ++ c :: y →
        line = raws before ++ x ++ (c :: y ++ raws after) ∧
        ¬ BeginsQuoted (c :: y ++ raws after) ∧ ¬ BeginsDirective (c :: y ++ raws after) ∧
        (c = '"' → '"' ∉ y ++ raws after)) := by
  have hline := reads_ofLine line
  refine ⟨hline.begins_iff, ?_⟩
  intro before t after hts
  have h : Reads line (before ++ t :: after) := hts ▸ hline
  refine ⟨h.command_at, h.separated_at, ?_⟩
  intro hb x c y hraw
  obtain ⟨hq, hd⟩ := h.noneMissed_at hb hraw
  refine ⟨?_, hq, hd, ?_⟩
  · rw [← h.raws_eq, raws_append, raws_cons, hraw]
    simp
  · intro hc
    subst hc
    exact fun hmem => hq (beginsQuoted_cons_iff.mpr hmem)

theorem ofLine_normalForm_open_quote :
    ofLine "a \"b <me".toList = [text ['a'], ⟨.whitespace, [' ']⟩] ++
      text "\"b".toList :: [⟨.whitespace, [' ']⟩, text "<me".toList] ∧
    '"' ∉ ['b'] ++ raws [⟨.whitespace, [' ']⟩, text "<me".toList] := by
  have htokens : ofLine "a \"b <me".toList = [text ['a'], ⟨.whitespace, [' ']⟩] ++
      text "\"b".toList :: [⟨.whitespace, [' ']⟩, text "<me".toList] := by
    decide +kernel
  obtain ⟨-, -, hbare⟩ := (ofLine_normalForm "a \"b <me".toList).2 _ _ _ htokens
  exact ⟨htokens, (hbare rfl [] '"' ['b'] rfl).2.2.2 rfl⟩

end MacroScript.Token
