import MacroScript.Proofs.Grammar.NumberRules
import MacroScript.Wait
/-
  A wait argument is read by the longest numeral at its front, after any spaces, whatever comes
  after it; without one it asks for no wait. Main statement: `Wait.ofArgument_longest_numeral`.
-/

namespace MacroScript

open Pattern

variable {n : Numeral} {argument s : List Char} {pos : Nat} {m : Match}

/-! ## Decimals and leading numerals -/

/-- What a decimal takes is the longest numeral. -/
theorem Numeral.leads_of_run (h : Grammar.decimal.run pos s = some m) (hn : n.text = m.taken) :
    n.Leads s := by
  refine ⟨⟨m.rest, ?_⟩, ?_⟩
  · rw [hn]
    exact run_taken_append_rest h
  · rintro n' ⟨t, rfl⟩
    obtain ⟨m', hrun, hle⟩ := Grammar.decimal_run_text n' pos t
    obtain rfl : m' = m := Option.some.inj (hrun.symm.trans h)
    rw [hn]
    exact hle.length_le

theorem Numeral.exists_leads_of_run (h : Grammar.decimal.run pos s = some m) :
    ∃ n : Numeral, n.Leads s ∧ n.text = m.taken := by
  obtain ⟨-, n, hn⟩ := Grammar.exists_numeral_of_run h
  exact ⟨n, leads_of_run h hn, hn⟩

theorem Numeral.exists_run_of_prefix (h : n.text <+: s) (pos : Nat) :
    ∃ m, Grammar.decimal.run pos s = some m := by
  obtain ⟨t, rfl⟩ := h
  obtain ⟨m, hrun, -⟩ := Grammar.decimal_run_text n pos t
  exact ⟨m, hrun⟩

/-- Two longest numerals are written the same. -/
theorem Numeral.Leads.text_eq {n' : Numeral} (h : n.Leads s) (h' : n'.Leads s) :
    n.text = n'.text := by
  have hle : n.text <+: n'.text := List.prefix_of_prefix_length_le h.1 h'.1 (h'.2 n h.1)
  exact hle.eq_of_length_le (h.2 n' h'.1)

theorem Numeral.leads_text (n : Numeral) : n.Leads n.text :=
  ⟨List.prefix_refl _, fun _ h => h.length_le⟩

theorem Numeral.dropWhile_text (n : Numeral) : n.text.dropWhile isSpace = n.text := by
  have hhead := n.isSpace_head?_text []
  rw [List.append_nil] at hhead
  exact dropWhile_append_of_stop (u := []) (by simp) hhead

/-! ## Arguments -/

namespace Wait

theorem numberText?_eq (argument : List Char) :
    numberText? argument =
      (Grammar.decimal.run (byteSize (argument.takeWhile isSpace))
        (argument.dropWhile isSpace)).map Match.taken := by
  have hspace : (span isSpace).run 0 argument =
      some ⟨argument.takeWhile isSpace, [], argument.dropWhile isSpace⟩ := by
    rw [run]
  unfold numberText? parts? Grammar.waitArgument
  rw [run, run, hspace]
  dsimp only
  rw [Nat.zero_add]
  cases hrun : Grammar.decimal.run (byteSize (argument.takeWhile isSpace))
      (argument.dropWhile isSpace) with
  | none => rfl
  | some m =>
    obtain ⟨hparts, -⟩ := Grammar.exists_numeral_of_run hrun
    simp [Match.append, hparts]

/-- The text that is read is that of the longest numeral. -/
theorem numberText?_eq_some_iff :
    numberText? argument = some n.text ↔ n.Leads (argument.dropWhile isSpace) := by
  rw [numberText?_eq, Option.map_eq_some_iff]
  constructor
  · rintro ⟨m, hrun, htaken⟩
    exact Numeral.leads_of_run hrun htaken.symm
  · intro h
    obtain ⟨m, hrun⟩ := Numeral.exists_run_of_prefix h.1 (byteSize (argument.takeWhile isSpace))
    obtain ⟨n', h', htext⟩ := Numeral.exists_leads_of_run hrun
    exact ⟨m, hrun, by rw [← htext, h'.text_eq h]⟩

/-- The longest numeral says what wait an argument asks for. -/
theorem ofArgument_of_leads (h : n.Leads (argument.dropWhile isSpace)) :
    ofArgument argument = ofDecimal n.decimal := by
  unfold ofArgument
  rw [numberText?_eq_some_iff.mpr h, Option.bind_some, Decimal.read?_text]

theorem ofArgument_text (n : Numeral) : ofArgument n.text = ofDecimal n.decimal := by
  refine ofArgument_of_leads ?_
  rw [n.dropWhile_text]
  exact n.leads_text

/-- **The longest numeral.** An argument that begins with no numeral, after any spaces, asks for
no wait. Of the numerals that it begins with one is the longest, and exactly that text is read:
it is never refused, and the argument asks for the same wait as it does alone. -/
theorem ofArgument_longest_numeral (argument : List Char) :
    ((∀ n : Numeral, ¬ n.text <+: argument.dropWhile isSpace) → ofArgument argument = 0) ∧
    ((∃ n : Numeral, n.text <+: argument.dropWhile isSpace) →
      ∃ n : Numeral, n.Leads (argument.dropWhile isSpace)) ∧
    ∀ n : Numeral, n.Leads (argument.dropWhile isSpace) →
      numberText? argument = some n.text ∧ (∃ d, Decimal.read? n.text = some d) ∧
        ofArgument argument = ofArgument n.text := by
  refine ⟨?_, ?_, ?_⟩
  · intro hnone
    have htext : numberText? argument = none := by
      rw [numberText?_eq, Option.map_eq_none_iff, Option.eq_none_iff_forall_ne_some]
      intro m hrun
      obtain ⟨n, hn, -⟩ := Numeral.exists_leads_of_run hrun
      exact hnone n hn.1
    unfold ofArgument
    rw [htext]
    rfl
  · rintro ⟨n, hn⟩
    obtain ⟨m, hrun⟩ := Numeral.exists_run_of_prefix hn 0
    obtain ⟨n', hn', -⟩ := Numeral.exists_leads_of_run hrun
    exact ⟨n', hn'⟩
  · intro n hn
    refine ⟨numberText?_eq_some_iff.mpr hn, ⟨_, Decimal.read?_text n⟩, ?_⟩
    rw [ofArgument_of_leads hn, ofArgument_text]

/-- An exponent without digits is no part of the number. -/
theorem ofArgument_longest_numeral_no_exponent :
    (∃ n : Numeral, n.Leads "+2.5e+x".toList ∧ n.text = "+2.5".toList) ∧
    ofArgument " +2.5e+x".toList = ofArgument "+2.5".toList ∧ ofArgument "+2.5".toList = 3 := by
  have hspace : " +2.5e+x".toList.dropWhile isSpace = "+2.5e+x".toList := by decide
  have htaken : numberText? " +2.5e+x".toList = some "+2.5".toList := by decide +kernel
  obtain ⟨-, hexists, hread⟩ := ofArgument_longest_numeral " +2.5e+x".toList
  have hsome : ∃ n : Numeral, n.text <+: " +2.5e+x".toList.dropWhile isSpace :=
    ⟨⟨.plus, .finite ⟨[2], none, by simp⟩ none⟩, by decide⟩
  obtain ⟨n, hn⟩ := hexists hsome
  obtain ⟨htext, -, hwait⟩ := hread n hn
  rw [htaken, Option.some_inj] at htext
  rw [hspace] at hn
  refine ⟨⟨n, hn, htext.symm⟩, ?_, by decide +kernel⟩
  rw [hwait, htext]

end Wait

end MacroScript
