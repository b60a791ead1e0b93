import MacroScript.Proofs.Statement.OfTokens
import MacroScript.Proofs.Token.NormalForm
import MacroScript.Proofs.Token.Spacing
/-
  What a command line says does not depend on its spaces. Whitespace only separates arguments,
  so tokens that begin with a command say what their words say
  (`Statement.ofTokens_cons_congr`), and the words of a line stay with other spaces between them.
  Main statement: `Statement.ofLine_respaced`.
-/

namespace MacroScript

open Token

variable {t : Token} {ts us : List Token}

/-! ## What words say -/

theorem Token.cutAtWait_words (ts : List Token) :
    cutAtWait (words ts) = (words (cutAtWait ts).1, (cutAtWait ts).2) := by
  induction ts with
  | nil => rfl
  | cons t ts ih =>
    by_cases hwait : t.kind = .wait
    · obtain ⟨n, hc⟩ := content_of_kind_wait hwait
      rw [words_cons_of_kind_ne (by rw [hwait]; decide), cutAtWait, cutAtWait, hc]
      rfl
    · rw [cutAtWait_cons_of_kind_ne hwait]
      by_cases hspace : t.kind = .whitespace
      · rw [words_cons_of_whitespace hspace, words_cons_of_whitespace hspace, ih]
      · rw [words_cons_of_kind_ne hspace, words_cons_of_kind_ne hspace,
          cutAtWait_cons_of_kind_ne hwait, ih]

theorem Argument.ofTokens_congr (h : words ts = words us) : ofTokens ts = ofTokens us := by
  unfold ofTokens
  unfold words at h
  rw [h]

theorem Body.ofTokens_cons_congr (hk : t.kind = .command) (h : words ts = words us) :
    ofTokens (t :: ts) = ofTokens (t :: us) := by
  obtain ⟨name, hc⟩ := content_of_kind_command hk
  rw [ofTokens_cons_of_command hc, ofTokens_cons_of_command hc, Argument.ofTokens_congr h]

/-- After a command, only the words matter. -/
theorem Statement.ofTokens_cons_congr (hk : t.kind = .command) (h : words ts = words us) :
    ofTokens (t :: ts) = ofTokens (t :: us) := by
  have hcut : (words (cutAtWait ts).1, (cutAtWait ts).2) =
      (words (cutAtWait us).1, (cutAtWait us).2) := by
    rw [← cutAtWait_words, ← cutAtWait_words, h]
  obtain ⟨hwords, hwait⟩ := Prod.mk.inj hcut
  have hkind : t.kind ≠ .wait := by rw [hk]; decide
  rw [ofTokens_eq, ofTokens_eq, cutAtWait_cons_of_kind_ne hkind, cutAtWait_cons_of_kind_ne hkind]
  dsimp only
  rw [Body.ofTokens_cons_congr hk hwords, hwait]

/-! ## Lines with other spaces -/

/-- **Spaces between words say nothing.** A line that begins with a command says the same with
any other run of spaces, of one space at least, in the place of each of its whitespace tokens,
and with any spaces at its end. -/
theorem Statement.ofLine_respaced {line w : List Char}
    (hcommand : ∃ t ∈ (Token.ofLine line).head?, t.kind = .command)
    (hus : Respaced (Token.ofLine line) us) (hw : ∀ c ∈ w, isSpace c = true) :
    ofLine (raws us ++ w) = ofLine line := by
  have hline := reads_ofLine line
  have hbegins := hline.begins_iff.mp hcommand
  rcases reads_iff.mp hline with
    ⟨hnot, -⟩ | ⟨name, rest, ts, hne, hname, hrest, -, htokens, hts⟩
  · exact absurd hbegins hnot
  rw [htokens] at hus
  cases hus with
  | @word _ _ us _ hus =>
    obtain ⟨vs, hvs, hwords, -⟩ := hts.respace hus hw
    have hspace := hus.isSpace_head (hts.kind_head_of_isSpace hrest) hw
    have hother := (hvs.reads_command hne hname hspace).ofLine_eq
    unfold ofLine
    rw [htokens, raws_cons, List.append_assoc, hother]
    exact ofTokens_cons_congr rfl hwords

/-- The bracket and the quote left open here stay open, whatever spaces come after them. -/
theorem Statement.ofLine_respaced_open_marks :
    Token.ofLine "/a <. \"c <wait. 2>".toList =
      [⟨.command ['a'], "/a".toList⟩, ⟨.whitespace, [' ']⟩, text "<.".toList,
        ⟨.whitespace, [' ']⟩, text "\"c".toList, ⟨.whitespace, [' ']⟩,
        ⟨.wait 2, "<wait. 2>".toList⟩] ∧
    ofLine "/a\u3000<.\n\"c \r<wait. 2>\t".toList = ofLine "/a <. \"c <wait. 2>".toList := by
  have htokens : Token.ofLine "/a <. \"c <wait. 2>".toList =
      [⟨.command ['a'], "/a".toList⟩, ⟨.whitespace, [' ']⟩, text "<.".toList,
        ⟨.whitespace, [' ']⟩, text "\"c".toList, ⟨.whitespace, [' ']⟩,
        ⟨.wait 2, "<wait. 2>".toList⟩] := by
    decide +kernel
  have hcommand : ∃ t ∈ (Token.ofLine "/a <. \"c <wait. 2>".toList).head?,
      t.kind = .command := by
    rw [htokens]
    exact ⟨_, rfl, rfl⟩
  have hone : ∀ d, isSpace d = true → ∀ c ∈ [d], isSpace c = true :=
    fun d hd => List.forall_mem_singleton.mpr hd
  have hrespaced : Respaced (Token.ofLine "/a <. \"c <wait. 2>".toList)
      [⟨.command ['a'], "/a".toList⟩, ⟨.whitespace, ['\u3000']⟩, text "<.".toList,
        ⟨.whitespace, ['\n']⟩, text "\"c".toList, ⟨.whitespace, [' ', '\r']⟩,
        ⟨.wait 2, "<wait. 2>".toList⟩] := by
    rw [htokens]
    exact .word (by decide) <| .gap (by decide) (hone _ rfl) <| .word (by decide) <|
      .gap (by decide) (hone _ rfl) <| .word (by decide) <|
      .gap (by decide) (List.forall_mem_cons.mpr ⟨rfl, hone _ rfl⟩) <| .word (by decide) .nil
  -- the line is what the tokens with other spaces and the space at the end write
  refine ⟨htokens, Eq.trans (congrArg ofLine ?_)
    (ofLine_respaced hcommand hrespaced (hone '\t' rfl))⟩
  decide +kernel

end MacroScript
