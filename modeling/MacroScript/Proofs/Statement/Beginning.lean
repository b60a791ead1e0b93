import MacroScript.Proofs.Statement.Arguments
import MacroScript.Proofs.Token.NormalForm
/-
  What a line says is told by its first characters. Every line says something or nothing and is
  never wrong (`Statement.exists_ofLine`), since no command and no wait of a line comes among the
  arguments of its command. Main statement: `Statement.ofLine_by_beginning`.
-/

namespace MacroScript

open Token

variable {line : List Char}

/-! ## The first token of a line -/

/-- The first token is a wait exactly if the line begins with one. -/
theorem Token.Reads.begins_wait_iff {ts : List Token} (h : Reads line ts) :
    (∃ t ∈ ts.head?, t.kind = .wait) ↔ BeginsWait line := by
  rw [beginsWait_iff]
  constructor
  · intro hhead
    obtain ⟨t, ht, hk⟩ := hhead
    obtain ⟨us, rfl⟩ : ∃ us, ts = t :: us := List.head?_eq_some_iff.mp ht
    obtain ⟨n, hc⟩ := content_of_kind_wait hk
    have hwf := h.wellFormed t (List.mem_cons_self ..)
    unfold WellFormed at hwf
    rw [hc] at hwf
    obtain ⟨value, hp, hraw, -⟩ := hwf
    exact ⟨value, hp, raws us, by rw [← h.raws_eq, raws_cons, hraw]⟩
  · intro hbegins
    have hcommand := (beginsWait_iff.mpr hbegins).not_beginsCommand
    obtain ⟨value, hp, rest, hline⟩ := hbegins
    have hrest : ReadsRest line _ := hline ▸ (readsRest_ofRest 0 rest).cons_directive hp
    have htokens := (hrest.reads hcommand).ofLine_eq
    rw [h.ofLine_eq] at htokens
    rw [htokens]
    exact ⟨_, rfl, rfl⟩

theorem Token.Reads.eq_nil_iff {ts : List Token} (h : Reads line ts) : ts = [] ↔ line = [] := by
  constructor
  · intro hts
    rw [← h.raws_eq, hts, raws_nil]
  · intro hline
    cases ts with
    | nil => rfl
    | cons t ts =>
      have hraws := h.raws_eq
      rw [hline, raws_cons, List.append_eq_nil_iff] at hraws
      exact absurd hraws.1 (h.wellFormed t (List.mem_cons_self ..)).raw_ne_nil

/-! ## Every line is read -/

theorem Statement.exists_ofLine (line : List Char) : ∃ s, ofLine line = .ok s := by
  have hbefore := (reads_ofLine line).before_wait
  unfold ofLine
  cases hts : ofTokens (Token.ofLine line) with
  | ok s => exact ⟨s, rfl⟩
  | error e =>
    -- the tokens of a line hold no second command
    obtain ⟨-, t, us, hcut, -, u, hu, hk⟩ := ofTokens_eq_error_iff.mp hts
    rw [hcut] at hbefore
    exact absurd hk (hbefore.commandFirst.2 u hu)

/-! ## What a line says -/

theorem Statement.ofLine_eq_none_iff : ofLine line = .ok none ↔ line = [] ∨ BeginsWait line := by
  have hread := reads_ofLine line
  unfold ofLine
  rw [ofTokens_eq_none_iff, ← hread.begins_wait_iff, ← hread.eq_nil_iff]
  cases Token.ofLine line with
  | nil => simp
  | cons t ts => simp

theorem Statement.ofLine_eq_command_iff :
    (∃ c n, ofLine line = .ok (some ⟨.command c, n⟩)) ↔ BeginsCommand line := by
  have hread := reads_ofLine line
  rw [← hread.begins_iff]
  constructor
  · intro h
    obtain ⟨c, n, h⟩ := h
    obtain ⟨t, ht, hc⟩ := content_head_of_command h
    exact ⟨t, ht, by rw [kind, hc]; rfl⟩
  · intro h
    obtain ⟨t, ht, hk⟩ := h
    obtain ⟨s, hs⟩ := exists_ofLine line
    cases s with
    | none =>
      rw [ofTokens_eq_none_iff.mp hs t ht] at hk
      cases hk
    | some s =>
      obtain ⟨body, n⟩ := s
      cases body with
      | command c => exact ⟨c, n, hs⟩
      | text pieces =>
        obtain ⟨u, hu, hku⟩ := kind_head_of_text hs
        obtain rfl : t = u := Option.mem_unique ht hu
        exact absurd hk hku

/-- The name of a command runs up to the first space, and its tokens come after it. -/
theorem Statement.name_of_ofLine_command {c : Command} {n : Wait}
    (h : ofLine line = .ok (some ⟨.command c, n⟩)) :
    c.name = line.tail.takeWhile (fun d => !isSpace d) ∧
    ∃ ts, Token.ofLine line = ⟨.command c.name, '/' :: c.name⟩ :: ts ∧
      raws ts = line.tail.dropWhile fun d => !isSpace d := by
  obtain ⟨name, rest, hne, hname, hrest, rfl⟩ :=
    beginsCommand_iff.mp (ofLine_eq_command_iff.mp ⟨c, n, h⟩)
  have htokens := ofLine_of_command hne hname hrest
  obtain ⟨t, ht, hc⟩ := content_head_of_command h
  rw [htokens] at ht
  obtain rfl := Option.some.inj ht
  obtain rfl : name = c.name := Content.command.inj hc
  have hin : ∀ d ∈ c.name, (!isSpace d) = true := by simpa using hname
  have hstop : ∀ d ∈ rest.head?, (!isSpace d) = false := by simpa using hrest
  rw [List.cons_append, List.tail_cons, takeWhile_append_of_stop hin hstop,
    dropWhile_append_of_stop hin hstop]
  exact ⟨rfl, _, htokens, (readsRest_ofRest _ rest).raws_eq⟩

/-- **The first characters decide.** A line says nothing exactly if it is empty or begins with a
wait, a command exactly if it begins with a slash and a character that is no space, and free text
in every other case. The name of a command is the longest run without spaces after the slash,
whatever marks are in it, and only what comes after it is read as tokens. -/
theorem Statement.ofLine_by_beginning (line : List Char) :
    (ofLine line = .ok none ↔ line = [] ∨ BeginsWait line) ∧
    ((∃ c n, ofLine line = .ok (some ⟨.command c, n⟩)) ↔ BeginsCommand line) ∧
    ((∃ pieces n, ofLine line = .ok (some ⟨.text pieces, n⟩)) ↔
      ¬ (line = [] ∨ BeginsWait line) ∧ ¬ BeginsCommand line) ∧
    ∀ c n, ofLine line = .ok (some ⟨.command c, n⟩) →
      c.name = line.tail.takeWhile (fun d => !isSpace d) ∧
      ∃ ts, Token.ofLine line = ⟨.command c.name, '/' :: c.name⟩ :: ts ∧
        raws ts = line.tail.dropWhile fun d => !isSpace d := by
  refine ⟨ofLine_eq_none_iff, ofLine_eq_command_iff, ?_, fun c n => name_of_ofLine_command⟩
  rw [← ofLine_eq_none_iff, ← ofLine_eq_command_iff]
  constructor
  · intro h
    obtain ⟨pieces, n, h⟩ := h
    simp [h]
  · intro h
    obtain ⟨hnone, hcommand⟩ := h
    obtain ⟨s, hs⟩ := exists_ofLine line
    match s, hs with
    | none, hs => exact absurd hs hnone
    | some ⟨.command c, n⟩, hs => exact absurd ⟨c, n, hs⟩ hcommand
    | some ⟨.text pieces, n⟩, hs => exact ⟨pieces, n, hs⟩

/-- Quotes and directives inside a name are part of it; the directive after it is an argument. -/
theorem Statement.ofLine_by_beginning_marks_in_name :
    ofLine "/a\"<me><wait.3> <t>".toList =
      .ok (some ⟨.command ⟨"a\"<me><wait.3>".toList, [.placeholder ⟨['t'], none⟩]⟩, 0⟩) ∧
    "a\"<me><wait.3>".toList =
      "/a\"<me><wait.3> <t>".toList.tail.takeWhile fun d => !isSpace d := by
  have hline : ofLine "/a\"<me><wait.3> <t>".toList =
      .ok (some ⟨.command ⟨"a\"<me><wait.3>".toList, [.placeholder ⟨['t'], none⟩]⟩, 0⟩) :=
    rfl
  exact ⟨hline, ((ofLine_by_beginning _).2.2.2 _ _ hline).1⟩

example : Statement.ofLine "<wait.>".toList = .ok (some ⟨.text [.text "<wait.>".toList], 0⟩) :=
  rfl

end MacroScript
