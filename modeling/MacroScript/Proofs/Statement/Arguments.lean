import MacroScript.Proofs.Statement.OfTokens
/-
  What tokens say after a command head. Each string and each placeholder is one argument, in
  order (`Argument.ofTokens_eq_ok_iff`). Nothing else can be an argument: whitespace is left out
  and a wait has ended the tokens before, so the one thing that can be wrong is another command
  (`Argument.ofTokens_eq_error_iff`). Main statement: `Statement.ofTokens_second_command`.
-/

namespace MacroScript

open Token

variable {t : Token} {ts : List Token} {e : ScriptError}

/-! ## One argument -/

/-- The content of the token that an argument stands for. -/
def Argument.content : Argument → Token.Content
  | .value text => .string text
  | .placeholder p => .placeholder p

theorem Argument.ofToken_eq_ok_iff {arg : Argument} :
    ofToken t = .ok arg ↔ t.content = arg.content := by
  obtain ⟨c, raw⟩ := t
  cases c <;> cases arg <;> simp [ofToken, Argument.content]

/-- A token that is no argument is named by its kind. -/
theorem Argument.ofToken_eq_error (h : ofToken t = .error e) :
    e = .unexpectedToken t.kind ∧ (t.kind = .whitespace ∨ t.kind = .command ∨ t.kind = .wait) := by
  obtain ⟨c, raw⟩ := t
  cases c with
  | whitespace => exact ⟨(Except.error.inj h).symm, .inl rfl⟩
  | command name => exact ⟨(Except.error.inj h).symm, .inr (.inl rfl)⟩
  | string value => cases h
  | placeholder p => cases h
  | wait n => exact ⟨(Except.error.inj h).symm, .inr (.inr rfl)⟩

/-! ## All arguments -/

/-- Every token but whitespace is one argument, in order. -/
theorem Argument.ofTokens_eq_ok_iff {args : List Argument} : ofTokens ts = .ok args ↔
    args.map Argument.content = (ts.filter fun t => !t.isWhitespace).map Token.content := by
  unfold ofTokens
  rw [mapM_eq_ok_iff, eq_comm, ← List.forall₂_eq_eq_eq, List.forall₂_map_left_iff,
    List.forall₂_map_right_iff]
  simp only [ofToken_eq_ok_iff]

/-- Before a wait, the one thing wrong among arguments is a command. -/
theorem Argument.ofTokens_eq_error_iff (hwait : ∀ t ∈ ts, t.kind ≠ .wait) :
    ofTokens ts = .error e ↔ e = .unexpectedToken .command ∧ ∃ t ∈ ts, t.kind = .command := by
  have hcause : ∀ e, ofTokens ts = .error e →
      e = .unexpectedToken .command ∧ ∃ t ∈ ts, t.kind = .command := by
    intro e h
    obtain ⟨t, ht, herr⟩ := exists_of_mapM_eq_error h
    obtain ⟨hmem, hspace⟩ := List.mem_filter.mp ht
    obtain ⟨rfl, hkind⟩ := ofToken_eq_error herr
    rcases hkind with hk | hk | hk
    · exact absurd hspace (by simp [isWhitespace, hk])
    · exact ⟨by rw [hk], t, hmem, hk⟩
    · exact absurd hk (hwait t hmem)
  constructor
  · exact hcause e
  · intro h
    obtain ⟨rfl, t, ht, hk⟩ := h
    cases hts : ofTokens ts with
    | error err => rw [(hcause err hts).1]
    | ok args =>
      -- each argument stands for a string or a placeholder, so none for this command
      have hcontent : t.content ∈ (ts.filter fun t => !t.isWhitespace).map Token.content :=
        List.mem_map_of_mem (List.mem_filter.mpr ⟨ht, by simp [isWhitespace, hk]⟩)
      rw [← ofTokens_eq_ok_iff.mp hts] at hcontent
      obtain ⟨arg, -, harg⟩ := List.mem_map.mp hcontent
      rw [kind, ← harg] at hk
      cases arg <;> cases hk

theorem Argument.exists_ofTokens (h : ∀ t ∈ ts, t.kind ≠ .command ∧ t.kind ≠ .wait) :
    ∃ args, ofTokens ts = .ok args := by
  cases hts : ofTokens ts with
  | ok args => exact ⟨args, rfl⟩
  | error e =>
    have hwait : ∀ t ∈ ts, t.kind ≠ .wait := fun t ht => (h t ht).2
    obtain ⟨-, t, ht, hk⟩ := (ofTokens_eq_error_iff hwait).mp hts
    exact absurd hk (h t ht).1

/-! ## Commands -/

theorem Body.ofTokens_eq_error_iff : ofTokens ts = .error e ↔
    ∃ t us, ts = t :: us ∧ t.kind = .command ∧ Argument.ofTokens us = .error e := by
  constructor
  · intro h
    cases ts with
    | nil => cases h
    | cons t us =>
      by_cases hk : t.kind = .command
      · obtain ⟨name, hc⟩ := content_of_kind_command hk
        rw [ofTokens_cons_of_command hc, map_eq_error_iff] at h
        exact ⟨t, us, rfl, hk, h⟩
      · rw [ofTokens_cons_of_kind_ne hk] at h
        cases h
  · intro h
    obtain ⟨t, us, rfl, hk, h⟩ := h
    obtain ⟨name, hc⟩ := content_of_kind_command hk
    rw [ofTokens_cons_of_command hc, map_eq_error_iff]
    exact h

/-! ## Statements -/

theorem Token.kind_ne_wait_of_cutAtWait {us : List Token} (h : (cutAtWait ts).1 = t :: us) :
    ∀ u ∈ us, u.kind ≠ .wait := by
  intro u hu
  exact kind_ne_wait_of_mem (by rw [h]; exact List.mem_cons_of_mem t hu)

/-- Tokens are in error if the tokens before the first wait hold a command after a command head,
and only then. -/
theorem Statement.ofTokens_eq_error_iff : ofTokens ts = .error e ↔
    e = .unexpectedToken .command ∧ ∃ t us, (cutAtWait ts).1 = t :: us ∧ t.kind = .command ∧
      ∃ u ∈ us, u.kind = .command := by
  rw [ofTokens_eq, map_eq_error_iff, Body.ofTokens_eq_error_iff]
  constructor
  · intro h
    obtain ⟨t, us, hbefore, hk, h⟩ := h
    have hwait := kind_ne_wait_of_cutAtWait hbefore
    obtain ⟨he, hus⟩ := (Argument.ofTokens_eq_error_iff hwait).mp h
    exact ⟨he, t, us, hbefore, hk, hus⟩
  · intro h
    obtain ⟨he, t, us, hbefore, hk, hus⟩ := h
    have hwait := kind_ne_wait_of_cutAtWait hbefore
    exact ⟨t, us, hbefore, hk, (Argument.ofTokens_eq_error_iff hwait).mpr ⟨he, hus⟩⟩

/-- **A second command is the one thing that can be wrong.** Tokens are in error exactly if a
command stands first and another one later, both before the first wait, and the error names a
command. Without a second command, a command says its name and one argument for each later token
before the wait that is not whitespace, in order: a string its value, a placeholder its key and
value. -/
theorem Statement.ofTokens_second_command (ts : List Token) :
    (∀ e, ofTokens ts = .error e ↔ e = .unexpectedToken .command ∧
      ∃ t us, ts.takeWhile (fun t => t.kind ≠ .wait) = t :: us ∧ t.kind = .command ∧
        ∃ u ∈ us, u.kind = .command) ∧
    (∀ e, ofTokens ts = .error e → e.message? = some "unexpected token: command") ∧
    ∀ t us name, ts.takeWhile (fun t => t.kind ≠ .wait) = t :: us → t.content = .command name →
      (∀ u ∈ us, u.kind ≠ .command) →
      ∃ args n, ofTokens ts = .ok (some ⟨.command ⟨name, args⟩, n⟩) ∧
        args.map Argument.content = (us.filter fun u => !u.isWhitespace).map Token.content := by
  rw [← cutAtWait_fst_eq_takeWhile]
  refine ⟨fun e => ofTokens_eq_error_iff, ?_, ?_⟩
  · intro e h
    rw [(ofTokens_eq_error_iff.mp h).1]
    rfl
  · intro t us name hbefore hc hus
    have hkinds : ∀ u ∈ us, u.kind ≠ .command ∧ u.kind ≠ .wait :=
      fun u hu => ⟨hus u hu, kind_ne_wait_of_cutAtWait hbefore u hu⟩
    obtain ⟨args, hargs⟩ := Argument.exists_ofTokens hkinds
    have hbody := Body.ofTokens_eq_command_iff (c := ⟨name, args⟩).mpr ⟨t, us, hbefore, hc, hargs⟩
    exact ⟨args, (cutAtWait ts).2, ofTokens_eq_some_iff.mpr ⟨hbody, rfl⟩,
      Argument.ofTokens_eq_ok_iff.mp hargs⟩

/-- The second command is an error before a wait and nothing after it, and the raw texts say
nothing. -/
theorem Statement.ofTokens_second_command_around_wait :
    ofTokens [⟨.command ['a'], []⟩, text ['x'], ⟨.command ['b'], "/b".toList⟩, ⟨.wait 3, []⟩] =
      .error (.unexpectedToken .command) ∧
    ∃ args n, ofTokens [⟨.command ['a'], []⟩, ⟨.whitespace, ['x']⟩, ⟨.string ['v'], ['w']⟩,
        ⟨.placeholder ⟨['k'], some []⟩, []⟩, ⟨.wait 3, []⟩, ⟨.command ['b'], "/b".toList⟩] =
        .ok (some ⟨.command ⟨['a'], args⟩, n⟩) ∧
      args.map Argument.content = [.string ['v'], .placeholder ⟨['k'], some []⟩] := by
  refine ⟨?_, ?_⟩
  · have hkind : ∃ u ∈ [text ['x'], ⟨.command ['b'], "/b".toList⟩], u.kind = .command := by decide
    exact ((ofTokens_second_command _).1 _).mpr ⟨rfl, _, _, rfl, rfl, hkind⟩
  · exact (ofTokens_second_command _).2.2 ⟨.command ['a'], []⟩
      [⟨.whitespace, ['x']⟩, ⟨.string ['v'], ['w']⟩, ⟨.placeholder ⟨['k'], some []⟩, []⟩]
      ['a'] rfl rfl (by decide)

end MacroScript
