import MacroScript.Proofs.Statement.Pieces
import MacroScript.Proofs.Statement.Spacing
/-
  The half of each token that counts. After a command head every token counts by its content
  alone, and whitespace not at all (`Statement.ofTokens_map_withoutRaw`). In free text a
  placeholder and a wait count by their content and every other token by its raw text
  (`Statement.ofTokens_map_shown`). So two lists of tokens that differ in the other halves say
  the same, or are in the same error. Main statement: `Statement.ofTokens_relevant_half`.
-/

namespace MacroScript

open Token

variable {t u : Token} {ts us : List Token} {f : Token → Token}

/-! ## Waits of changed tokens -/

/-- A change of tokens that makes and unmakes no wait is made before the first wait as well. -/
theorem Token.cutAtWait_map (hwait : ∀ t n, t.content = .wait n → (f t).content = .wait n)
    (hother : ∀ t, t.kind ≠ .wait → (f t).kind ≠ .wait) (ts : List Token) :
    cutAtWait (ts.map f) = ((cutAtWait ts).1.map f, (cutAtWait ts).2) := by
  induction ts with
  | nil => rfl
  | cons t ts ih =>
    by_cases hk : t.kind = .wait
    · obtain ⟨n, hc⟩ := content_of_kind_wait hk
      rw [List.map_cons, cutAtWait, hwait t n hc, cutAtWait, hc]
      rfl
    · rw [List.map_cons, cutAtWait_cons_of_kind_ne (hother t hk), ih,
        cutAtWait_cons_of_kind_ne hk, List.map_cons]

/-! ## Tokens by their contents -/

/-- The token with its content only. -/
def Token.withoutRaw (t : Token) : Token := ⟨t.content, []⟩

theorem Token.map_withoutRaw_eq_iff :
    ts.map withoutRaw = us.map withoutRaw ↔ ts.map content = us.map content := by
  have hcontents : ∀ vs : List Token, vs.map withoutRaw = (vs.map content).map (⟨·, []⟩) := by
    intro vs
    rw [List.map_map]
    rfl
  have hinj : Function.Injective fun c : Content => (⟨c, []⟩ : Token) :=
    fun c d h => congrArg content h
  rw [hcontents, hcontents, (List.map_injective_iff.mpr hinj).eq_iff]

/-- Arguments do not depend on raw texts. -/
theorem Argument.ofTokens_map_withoutRaw (ts : List Token) :
    ofTokens (ts.map withoutRaw) = ofTokens ts := by
  unfold ofTokens
  rw [List.filter_map, List.mapM_map]
  rfl

theorem Body.ofTokens_map_withoutRaw (hcommand : ∀ t ∈ ts.head?, t.kind = .command) :
    ofTokens (ts.map withoutRaw) = ofTokens ts := by
  cases ts with
  | nil => rfl
  | cons t ts =>
    obtain ⟨name, hc⟩ := content_of_kind_command (hcommand t rfl)
    have hc' : (withoutRaw t).content = .command name := hc
    rw [List.map_cons, ofTokens_cons_of_command hc', ofTokens_cons_of_command hc,
      Argument.ofTokens_map_withoutRaw]

/-- What a command says does not depend on raw texts. -/
theorem Statement.ofTokens_map_withoutRaw (hcommand : ∀ t ∈ ts.head?, t.kind = .command) :
    ofTokens (ts.map withoutRaw) = ofTokens ts := by
  have hcut : cutAtWait (ts.map withoutRaw) =
      ((cutAtWait ts).1.map withoutRaw, (cutAtWait ts).2) :=
    cutAtWait_map (f := withoutRaw) (fun _ _ hc => hc) (fun _ hk => hk) ts
  rw [ofTokens_eq, ofTokens_eq, hcut,
    Body.ofTokens_map_withoutRaw fun t ht => hcommand t (head?_of_cutAtWait t ht)]

/-! ## Tokens as free text shows them -/

/-- The second token is what free text shows of the first: a placeholder or a wait under any raw
text, or else bare text, the raw text of the first. -/
inductive Token.ShownAs : Token → Token → Prop where
  | placeholder (p : Placeholder) (raw raw' : List Char) :
    ShownAs ⟨.placeholder p, raw⟩ ⟨.placeholder p, raw'⟩
  | wait (n : Wait) (raw raw' : List Char) : ShownAs ⟨.wait n, raw⟩ ⟨.wait n, raw'⟩
  | text {t : Token} (hplaceholder : t.kind ≠ .placeholder) (hwait : t.kind ≠ .wait) :
    ShownAs t (text t.raw)

/-- What free text shows of a token, without any other raw text. -/
def Token.shown (t : Token) : Token :=
  match t.content with
  | .placeholder p => ⟨.placeholder p, []⟩
  | .wait n => ⟨.wait n, []⟩
  | _ => text t.raw

theorem Token.shown_of_placeholder {p : Placeholder} (h : t.content = .placeholder p) :
    t.shown = ⟨.placeholder p, []⟩ := by
  rw [shown, h]

theorem Token.shown_of_wait {n : Wait} (h : t.content = .wait n) : t.shown = ⟨.wait n, []⟩ := by
  rw [shown, h]

theorem Token.shown_of_kind_ne (hplaceholder : t.kind ≠ .placeholder) (hwait : t.kind ≠ .wait) :
    t.shown = text t.raw := by
  unfold kind at hplaceholder hwait
  rw [shown]
  cases hc : t.content with
  | placeholder p => exact absurd (by rw [hc]; rfl) hplaceholder
  | wait n => exact absurd (by rw [hc]; rfl) hwait
  | _ => rfl

theorem Token.kind_shown_ne_command (t : Token) : t.shown.kind ≠ .command := by
  obtain ⟨c, raw⟩ := t
  cases c <;> simp [shown, kind, Content.kind, text]

theorem Token.kind_shown_ne_wait (h : t.kind ≠ .wait) : t.shown.kind ≠ .wait := by
  obtain ⟨c, raw⟩ := t
  cases c <;> simp_all [shown, kind, Content.kind, text]

theorem Token.ShownAs.shown_eq (h : ShownAs t u) : u.shown = t.shown := by
  cases h with
  | placeholder p raw raw' => rfl
  | wait n raw raw' => rfl
  | text hplaceholder hwait => rw [shown_of_kind_ne hplaceholder hwait]; rfl

theorem Token.ShownAs.kind_ne_command (h : ShownAs t u) : u.kind ≠ .command := by
  cases h with
  | placeholder p raw raw' => simp [kind, Content.kind]
  | wait n raw raw' => simp [kind, Content.kind]
  | text hplaceholder hwait => simp [kind_text]

theorem Token.ShownAs.map_shown_eq (h : List.Forall₂ ShownAs ts us) :
    us.map shown = ts.map shown := by
  rw [eq_comm, ← List.forall₂_eq_eq_eq, List.forall₂_map_left_iff, List.forall₂_map_right_iff]
  exact h.imp fun _ _ h => h.shown_eq.symm

/-- The pieces of tokens without a wait are those of what free text shows of them. -/
theorem Piece.ofTokens_map_shown (hts : ∀ t ∈ ts, t.kind ≠ .wait) :
    ofTokens (ts.map shown) = ofTokens ts := by
  induction ts with
  | nil => rfl
  | cons t ts ih =>
    rw [List.forall_mem_cons] at hts
    rw [List.map_cons]
    by_cases hk : t.kind = .placeholder
    · obtain ⟨p, hc⟩ := content_of_kind_placeholder hk
      rw [shown_of_placeholder hc, ofTokens_cons_of_placeholder rfl,
        ofTokens_cons_of_placeholder hc, ih hts.2]
    · have htext : (Token.text t.raw).kind ≠ .placeholder := by rw [kind_text]; decide
      rw [shown_of_kind_ne hk hts.1, ofTokens_cons_of_kind_ne htext,
        ofTokens_cons_of_kind_ne hk, ih hts.2]
      rfl

theorem Body.ofTokens_map_shown (hcommand : ∀ t ∈ ts.head?, t.kind ≠ .command)
    (hwait : ∀ t ∈ ts, t.kind ≠ .wait) : ofTokens (ts.map shown) = ofTokens ts := by
  cases ts with
  | nil => rfl
  | cons t ts =>
    rw [ofTokens_cons_of_kind_ne (hcommand t rfl), List.map_cons,
      ofTokens_cons_of_kind_ne (kind_shown_ne_command t), ← List.map_cons,
      Piece.ofTokens_map_shown hwait]

/-- What free text says depends on what is shown of its tokens only. -/
theorem Statement.ofTokens_map_shown (hcommand : ∀ t ∈ ts.head?, t.kind ≠ .command) :
    ofTokens (ts.map shown) = ofTokens ts := by
  have hcut : cutAtWait (ts.map shown) = ((cutAtWait ts).1.map shown, (cutAtWait ts).2) :=
    cutAtWait_map (fun t n hc => by rw [shown_of_wait hc]) (fun t => kind_shown_ne_wait) ts
  rw [ofTokens_eq, ofTokens_eq, hcut, Body.ofTokens_map_shown
    (fun t ht => hcommand t (head?_of_cutAtWait t ht)) fun t => kind_ne_wait_of_mem]

/-! ## Statements -/

/-- **One half of each token counts.** Tokens that begin with a command say the same, or are in
the same error, without their whitespace and under any raw texts. Tokens that begin with anything
else say the same if every token but placeholders and waits is bare text, its raw text, and if
placeholders and waits have any raw texts. -/
theorem Statement.ofTokens_relevant_half {t : Token} {ts us : List Token} :
    (t.kind = .command →
      us.map Token.content = ((t :: ts).filter fun u => !u.isWhitespace).map Token.content →
      ofTokens us = ofTokens (t :: ts)) ∧
    (t.kind ≠ .command → List.Forall₂ ShownAs (t :: ts) us → ofTokens us = ofTokens (t :: ts)) := by
  constructor
  · intro hk hus
    have hwords : words (t :: ts) = t :: words ts := words_cons_of_kind_ne (by rw [hk]; decide) ts
    change us.map content = (words (t :: ts)).map content at hus
    rw [hwords] at hus
    have hcommand : ∀ u ∈ us.head?, u.kind = .command := by
      intro u hu
      have hhead := congrArg List.head? hus
      rw [List.head?_map, hu] at hhead
      rw [kind, Option.some.inj hhead]
      exact hk
    calc ofTokens us
      _ = ofTokens (us.map withoutRaw) := (ofTokens_map_withoutRaw hcommand).symm
      _ = ofTokens ((t :: words ts).map withoutRaw) := by rw [map_withoutRaw_eq_iff.mpr hus]
      _ = ofTokens (t :: words ts) := ofTokens_map_withoutRaw (by simpa using hk)
      _ = ofTokens (t :: ts) := ofTokens_cons_congr hk (by simp [words])
  · intro hk hus
    have hcommand : ∀ u ∈ us.head?, u.kind ≠ .command := by
      cases hus with
      | cons hu hus => simpa using hu.kind_ne_command
    calc ofTokens us
      _ = ofTokens (us.map shown) := (ofTokens_map_shown hcommand).symm
      _ = ofTokens ((t :: ts).map shown) := by rw [ShownAs.map_shown_eq hus]
      _ = ofTokens (t :: ts) := ofTokens_map_shown (by simpa using hk)

/-- Contents and raw texts that say different things. The quotes in the raw texts are no part of
the arguments, and the values without them are no part of free text. -/
theorem Statement.ofTokens_relevant_half_disagreeing :
    ofTokens [⟨.command ['a'], []⟩, ⟨.string ['v'], ['"']⟩, ⟨.placeholder ⟨['k'], none⟩, ['x']⟩,
        ⟨.wait 3, ['y']⟩, ⟨.command ['b'], []⟩] =
      ofTokens [⟨.command ['a'], ['z']⟩, ⟨.whitespace, ['"']⟩, ⟨.string ['v'], "\"w\"".toList⟩,
        ⟨.placeholder ⟨['k'], none⟩, []⟩, ⟨.wait 3, []⟩, ⟨.whitespace, []⟩,
        ⟨.command ['b'], ['/']⟩] ∧
    ofTokens [text "\"w\"".toList, ⟨.placeholder ⟨['k'], none⟩, ['x']⟩, text [' '],
        text ['/', 'c'], ⟨.wait 3, ['y']⟩] =
      ofTokens [⟨.string ['v'], "\"w\"".toList⟩, ⟨.placeholder ⟨['k'], none⟩, []⟩,
        ⟨.whitespace, [' ']⟩, ⟨.command ['b'], ['/', 'c']⟩, ⟨.wait 3, []⟩] := by
  refine ⟨ofTokens_relevant_half.1 rfl rfl, ofTokens_relevant_half.2 (by decide) ?_⟩
  exact .cons (.text (t := ⟨.string ['v'], _⟩) (by decide) (by decide)) <|
    .cons (.placeholder _ _ _) <|
    .cons (.text (t := ⟨.whitespace, _⟩) (by decide) (by decide)) <|
    .cons (.text (t := ⟨.command ['b'], _⟩) (by decide) (by decide)) <|
    .cons (.wait _ _ _) .nil

end MacroScript
