import MacroScript.Proofs.Token.Cut
import MacroScript.Script
/-
  The first wait of a line ends it: what the line says is what the text before the wait says,
  with that wait. Text after the wait can change the tokens before it only by closing a quote
  left open in bare text. An angle bracket left open there is settled by the end mark of the
  wait itself, so nothing after it matters. Main statement: `Statement.ofLine_of_first_wait`.
-/

namespace MacroScript

open Token

variable {before after : List Token} {w : Token} {n : Wait}

/-! ## Tokens cut at a wait -/

theorem Token.cutAtWait_cons_of_kind_ne {t : Token} (h : t.kind ≠ .wait) (ts : List Token) :
    cutAtWait (t :: ts) = (t :: (cutAtWait ts).1, (cutAtWait ts).2) := by
  unfold kind at h
  rw [cutAtWait]
  cases hc : t.content with
  | wait n => exact absurd (by rw [hc]; rfl) h
  | _ => rfl

theorem Token.cutAtWait_append (hbefore : ∀ t ∈ before, t.kind ≠ .wait)
    (hw : w.content = .wait n) : cutAtWait (before ++ w :: after) = (before, n) := by
  induction before with
  | nil => rw [List.nil_append, cutAtWait, hw]
  | cons t ts ih =>
    rw [List.forall_mem_cons] at hbefore
    rw [List.cons_append, cutAtWait_cons_of_kind_ne hbefore.1, ih hbefore.2]

theorem Token.cutAtWait_of_kind_ne (hbefore : ∀ t ∈ before, t.kind ≠ .wait) :
    cutAtWait before = (before, 0) := by
  induction before with
  | nil => rfl
  | cons t ts ih =>
    rw [List.forall_mem_cons] at hbefore
    rw [cutAtWait_cons_of_kind_ne hbefore.1, ih hbefore.2]

/-- The same body with another wait. -/
def Statement.withWait (n : Wait) (s : Statement) : Statement := { s with wait := n }

theorem Statement.ofTokens_append_wait (hbefore : ∀ t ∈ before, t.kind ≠ .wait)
    (hw : w.content = .wait n) :
    ofTokens (before ++ w :: after) = (ofTokens before).map (Option.map (withWait n)) := by
  unfold ofTokens
  rw [cutAtWait_append hbefore hw, cutAtWait_of_kind_ne hbefore]
  dsimp only
  cases Body.ofTokens before with
  | error e => rfl
  | ok body =>
    cases body with
    | none => rfl
    | some b => rfl

/-! ## Text after a wait -/

theorem Token.kind_of_content_wait (hw : w.content = .wait n) : w.kind = .wait := by
  unfold kind
  rw [hw]
  rfl

/-- Where no quote is left open before a wait, other tokens may follow the wait. -/
theorem Token.keepsBare_wait (hwf : w.WellFormed) (hw : w.content = .wait n)
    (hquote : ∀ t ∈ before, t.IsBare → '"' ∉ t.raw) (us vs : List Token) :
    KeepsBare before (w :: us) (w :: vs) := by
  intro t ht hb c hc x
  obtain ⟨inside, hraw⟩ := hwf.raw_directive (Or.inr (kind_of_content_wait hw))
  constructor
  · intro hq
    obtain rfl : c = '"' := Option.some.inj hq.head?_eq
    exact absurd hc (hquote t ht hb)
  · -- a directive that begins before the wait is over at the wait's own end mark
    intro hd
    rw [raws_cons, ← List.append_assoc] at hd ⊢
    have hmark : '>' ∈ c :: x ++ w.raw := by rw [hraw]; simp
    exact (hd.of_append hmark).append (raws us)

theorem Token.Reads.replace_after_wait {line : List Char} (h : Reads line (before ++ w :: after))
    (hw : w.content = .wait n) (hquote : ∀ t ∈ before, t.IsBare → '"' ∉ t.raw) {s : List Char}
    {ts : List Token} (hts : ReadsRest s ts) :
    Reads (raws before ++ w.raw ++ s) (before ++ w :: ts) := by
  have hwf : w.WellFormed := h.wellFormed w (List.mem_append_right _ (List.mem_cons_self ..))
  have hkind : w.kind = .wait := kind_of_content_wait hw
  have hbare : ¬ w.IsBare := by
    intro hb
    rw [hb.kind_eq] at hkind
    exact absurd hkind (by decide)
  obtain rfl : raws ts = s := hts.raws_eq
  have hrest : ReadsRest (raws (w :: ts)) (w :: ts) :=
    hts.cons_closed hwf (by rw [hkind]; decide) (by rw [hkind]; decide) hbare
  have hbegins : ¬ BeginsCommand (raws (w :: ts)) := by
    intro hb
    obtain ⟨c, rest, -, hs⟩ := hb
    obtain ⟨inside, hraw⟩ := hwf.raw_directive (Or.inr hkind)
    rw [raws_cons, hraw] at hs
    exact absurd (List.cons.inj hs).1 (by decide)
  have hkeep : KeepsBare before (w :: after) (w :: ts) :=
    keepsBare_wait hwf hw hquote after ts
  rw [List.append_assoc]
  exact h.replace hrest (fun _ hv => hv) hkeep fun _ => hbegins

/-! ## Lines -/

/-- **The first wait ends a line.** The line says what the text before its first wait says, with
that wait, and nothing if there is no text before it. If no bare text before the wait holds a
quote, the line says the same with any other text after the wait. -/
theorem Statement.ofLine_of_first_wait {line : List Char}
    (hline : Token.ofLine line = before ++ w :: after) (hbefore : ∀ t ∈ before, t.kind ≠ .wait)
    (hw : w.content = .wait n) :
    ofLine line = (ofLine (raws before)).map (Option.map (withWait n)) ∧
    (raws before = [] → ofLine line = .ok none) ∧
    ((∀ t ∈ before, t.IsBare → '"' ∉ t.raw) →
      ∀ s, ofLine (raws before ++ w.raw ++ s) = ofLine line) := by
  have hread : Reads line (before ++ w :: after) := hline ▸ reads_ofLine line
  have hprefix : Token.ofLine (raws before) = before := hread.append_left.ofLine_eq
  have htruncate : ofLine line = (ofLine (raws before)).map (Option.map (withWait n)) := by
    unfold ofLine
    rw [hline, hprefix, ofTokens_append_wait hbefore hw]
  refine ⟨htruncate, ?_, ?_⟩
  · intro hnil
    rw [htruncate, hnil]
    rfl
  · intro hquote s
    obtain ⟨ts, hts⟩ := exists_readsRest s
    have hother := (hread.replace_after_wait hw hquote hts).ofLine_eq
    unfold ofLine
    rw [hother, hline, ofTokens_append_wait hbefore hw, ofTokens_append_wait hbefore hw]

/-- The bracket before this wait is settled and the quote after it is no matter. -/
theorem Statement.ofLine_of_first_wait_open_bracket :
    Token.ofLine "\"a\" <.<wait.3> \"x".toList =
      [⟨.string ['a'], "\"a\"".toList⟩, ⟨.whitespace, [' ']⟩, text "<.".toList] ++
        ⟨.wait 3, "<wait.3>".toList⟩ :: [⟨.whitespace, [' ']⟩, text "\"x".toList] ∧
    ∀ s, ofLine ("\"a\" <.<wait.3>".toList ++ s) = ofLine "\"a\" <.<wait.3> \"x".toList := by
  have htokens : Token.ofLine "\"a\" <.<wait.3> \"x".toList =
      [⟨.string ['a'], "\"a\"".toList⟩, ⟨.whitespace, [' ']⟩, text "<.".toList] ++
        ⟨.wait 3, "<wait.3>".toList⟩ :: [⟨.whitespace, [' ']⟩, text "\"x".toList] := by
    decide +kernel
  exact ⟨htokens, (ofLine_of_first_wait htokens (by decide) rfl).2.2 (by simp [IsBare, text])⟩

end MacroScript
