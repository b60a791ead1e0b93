import MacroScript.Proofs.Token.Reading
/-
  The tokens of a line. `reads_iff` takes a reading of a line apart into a command head, if the
  line begins with one, and a reading of the rest; so the tokens of a line are its one reading
  (`Reads.ofLine_eq`, `reads_ofLine`).
-/

namespace MacroScript.Token

/-! ## Readings of lines and of rests -/

theorem ReadsRest.kind_head_of_isSpace {s : List Char} {ts : List Token} (h : ReadsRest s ts)
    (hs : ∀ c ∈ s.head?, isSpace c = true) : ∀ t ∈ ts.head?, t.kind = .whitespace := by
  intro t ht
  apply Classical.byContradiction
  intro hk
  cases ts with
  | nil => cases ht
  | cons u us =>
    obtain rfl : u = t := Option.some.inj ht
    have hu := h.wellFormed u (List.mem_cons_self ..)
    obtain rfl : u.raw ++ raws us = s := h.raws_eq
    obtain ⟨c, rest, hraw, -⟩ := hu.exists_cons
    have hc : c ∈ (u.raw ++ raws us).head? := by rw [hraw]; rfl
    have hspace := hs c hc
    rw [hu.head?_append hk (raws us) c hc] at hspace
    exact absurd hspace (by decide)

theorem ReadsRest.reads {line : List Char} {ts : List Token} (h : ReadsRest line ts)
    (hc : ¬ BeginsCommand line) : Reads line ts where
  raws_eq := h.raws_eq
  wellFormed := h.wellFormed
  commandFirst := by
    cases ts with
    | nil => trivial
    | cons t us =>
      exact ⟨fun hk => absurd hk (h.kind_ne_command t (List.mem_cons_self ..)),
        fun u hu => h.kind_ne_command u (List.mem_cons_of_mem t hu)⟩
  command_of_begins := fun hb => absurd hb hc
  separated := h.separated
  noneMissed := h.noneMissed

/-- A token in front of a reading of the rest, which may be a command head. -/
theorem ReadsRest.reads_cons {s : List Char} {t : Token} {ts : List Token} (h : ReadsRest s ts)
    (ht : t.WellFormed) (hcommand : t.kind = .command → ∀ u ∈ ts.head?, u.kind = .whitespace)
    (hbegins : BeginsCommand (t.raw ++ s) → t.kind = .command)
    (hsep : ∀ u ∈ ts.head?, ¬ (t.kind = .whitespace ∧ u.kind = .whitespace) ∧
      ¬ (t.IsBare ∧ u.IsBare))
    (hmiss : t.IsBare → StaysBare t.raw s) : Reads (t.raw ++ s) (t :: ts) where
  raws_eq := by rw [raws_cons, h.raws_eq]
  wellFormed := List.forall_mem_cons.mpr ⟨ht, h.wellFormed⟩
  commandFirst := ⟨hcommand, h.kind_ne_command⟩
  command_of_begins := fun hb => ⟨t, rfl, hbegins hb⟩
  separated := ⟨hsep, h.separated⟩
  noneMissed := h.noneMissed_cons hmiss

theorem ReadsRest.reads_command {name rest : List Char} {ts : List Token}
    (h : ReadsRest rest ts) (hne : name ≠ []) (hname : ∀ c ∈ name, isSpace c = false)
    (hrest : ∀ c ∈ rest.head?, isSpace c = true) :
    Reads ('/' :: name ++ rest) (⟨.command name, '/' :: name⟩ :: ts) := by
  have hkind : kind ⟨.command name, '/' :: name⟩ = .command := rfl
  have hbare : ¬ IsBare ⟨.command name, '/' :: name⟩ := by
    intro hb
    cases hb
  refine h.reads_cons (t := ⟨.command name, '/' :: name⟩) ⟨rfl, hne, hname⟩
    (fun _ => h.kind_head_of_isSpace hrest) (fun _ => hkind) ?_ (fun hb => absurd hb hbare)
  intro u _
  refine ⟨fun hk => ?_, fun hb => hbare hb.1⟩
  rw [hkind] at hk
  exact absurd hk.1 (by decide)

theorem Reads.not_begins {line : List Char} {ts : List Token} (h : Reads line ts)
    (hk : ∀ t ∈ ts.head?, t.kind ≠ .command) : ¬ BeginsCommand line := by
  intro hb
  obtain ⟨t, ht, hc⟩ := h.command_of_begins hb
  exact hk t ht hc

theorem Reads.readsRest {line : List Char} {ts : List Token} (h : Reads line ts)
    (hk : ∀ t ∈ ts.head?, t.kind ≠ .command) : ReadsRest line ts where
  raws_eq := h.raws_eq
  wellFormed := h.wellFormed
  kind_ne_command := by
    cases ts with
    | nil => simp
    | cons t us => exact List.forall_mem_cons.mpr ⟨hk t rfl, h.commandFirst.2⟩
  separated := h.separated
  noneMissed := h.noneMissed

theorem Reads.tail {line : List Char} {t : Token} {ts : List Token} (h : Reads line (t :: ts)) :
    ReadsRest (raws ts) ts where
  raws_eq := rfl
  wellFormed u hu := h.wellFormed u (List.mem_cons_of_mem t hu)
  kind_ne_command := h.commandFirst.2
  separated := h.separated.2
  noneMissed := h.noneMissed.2

theorem Reads.append_right {line : List Char} {t : Token} {ts us : List Token}
    (h : Reads line (t :: ts ++ us)) : ReadsRest (raws us) us :=
  h.tail.append_right

/-- After a command head comes a space, if anything. -/
theorem Reads.head?_raws {line : List Char} {t : Token} {ts : List Token}
    (h : Reads line (t :: ts)) (hk : t.kind = .command) :
    ∀ c ∈ (raws ts).head?, isSpace c = true := by
  cases ts with
  | nil => simp
  | cons u us =>
    have hu := h.wellFormed u (List.mem_cons_of_mem t (List.mem_cons_self ..))
    have hspace := hu.isSpace_of_kind (h.commandFirst.1 hk u rfl)
    obtain ⟨c, rest, hraw, -⟩ := hu.exists_cons
    intro d hd
    rw [raws_cons, hraw] at hd
    obtain rfl : c = d := Option.some.inj hd
    exact hspace c (by rw [hraw]; exact List.mem_cons_self ..)

/-- A reading of a line is a reading of a rest, with a command head in front if the line begins
with one. -/
theorem reads_iff {line : List Char} {ts : List Token} :
    Reads line ts ↔ (¬ BeginsCommand line ∧ ReadsRest line ts) ∨
      ∃ name rest us, name ≠ [] ∧ (∀ c ∈ name, isSpace c = false) ∧
        (∀ c ∈ rest.head?, isSpace c = true) ∧ line = '/' :: name ++ rest ∧
        ts = ⟨.command name, '/' :: name⟩ :: us ∧ ReadsRest rest us := by
  constructor
  · intro h
    rcases exists_cons_or_forall_head? (fun t => t.kind = .command) ts with
      ⟨t, us, rfl, hk⟩ | hk
    · right
      obtain ⟨content, raw⟩ := t
      obtain ⟨name, rfl⟩ : ∃ name, content = .command name := content_of_kind_command hk
      obtain ⟨rfl, hne, hname⟩ := h.wellFormed _ (List.mem_cons_self ..)
      exact ⟨name, raws us, us, hne, hname, h.head?_raws hk, h.raws_eq.symm, rfl, h.tail⟩
    · exact Or.inl ⟨h.not_begins hk, h.readsRest hk⟩
  · intro h
    rcases h with ⟨hc, h⟩ | ⟨name, rest, us, hne, hname, hrest, rfl, rfl, h⟩
    · exact h.reads hc
    · exact h.reads_command hne hname hrest

/-! ## The reading of a line -/

/-- No other list of tokens than the tokens of a line reads the line. -/
theorem Reads.ofLine_eq {line : List Char} {ts : List Token} (h : Reads line ts) :
    ofLine line = ts := by
  rcases reads_iff.mp h with ⟨hc, hts⟩ | ⟨name, rest, us, hne, hname, hrest, rfl, rfl, hus⟩
  · rw [ofLine_of_not_begins hc, hts.ofRest_eq]
  · rw [ofLine_of_command hne hname hrest, hus.ofRest_eq]

theorem reads_ofLine (line : List Char) : Reads line (ofLine line) := by
  by_cases hc : BeginsCommand line
  · obtain ⟨name, rest, hne, hname, hrest, rfl⟩ := beginsCommand_iff.mp hc
    rw [ofLine_of_command hne hname hrest]
    exact (readsRest_ofRest _ rest).reads_command hne hname hrest
  · rw [ofLine_of_not_begins hc]
    exact (readsRest_ofRest 0 line).reads hc

/-- **Nothing is lost.** The raw texts of the tokens of a line make up the line, none of them is
empty, and each says what its token means. -/
theorem ofLine_lossless (line : List Char) :
    raws (ofLine line) = line ∧ ∀ t ∈ ofLine line, t.raw ≠ [] ∧ t.WellFormed := by
  have h := reads_ofLine line
  refine ⟨h.raws_eq, ?_⟩
  intro t ht
  have hwf := h.wellFormed t ht
  exact ⟨hwf.raw_ne_nil, hwf⟩

/-- **One reading.** A list of tokens reads a line exactly if it is the list of its tokens. -/
theorem ofLine_eq_iff_reads (line : List Char) (ts : List Token) :
    ofLine line = ts ↔ Reads line ts := by
  constructor
  · intro h
    rw [← h]
    exact reads_ofLine line
  · intro h
    exact h.ofLine_eq

end MacroScript.Token
