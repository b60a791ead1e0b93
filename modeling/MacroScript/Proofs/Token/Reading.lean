import MacroScript.Proofs.Token.Scan
/-
  The tokens of the rest of a line are the one reading of it. A reading (`ReadsRest`) is what the
  scan returns, token by token (`ReadsRest.ofRest_eq`), and every text has one
  (`exists_readsRest`), built from its last character to its first: a character begins a quoted
  string or a directive, or joins the token after it, or stands as a token of its own.
-/

namespace MacroScript.Token

/-! ## One token -/

theorem content_of_kind_whitespace {t : Token} (h : t.kind = .whitespace) :
    t.content = .whitespace := by
  unfold kind at h
  cases hc : t.content with
  | whitespace => rfl
  | _ => rw [hc] at h; cases h

theorem content_of_kind_command {t : Token} (h : t.kind = .command) :
    ∃ name, t.content = .command name := by
  unfold kind at h
  cases hc : t.content with
  | command name => exact ⟨name, rfl⟩
  | _ => rw [hc] at h; cases h

theorem content_of_kind_placeholder {t : Token} (h : t.kind = .placeholder) :
    ∃ p, t.content = .placeholder p := by
  unfold kind at h
  cases hc : t.content with
  | placeholder p => exact ⟨p, rfl⟩
  | _ => rw [hc] at h; cases h

theorem content_of_kind_wait {t : Token} (h : t.kind = .wait) : ∃ n, t.content = .wait n := by
  unfold kind at h
  cases hc : t.content with
  | wait n => exact ⟨n, rfl⟩
  | _ => rw [hc] at h; cases h

theorem WellFormed.isSpace_of_kind {t : Token} (ht : t.WellFormed) (hk : t.kind = .whitespace) :
    ∀ c ∈ t.raw, isSpace c = true := by
  unfold WellFormed at ht
  rw [content_of_kind_whitespace hk] at ht
  exact ht.2

theorem WellFormed.exists_cons {t : Token} (ht : t.WellFormed) :
    ∃ c rest, t.raw = c :: rest ∧ (t.kind ≠ .whitespace → isSpace c = false) := by
  obtain ⟨content, raw⟩ := t
  cases content with
  | whitespace =>
    obtain ⟨c, rest, rfl⟩ := List.exists_cons_of_ne_nil ht.1
    exact ⟨c, rest, rfl, fun h => absurd rfl h⟩
  | command name => exact ⟨'/', name, ht.1, fun _ => by decide⟩
  | string value =>
    rcases ht with ⟨hraw, -⟩ | ⟨hraw, hne, hvalue⟩
    · exact ⟨'"', value ++ ['"'], hraw, fun _ => by decide⟩
    · obtain ⟨c, rest, rfl⟩ := List.exists_cons_of_ne_nil hne
      exact ⟨c, rest, hraw, fun _ => hvalue c (List.mem_cons_self ..)⟩
  | placeholder p => exact ⟨'<', _, ht.2.2, fun _ => by decide⟩
  | wait duration =>
    obtain ⟨value, -, hraw, -⟩ := ht
    exact ⟨'<', _, hraw, fun _ => by decide⟩

theorem WellFormed.raw_ne_nil {t : Token} (ht : t.WellFormed) : t.raw ≠ [] := by
  obtain ⟨c, rest, hraw, -⟩ := ht.exists_cons
  rw [hraw]
  exact List.cons_ne_nil c rest

theorem WellFormed.head?_append {t : Token} (ht : t.WellFormed) (hk : t.kind ≠ .whitespace)
    (rest : List Char) : ∀ c ∈ (t.raw ++ rest).head?, isSpace c = false := by
  obtain ⟨c, tail, hraw, hc⟩ := ht.exists_cons
  rw [hraw]
  intro d hd
  obtain rfl : c = d := Option.some.inj hd
  exact hc hk

/-- A placeholder or a wait stands between angle brackets. -/
theorem WellFormed.raw_directive {t : Token} (ht : t.WellFormed)
    (hk : t.kind = .placeholder ∨ t.kind = .wait) : ∃ inside, t.raw = '<' :: inside ++ ['>'] := by
  unfold WellFormed at ht
  rcases hk with hk | hk
  · obtain ⟨p, hc⟩ := content_of_kind_placeholder hk
    rw [hc] at ht
    exact ⟨_, ht.2.2⟩
  · obtain ⟨n, hc⟩ := content_of_kind_wait hk
    rw [hc] at ht
    obtain ⟨value, -, hraw, -⟩ := ht
    exact ⟨_, hraw⟩

/-- A well-formed bare token holds characters that are no spaces. -/
theorem WellFormed.isSpace_eq_false_of_isBare {t : Token} (ht : t.WellFormed) (hb : t.IsBare) :
    ∀ c ∈ t.raw, isSpace c = false := by
  obtain ⟨content, raw⟩ := t
  obtain rfl : content = .string raw := hb
  rcases ht with ⟨hraw, -⟩ | ⟨-, -, hvalue⟩
  · have hlen := congrArg List.length hraw
    simp at hlen
    omega
  · exact hvalue

theorem kind_text (s : List Char) : (text s).kind = .string := rfl

theorem not_isBare_quoted (value : List Char) :
    ¬ IsBare ⟨.string value, '"' :: value ++ ['"']⟩ := by
  intro h
  have hlen := congrArg List.length (Content.string.inj h)
  simp at hlen
  omega

theorem not_isBare_whitespace (w : List Char) : ¬ IsBare ⟨.whitespace, w⟩ := by
  intro h
  cases h

/-- The token of a directive is a wait or a placeholder, as its key says, and well formed. -/
theorem wellFormed_ofDirective {p : Placeholder} (hp : p.Writable) :
    (ofDirective p.key p.value p.written).WellFormed := by
  obtain ⟨key, value⟩ := p
  unfold ofDirective
  by_cases hkey : key = Wait.key
  · subst hkey
    rw [if_pos rfl]
    exact ⟨value, hp, rfl, rfl⟩
  · rw [if_neg hkey]
    exact ⟨hp, hkey, rfl⟩

theorem raw_ofDirective (key : List Char) (value : Option (List Char)) (raw : List Char) :
    (ofDirective key value raw).raw = raw := by
  unfold ofDirective
  split
  · rfl
  · rfl

theorem kind_ofDirective (key : List Char) (value : Option (List Char)) (raw : List Char) :
    (ofDirective key value raw).kind = .wait ∨ (ofDirective key value raw).kind = .placeholder := by
  unfold ofDirective
  split
  · exact Or.inl rfl
  · exact Or.inr rfl

theorem IsBare.kind_eq {t : Token} (h : t.IsBare) : t.kind = .string := by
  unfold kind
  rw [h]
  rfl

/-! ## One token of a rest -/

/-- What is written as a token is read as that token, if what follows does not belong to it. -/
theorem ofRest_append {t : Token} {rest : List Char} (ht : t.WellFormed)
    (hk : t.kind ≠ .command)
    (hspace : t.kind = .whitespace → ∀ c ∈ rest.head?, isSpace c = false)
    (hbare : t.IsBare → StaysBare t.raw rest ∧ ∀ pos, (collectFrom pos rest).1 = []) (pos : Nat) :
    ofRest pos (t.raw ++ rest) = t :: ofRest (pos + byteSize t.raw) rest := by
  obtain ⟨content, raw⟩ := t
  cases content with
  | whitespace =>
    rw [ofRest_eq_flush, collectFrom_blank ht.1 ht.2 (hspace rfl)]
    rfl
  | command name => exact absurd rfl hk
  | string value =>
    rcases ht with ⟨hraw, hvalue⟩ | ⟨hraw, hne, -⟩
    · obtain rfl : raw = '"' :: value ++ ['"'] := hraw
      have hsplit : '"' :: value ++ ['"'] ++ rest = '"' :: value ++ '"' :: rest := by simp
      dsimp only
      rw [hsplit, ofRest_eq_flush, collectFrom_quoted hvalue]
      rfl
    · obtain rfl : raw = value := hraw
      obtain ⟨hstays, hrun⟩ := hbare rfl
      rw [ofRest_eq_flush, ofRest_eq_flush, collectFrom_staysBare hstays, hrun, List.append_nil,
        flush_of_ne_nil hne]
      rfl
  | placeholder p =>
    obtain ⟨hp, hkey, rfl⟩ := ht
    rw [ofRest_eq_flush, collectFrom_directive hp]
    unfold ofDirective
    rw [if_neg hkey]
    rfl
  | wait duration =>
    obtain ⟨value, hp, rfl, rfl⟩ := ht
    rw [ofRest_eq_flush, collectFrom_directive hp]
    rfl

/-! ## Readings of a rest -/

/-- The tokens are a reading of the rest of a line, where no command head is looked for. -/
structure ReadsRest (s : List Char) (ts : List Token) : Prop where
  raws_eq : raws ts = s
  wellFormed : ∀ t ∈ ts, t.WellFormed
  kind_ne_command : ∀ t ∈ ts, t.kind ≠ .command
  separated : Separated ts
  noneMissed : NoneMissed ts

theorem ReadsRest.nil : ReadsRest [] [] :=
  ⟨rfl, by simp, by simp, trivial, trivial⟩

theorem ReadsRest.tail {s : List Char} {t : Token} {ts : List Token}
    (h : ReadsRest s (t :: ts)) : ReadsRest (raws ts) ts where
  raws_eq := rfl
  wellFormed u hu := h.wellFormed u (List.mem_cons_of_mem t hu)
  kind_ne_command u hu := h.kind_ne_command u (List.mem_cons_of_mem t hu)
  separated := h.separated.2
  noneMissed := h.noneMissed.2

theorem ReadsRest.append_right {s : List Char} {ts us : List Token}
    (h : ReadsRest s (ts ++ us)) : ReadsRest (raws us) us := by
  induction ts generalizing s with
  | nil =>
    obtain rfl : raws us = s := h.raws_eq
    exact h
  | cons t ts ih => exact ih h.tail

theorem ReadsRest.noneMissed_cons {s : List Char} {t : Token} {ts : List Token}
    (h : ReadsRest s ts) (hmiss : t.IsBare → StaysBare t.raw s) : NoneMissed (t :: ts) := by
  refine ⟨?_, h.noneMissed⟩
  intro hb before c after hraw
  rw [h.raws_eq]
  exact (hmiss hb before c after hraw).2

theorem ReadsRest.cons {s : List Char} {t : Token} {ts : List Token} (h : ReadsRest s ts)
    (ht : t.WellFormed) (hk : t.kind ≠ .command)
    (hsep : ∀ u ∈ ts.head?, ¬ (t.kind = .whitespace ∧ u.kind = .whitespace) ∧
      ¬ (t.IsBare ∧ u.IsBare))
    (hmiss : t.IsBare → StaysBare t.raw s) : ReadsRest (t.raw ++ s) (t :: ts) where
  raws_eq := by rw [raws_cons, h.raws_eq]
  wellFormed := List.forall_mem_cons.mpr ⟨ht, h.wellFormed⟩
  kind_ne_command := List.forall_mem_cons.mpr ⟨hk, h.kind_ne_command⟩
  separated := ⟨hsep, h.separated⟩
  noneMissed := h.noneMissed_cons hmiss

theorem NoneMissed.staysBare {t : Token} {ts : List Token} (h : NoneMissed (t :: ts))
    (ht : t.WellFormed) (hb : t.IsBare) : StaysBare t.raw (raws ts) := by
  intro before c after hraw
  refine ⟨ht.isSpace_eq_false_of_isBare hb c ?_, h.1 hb before c after hraw⟩
  rw [hraw]
  exact List.mem_append_right before (List.mem_cons_self ..)

theorem ReadsRest.staysBare {s : List Char} {t : Token} {ts : List Token}
    (h : ReadsRest s (t :: ts)) (hb : t.IsBare) : StaysBare t.raw (raws ts) :=
  h.noneMissed.staysBare (h.wellFormed t (List.mem_cons_self ..)) hb

/-- What follows a whitespace token is no space. -/
theorem ReadsRest.head?_raws {s : List Char} {t : Token} {ts : List Token}
    (h : ReadsRest s (t :: ts)) (hk : t.kind = .whitespace) :
    ∀ c ∈ (raws ts).head?, isSpace c = false := by
  cases ts with
  | nil => simp
  | cons u us =>
    have hu : u.kind ≠ .whitespace := fun hu => (h.separated.1 u rfl).1 ⟨hk, hu⟩
    exact (h.tail.wellFormed u (List.mem_cons_self ..)).head?_append hu (raws us)

/-- The scan of a rest returns its reading. -/
theorem ReadsRest.ofRest_eq {s : List Char} {ts : List Token} (h : ReadsRest s ts) (pos : Nat) :
    ofRest pos s = ts := by
  induction ts generalizing s pos with
  | nil =>
    obtain rfl : [] = s := h.raws_eq
    rw [ofRest_eq_flush, collectFrom_nil]
    rfl
  | cons t ts ih =>
    have hts : ∀ pos, ofRest pos (raws ts) = ts := fun pos => ih h.tail pos
    -- a run left open would be a bare token at the front of `ts`, next to `t`
    have hclosed : t.IsBare → ∀ pos, (collectFrom pos (raws ts)).1 = [] := by
      intro hb pos
      apply Classical.byContradiction
      intro hrun
      have hfront := hts pos
      rw [ofRest_eq_flush, flush_of_ne_nil hrun] at hfront
      have hsep := h.separated.1
      rw [← hfront] at hsep
      exact (hsep _ rfl).2 ⟨hb, isBare_text _⟩
    obtain rfl : t.raw ++ raws ts = s := h.raws_eq
    rw [ofRest_append (h.wellFormed t (List.mem_cons_self ..))
      (h.kind_ne_command t (List.mem_cons_self ..)) h.head?_raws
      (fun hb => ⟨h.staysBare hb, hclosed hb⟩) pos, hts]

/-! ## Words -/

/-- The tokens that are no whitespace. -/
def words (ts : List Token) : List Token := ts.filter fun t => !t.isWhitespace

theorem words_cons_of_whitespace {t : Token} (h : t.kind = .whitespace) (ts : List Token) :
    words (t :: ts) = words ts := by
  have ht : t.isWhitespace = true := by simp [isWhitespace, h]
  unfold words
  rw [List.filter_cons_of_neg (by simp [ht])]

theorem words_cons_of_kind_ne {t : Token} (h : t.kind ≠ .whitespace) (ts : List Token) :
    words (t :: ts) = t :: words ts := by
  have ht : t.isWhitespace = false := by simp [isWhitespace, h]
  unfold words
  rw [List.filter_cons_of_pos (by simp [ht])]

/-! ## Every rest has a reading -/

/-- A token that is neither whitespace nor bare may stand in front of any reading. -/
theorem ReadsRest.cons_closed {s : List Char} {t : Token} {ts : List Token} (h : ReadsRest s ts)
    (ht : t.WellFormed) (hk : t.kind ≠ .command) (hspace : t.kind ≠ .whitespace)
    (hb : ¬ t.IsBare) : ReadsRest (t.raw ++ s) (t :: ts) :=
  h.cons ht hk (fun _ _ => ⟨fun h => hspace h.1, fun h => hb h.1⟩) fun h => absurd h hb

theorem ReadsRest.cons_quoted {s value : List Char} {ts : List Token} (h : ReadsRest s ts)
    (hvalue : '"' ∉ value) :
    ReadsRest ('"' :: value ++ ['"'] ++ s) (⟨.string value, '"' :: value ++ ['"']⟩ :: ts) := by
  have hkind : kind ⟨.string value, '"' :: value ++ ['"']⟩ = .string := rfl
  exact h.cons_closed (t := ⟨.string value, '"' :: value ++ ['"']⟩) (Or.inl ⟨rfl, hvalue⟩)
    (by rw [hkind]; decide) (by rw [hkind]; decide) (not_isBare_quoted value)

theorem ReadsRest.cons_directive {s : List Char} {p : Placeholder} {ts : List Token}
    (h : ReadsRest s ts) (hp : p.Writable) :
    ReadsRest (p.written ++ s) (ofDirective p.key p.value p.written :: ts) := by
  have hkind := kind_ofDirective p.key p.value p.written
  have hread := h.cons_closed (wellFormed_ofDirective hp)
    (by rcases hkind with hk | hk <;> simp [hk]) (by rcases hkind with hk | hk <;> simp [hk])
    (fun hb => by rcases hkind with hk | hk <;> simp [hb.kind_eq] at hk)
  rwa [raw_ofDirective] at hread

theorem ReadsRest.cons_blank {s w : List Char} {ts : List Token} (h : ReadsRest s ts)
    (hne : w ≠ []) (hw : ∀ c ∈ w, isSpace c = true)
    (hfront : ∀ t ∈ ts.head?, t.kind ≠ .whitespace) :
    ReadsRest (w ++ s) (⟨.whitespace, w⟩ :: ts) := by
  have hkind : kind ⟨.whitespace, w⟩ = .whitespace := rfl
  have hbare := not_isBare_whitespace w
  refine h.cons (t := ⟨.whitespace, w⟩) ⟨hne, hw⟩ (by rw [hkind]; decide) ?_
    (fun hb => absurd hb hbare)
  intro u hu
  exact ⟨fun hk => hfront u hu hk.2, fun hb => hbare hb.1⟩

theorem ReadsRest.cons_text {s u : List Char} {ts : List Token} (h : ReadsRest s ts)
    (hne : u ≠ []) (hstays : StaysBare u s) (hfront : ∀ t ∈ ts.head?, ¬ t.IsBare) :
    ReadsRest (u ++ s) (text u :: ts) := by
  have hwf : (text u).WellFormed := Or.inr ⟨rfl, hne, hstays.isSpace_eq_false⟩
  refine h.cons hwf (by rw [kind_text]; decide) ?_ (fun _ => hstays)
  intro t ht
  refine ⟨?_, fun hb => hfront t ht hb.2⟩
  rw [kind_text]
  exact fun hk => absurd hk.1 (by decide)

theorem exists_cons_or_forall_head? (P : Token → Prop) (ts : List Token) :
    (∃ t us, ts = t :: us ∧ P t) ∨ ∀ t ∈ ts.head?, ¬ P t := by
  cases ts with
  | nil => exact Or.inr (by simp)
  | cons t us =>
    by_cases h : P t
    · exact Or.inl ⟨t, us, rfl, h⟩
    · exact Or.inr (by simpa using h)

/-- Spaces join the whitespace in front of the rest, and the other tokens stay. -/
theorem ReadsRest.exists_append_spaces {s w : List Char} {ts : List Token} (h : ReadsRest s ts)
    (hne : w ≠ []) (hw : ∀ c ∈ w, isSpace c = true) :
    ∃ u us, ReadsRest (w ++ s) (⟨.whitespace, u⟩ :: us) ∧ words us = words ts := by
  rcases exists_cons_or_forall_head? (fun t => t.kind = .whitespace) ts with
    ⟨t, us, rfl, hk⟩ | hfront
  · have ht := h.wellFormed t (List.mem_cons_self ..)
    have hspace : ∀ d ∈ w ++ t.raw, isSpace d = true :=
      List.forall_mem_append.mpr ⟨hw, ht.isSpace_of_kind hk⟩
    have hnext : ∀ u ∈ us.head?, u.kind ≠ .whitespace :=
      fun u hu hku => (h.separated.1 u hu).1 ⟨hk, hku⟩
    have hread := h.tail.cons_blank (by simp [hne]) hspace hnext
    refine ⟨w ++ t.raw, us, ?_, (words_cons_of_whitespace hk us).symm⟩
    rwa [← h.raws_eq, raws_cons, ← List.append_assoc]
  · exact ⟨w, ts, h.cons_blank hne hw hfront, rfl⟩

/-- A bare character joins the bare token in front of the rest. -/
theorem ReadsRest.exists_cons_bare {s : List Char} {ts : List Token} (h : ReadsRest s ts)
    {c : Char} (hc : isSpace c = false) (hq : ¬ BeginsQuoted (c :: s))
    (hd : ¬ BeginsDirective (c :: s)) : ∃ us, ReadsRest (c :: s) us := by
  rcases exists_cons_or_forall_head? IsBare ts with ⟨t, us, rfl, hb⟩ | hfront
  · obtain rfl : t.raw ++ raws us = s := h.raws_eq
    have hstays : StaysBare (c :: t.raw) (raws us) :=
      staysBare_cons.mpr ⟨⟨hc, hq, hd⟩, h.staysBare hb⟩
    have hnext : ∀ u ∈ us.head?, ¬ u.IsBare :=
      fun u hu hbu => (h.separated.1 u hu).2 ⟨hb, hbu⟩
    exact ⟨_, h.tail.cons_text (List.cons_ne_nil c t.raw) hstays hnext⟩
  · have hstays : StaysBare [c] s := staysBare_cons.mpr ⟨⟨hc, hq, hd⟩, staysBare_nil s⟩
    exact ⟨_, h.cons_text (List.cons_ne_nil c []) hstays hfront⟩

theorem exists_readsRest (s : List Char) : ∃ ts, ReadsRest s ts := by
  -- a quoted string or a directive is taken whole, so the induction is on the length
  generalize hn : s.length = n
  induction n using Nat.strongRecOn generalizing s with
  | ind n ih =>
    by_cases hq : BeginsQuoted s
    · obtain ⟨value, rest, hvalue, rfl⟩ := hq
      obtain ⟨ts, hts⟩ := ih rest.length (by simp at hn; omega) rest rfl
      exact ⟨_, by simpa using hts.cons_quoted hvalue⟩
    by_cases hd : BeginsDirective s
    · obtain ⟨p, hp, rest, rfl⟩ := hd
      have hpos : 0 < p.written.length := List.length_pos_iff.mpr p.written_ne_nil
      obtain ⟨ts, hts⟩ := ih rest.length (by simp at hn; omega) rest rfl
      exact ⟨_, hts.cons_directive hp⟩
    cases s with
    | nil => exact ⟨[], ReadsRest.nil⟩
    | cons c s =>
      obtain ⟨ts, hts⟩ := ih s.length (by simp at hn; omega) s rfl
      cases hc : isSpace c with
      | true =>
        obtain ⟨u, us, hread, -⟩ := hts.exists_append_spaces (w := [c]) (List.cons_ne_nil c [])
          (by simpa using hc)
        exact ⟨_, hread⟩
      | false => exact hts.exists_cons_bare hc hq hd

theorem readsRest_ofRest (pos : Nat) (s : List Char) : ReadsRest s (ofRest pos s) := by
  obtain ⟨ts, hts⟩ := exists_readsRest s
  rwa [hts.ofRest_eq pos]

end MacroScript.Token
