import MacroScript.Proofs.Token.Canonical
/-
  Tokens of a text with other spaces between its words. No quote, bracket, dot or end mark is a
  space, so other runs of spaces in the places of the runs of a text let nothing begin in it that
  did not begin before (`BeginsQuoted.of_spacedLike`, `BeginsDirective.of_spacedLike`). The words
  of a rest therefore stay as they are, whatever spaces stand between them and at its end
  (`Token.ReadsRest.respace`).
-/

namespace MacroScript

/-! ## Texts with other spaces -/

/-- Two texts that differ at most in some runs of spaces, each of which has one space at least
in both. -/
inductive SpacedLike : List Char → List Char → Prop
  | nil : SpacedLike [] []
  | gap {w w' s s' : List Char} : w ≠ [] → (∀ c ∈ w, isSpace c = true) → w' ≠ [] →
      (∀ c ∈ w', isSpace c = true) → SpacedLike s s' → SpacedLike (w ++ s) (w' ++ s')
  | char (c : Char) {s s' : List Char} : SpacedLike s s' → SpacedLike (c :: s) (c :: s')

namespace SpacedLike

variable {s s' : List Char}

theorem append_left (h : SpacedLike s s') (u : List Char) : SpacedLike (u ++ s) (u ++ s') := by
  induction u with
  | nil => exact h
  | cons c u ih => exact .char c ih

theorem ne_nil (h : SpacedLike s s') (hne : s' ≠ []) : s ≠ [] := by
  cases h with
  | nil => exact hne
  | gap hw => simp [hw]
  | char c => exact List.cons_ne_nil c _

theorem eq_nil (h : SpacedLike s []) : s = [] := by
  generalize hs : [] = s' at h
  cases h with
  | nil => rfl
  | gap _ _ hw' => exact absurd hs.symm (by simp [hw'])
  | char c => cases hs

/-- A character that is no space stands in the same place in both texts. -/
theorem exists_cut {u' v' : List Char} {c : Char} (h : SpacedLike s s') (hc : isSpace c = false)
    (hs : s' = u' ++ c :: v') :
    ∃ u v, s = u ++ c :: v ∧ SpacedLike u u' ∧ SpacedLike v v' := by
  induction h generalizing u' with
  | nil => simp at hs
  | @gap w w' s s' hw hspace hw' hspace' h ih =>
    rcases List.append_eq_append_iff.mp hs with ⟨u'', rfl, hs'⟩ | ⟨x, rfl, hx⟩
    · obtain ⟨u, v, rfl, hu, hv⟩ := ih hs'
      exact ⟨w ++ u, v, (List.append_assoc ..).symm, .gap hw hspace hw' hspace' hu, hv⟩
    · -- the cut would be inside the run of spaces, unless it is right after it
      cases x with
      | nil =>
        have hs' : s' = [] ++ c :: v' := hx.symm
        obtain ⟨u, v, rfl, hu, hv⟩ := ih hs'
        rw [List.append_nil] at hw' hspace'
        have hgap : SpacedLike (w ++ u) (u' ++ []) := .gap hw hspace hw' hspace' hu
        rw [List.append_nil] at hgap
        exact ⟨w ++ u, v, (List.append_assoc ..).symm, hgap, hv⟩
      | cons d x =>
        obtain ⟨rfl, -⟩ := List.cons.inj hx
        rw [hspace' c (by simp)] at hc
        cases hc
  | @char d s s' h ih =>
    cases u' with
    | nil =>
      obtain ⟨rfl, rfl⟩ := List.cons.inj hs
      exact ⟨[], s, rfl, .nil, h⟩
    | cons e u' =>
      obtain ⟨rfl, hs'⟩ := List.cons.inj hs
      obtain ⟨u, v, rfl, hu, hv⟩ := ih hs'
      exact ⟨d :: u, v, rfl, .char d hu, hv⟩

theorem symm (h : SpacedLike s s') : SpacedLike s' s := by
  induction h with
  | nil => exact .nil
  | gap hw hspace hw' hspace' _ ih => exact .gap hw' hspace' hw hspace ih
  | char c _ ih => exact .char c ih

theorem mem_of_mem {c : Char} (h : SpacedLike s s') (hc : isSpace c = false) (hmem : c ∈ s') :
    c ∈ s := by
  obtain ⟨u', v', hs⟩ := List.append_of_mem hmem
  obtain ⟨u, v, rfl, -, -⟩ := h.exists_cut hc hs
  exact List.mem_append_right u (List.mem_cons_self ..)

/-- What holds of spaces and of one text holds of the other. -/
theorem forall_mem {P : Char → Prop} (h : SpacedLike s s') (hP : ∀ c, isSpace c = true → P c)
    (hs : ∀ c ∈ s', P c) : ∀ c ∈ s, P c := by
  intro c hc
  cases hspace : isSpace c with
  | true => exact hP c hspace
  | false => exact hs c (h.symm.mem_of_mem hspace hc)

/-- A text that begins with a character that is no space still does. -/
theorem exists_cons {c : Char} {v' : List Char} (h : SpacedLike s (c :: v'))
    (hc : isSpace c = false) : ∃ v, s = c :: v ∧ SpacedLike v v' := by
  have hfront : c :: v' = [] ++ c :: v' := rfl
  obtain ⟨u, v, rfl, hu, hv⟩ := h.exists_cut hc hfront
  rw [hu.eq_nil]
  exact ⟨v, rfl, hv⟩

end SpacedLike

/-! ## What a text with other spaces begins with -/

theorem ne_of_isSpace {c d : Char} (hc : isSpace c = true) (hd : isSpace d = false) : c ≠ d := by
  rintro rfl
  rw [hc] at hd
  cases hd

theorem BeginsQuoted.of_spacedLike {s s' : List Char} (hq : BeginsQuoted s')
    (h : SpacedLike s s') : BeginsQuoted s := by
  obtain ⟨value, rest, -, rfl⟩ := hq
  obtain ⟨v, rfl, hv⟩ := h.exists_cons (by decide)
  exact beginsQuoted_cons_iff.mpr (hv.mem_of_mem (by decide) (by simp))

theorem SpacedLike.isKey {key key' : List Char} (h : SpacedLike key key')
    (hkey : ∀ c ∈ key', c ≠ '>' ∧ c ≠ '.') : ∀ c ∈ key, c ≠ '>' ∧ c ≠ '.' :=
  h.forall_mem (fun _ hc => ⟨ne_of_isSpace hc (by decide), ne_of_isSpace hc (by decide)⟩) hkey

theorem BeginsDirective.of_spacedLike {s s' : List Char} (hd : BeginsDirective s')
    (h : SpacedLike s s') : BeginsDirective s := by
  obtain ⟨⟨key', value'⟩, hp, rest', rfl⟩ := hd
  rw [Placeholder.written_append] at h
  obtain ⟨v, rfl, hv⟩ := h.exists_cons (by decide)
  cases value' with
  | none =>
    obtain ⟨key, rest, rfl, hkey, -⟩ := hv.exists_cut (c := '>') (by decide) rfl
    have hwritable : Placeholder.Writable ⟨key, none⟩ :=
      ⟨hkey.ne_nil hp.key_ne_nil, hkey.isKey hp.key_chars, by simp, by simp⟩
    exact ⟨⟨key, none⟩, hwritable, rest, (Placeholder.written_append ⟨key, none⟩ rest).symm⟩
  | some value' =>
    obtain ⟨key, _, rfl, hkey, htail⟩ := hv.exists_cut (c := '.') (by decide) rfl
    obtain ⟨value, rest, rfl, hvalue, -⟩ := htail.exists_cut (c := '>') (by decide) rfl
    have hmark : '>' ∉ value := fun hmem =>
      hp.value_chars value' rfl (hvalue.symm.mem_of_mem (by decide) hmem)
    have hwritable : Placeholder.Writable ⟨key, some value⟩ :=
      ⟨hkey.ne_nil hp.key_ne_nil, hkey.isKey hp.key_chars,
        by simpa using hvalue.ne_nil (hp.value_ne_nil value' rfl), by simpa using hmark⟩
    exact ⟨⟨key, some value⟩, hwritable, rest,
      (Placeholder.written_append ⟨key, some value⟩ rest).symm⟩

/-- Spaces at the end of a text close no quoted string. -/
theorem BeginsQuoted.of_append_spaces {s w : List Char} (h : BeginsQuoted (s ++ w))
    (hw : ∀ c ∈ w, isSpace c = true) : BeginsQuoted s := by
  have hmark : '"' ∉ w := fun hmem => ne_of_isSpace (hw _ hmem) (by decide) rfl
  cases s with
  | nil => exact absurd (List.mem_of_mem_head? h.head?_eq) hmark
  | cons c s =>
    obtain rfl : c = '"' := Option.some.inj h.head?_eq
    have hmem := beginsQuoted_cons_iff.mp h
    exact beginsQuoted_cons_iff.mpr ((List.mem_append.mp hmem).resolve_right hmark)

/-- Spaces at the end of a text end no directive. -/
theorem BeginsDirective.of_append_spaces {s w : List Char} (h : BeginsDirective (s ++ w))
    (hw : ∀ c ∈ w, isSpace c = true) : BeginsDirective s := by
  have hmark : '>' ∉ w := fun hmem => ne_of_isSpace (hw _ hmem) (by decide) rfl
  have hmem : '>' ∈ s ++ w := by
    obtain ⟨p, -, rest, hs⟩ := h
    rw [hs]
    simp [Placeholder.written]
  exact h.of_append ((List.mem_append.mp hmem).resolve_right hmark)

namespace Token

theorem StaysBare.respace {u s s' w : List Char} (h : StaysBare u s) (hs : SpacedLike s s')
    (hw : ∀ c ∈ w, isSpace c = true) : StaysBare u (s' ++ w) := by
  intro before c after hu
  obtain ⟨hc, hq, hd⟩ := h before c after hu
  have hrest : SpacedLike (c :: after ++ s) (c :: after ++ s') := hs.append_left _
  rw [← List.append_assoc]
  exact ⟨hc, fun hbegins => hq ((hbegins.of_append_spaces hw).of_spacedLike hrest),
    fun hbegins => hd ((hbegins.of_append_spaces hw).of_spacedLike hrest)⟩

/-! ## Tokens with other spaces -/

/-- The tokens with any other run of spaces, of one space at least, for each whitespace token. -/
inductive Respaced : List Token → List Token → Prop
  | nil : Respaced [] []
  | gap {w w' : List Char} {ts us : List Token} : w' ≠ [] → (∀ c ∈ w', isSpace c = true) →
      Respaced ts us → Respaced (⟨.whitespace, w⟩ :: ts) (⟨.whitespace, w'⟩ :: us)
  | word {t : Token} {ts us : List Token} : t.kind ≠ .whitespace →
      Respaced ts us → Respaced (t :: ts) (t :: us)

theorem Respaced.spacedLike {ts us : List Token} (h : Respaced ts us)
    (hts : ∀ t ∈ ts, t.WellFormed) : SpacedLike (raws ts) (raws us) := by
  induction h with
  | nil => exact .nil
  | gap hne hspace _ ih =>
    rw [List.forall_mem_cons] at hts
    exact .gap hts.1.1 hts.1.2 hne hspace (ih hts.2)
  | word _ _ ih =>
    rw [List.forall_mem_cons] at hts
    exact (ih hts.2).append_left _

/-- The words of a rest are read again with other spaces between them and any at the end. -/
theorem ReadsRest.respace {s w : List Char} {ts us : List Token} (h : ReadsRest s ts)
    (hus : Respaced ts us) (hw : ∀ c ∈ w, isSpace c = true) :
    ∃ vs, ReadsRest (raws us ++ w) vs ∧ words vs = words ts ∧
      ∀ v ∈ vs.head?, v.kind = .whitespace ∨ v ∈ ts.head? := by
  induction hus generalizing s with
  | nil =>
    by_cases hne : w = []
    · subst hne
      exact ⟨[], ReadsRest.nil, rfl, by simp⟩
    · obtain ⟨u, vs, hvs, hwords⟩ := ReadsRest.nil.exists_append_spaces hne hw
      rw [List.append_nil] at hvs
      refine ⟨_, hvs, ?_, by simp [kind, Content.kind]⟩
      rw [words_cons_of_whitespace rfl, hwords]
  | gap hne hspace _ ih =>
    obtain ⟨vs, hvs, hwords, -⟩ := ih h.tail
    obtain ⟨u, us', hread, hwords'⟩ := hvs.exists_append_spaces hne hspace
    rw [raws_cons, List.append_assoc]
    refine ⟨_, hread, ?_, by simp [kind, Content.kind]⟩
    rw [words_cons_of_whitespace rfl, words_cons_of_whitespace rfl, hwords', hwords]
  | @word t ts us hk hus ih =>
    obtain ⟨vs, hvs, hwords, hhead⟩ := ih h.tail
    have hwf := List.forall_mem_cons.mp h.wellFormed
    have hsep : ∀ v ∈ vs.head?, ¬ (t.kind = .whitespace ∧ v.kind = .whitespace) ∧
        ¬ (t.IsBare ∧ v.IsBare) := by
      intro v hv
      refine ⟨fun hboth => hk hboth.1, fun hboth => ?_⟩
      rcases hhead v hv with hspace | hfirst
      · rw [hboth.2.kind_eq] at hspace
        cases hspace
      · exact (h.separated.1 v hfirst).2 hboth
    have hread := hvs.cons hwf.1 (h.kind_ne_command t (List.mem_cons_self ..)) hsep fun hb =>
      (h.staysBare hb).respace (hus.spacedLike hwf.2) hw
    rw [raws_cons, List.append_assoc]
    refine ⟨_, hread, ?_, by simp⟩
    rw [words_cons_of_kind_ne hk, words_cons_of_kind_ne hk, hwords]

/-- What comes after a command head still begins with a space, if there is anything. -/
theorem Respaced.isSpace_head {w : List Char} {ts us : List Token} (h : Respaced ts us)
    (hts : ∀ t ∈ ts.head?, t.kind = .whitespace) (hw : ∀ c ∈ w, isSpace c = true) :
    ∀ c ∈ (raws us ++ w).head?, isSpace c = true := by
  cases h with
  | nil => exact fun c hc => hw c (List.mem_of_mem_head? hc)
  | @gap _ w' _ us hne hspace _ =>
    obtain ⟨d, w', rfl⟩ := List.exists_cons_of_ne_nil hne
    intro c hc
    obtain rfl : d = c := Option.some.inj hc
    exact hspace d (List.mem_cons_self ..)
  | word hk _ => exact absurd (hts _ rfl) hk

end Token

end MacroScript
