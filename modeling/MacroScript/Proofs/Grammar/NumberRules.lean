import MacroScript.Grammar.Rules
import MacroScript.Proofs.Grammar.Matching
import MacroScript.Proofs.Number.Reading
/-
  The pattern of a decimal takes the longest numeral at the front of a text. What it takes is a
  numeral (`exists_numeral_of_run`), and where a numeral stands at the front it matches and takes
  that numeral at least (`decimal_run_text`): a choice made early is never one that a longer
  numeral would have to take back.
-/

namespace MacroScript.Grammar

open Pattern
open Numeral (Sign Mantissa Exponent Magnitude digitText isDigit_of_mem_digitText
  exists_digitText isDigit_head?_point digitText_head?_ne_sign)

variable {s t u : List Char} {p : Char → Bool} {pos : Nat} {m : Match}

/-! ## Runs of a class -/

theorem run_span_append (hu : ∀ c ∈ u, p c = true) (pos : Nat) (t : List Char) :
    (span p).run pos (u ++ t) = some ⟨u ++ t.takeWhile p, [], t.dropWhile p⟩ := by
  rw [run, List.takeWhile_append_of_pos hu, List.dropWhile_append_of_pos hu]

theorem run_span1_append (hne : u ≠ []) (hu : ∀ c ∈ u, p c = true) (pos : Nat) (t : List Char) :
    (span1 p).run pos (u ++ t) = some ⟨u ++ t.takeWhile p, [], t.dropWhile p⟩ := by
  obtain ⟨c, u, rfl⟩ := List.exists_cons_of_ne_nil hne
  rw [List.forall_mem_cons] at hu
  have hone : (one p).run pos (c :: (u ++ t)) = some ⟨[c], [], u ++ t⟩ :=
    run_one_eq_some_iff.mpr ⟨c, u ++ t, hu.1, rfl, rfl⟩
  exact run_seq_eq_some_iff.mpr ⟨_, _, hone, run_span_append hu.2 _ t, rfl⟩

theorem run_span1_eq_none (hs : ∀ c ∈ s.head?, p c = false) : (span1 p).run pos s = none := by
  rw [Option.eq_none_iff_forall_ne_some]
  intro m hm
  obtain ⟨u, rest, hne, hu, -, rfl, -⟩ := run_span1_eq_some_iff.mp hm
  obtain ⟨c, u, rfl⟩ := List.exists_cons_of_ne_nil hne
  have hc := hu c (List.mem_cons_self ..)
  rw [hs c rfl] at hc
  cases hc

theorem takeWhile_of_stop (ht : ∀ c ∈ t.head?, p c = false) : t.takeWhile p = [] :=
  takeWhile_append_of_stop (u := []) (by simp) ht

theorem dropWhile_of_stop (ht : ∀ c ∈ t.head?, p c = false) : t.dropWhile p = t :=
  dropWhile_append_of_stop (u := []) (by simp) ht

/-! ## Signs -/

theorem isSign_iff {c : Char} : isSign c = true ↔ c = '+' ∨ c = '-' := by
  simp [isSign]

theorem opt_sign_run_text (x : Sign) (ht : ∀ c ∈ t.head?, c ≠ '+' ∧ c ≠ '-') (pos : Nat) :
    (opt sign).run pos (x.text ++ t) = some ⟨x.text, [], t⟩ := by
  rw [run_opt_eq_some_iff]
  cases x with
  | plus => exact Or.inl (run_one_eq_some_iff.mpr ⟨'+', t, rfl, rfl, rfl⟩)
  | minus => exact Or.inl (run_one_eq_some_iff.mpr ⟨'-', t, rfl, rfl, rfl⟩)
  | unsigned =>
    refine Or.inr ⟨?_, rfl⟩
    rw [Option.eq_none_iff_forall_ne_some]
    intro m hm
    obtain ⟨c, rest, hc, hs, -⟩ := run_one_eq_some_iff.mp hm
    obtain rfl : t = c :: rest := hs
    rcases isSign_iff.mp hc with rfl | rfl
    · exact (ht _ rfl).1 rfl
    · exact (ht _ rfl).2 rfl

theorem exists_sign_of_run (h : (opt sign).run pos s = some m) :
    m.parts = [] ∧ ∃ x : Sign, x.text = m.taken := by
  rcases run_opt_eq_some_iff.mp h with h | ⟨-, rfl⟩
  · obtain ⟨c, rest, hc, -, rfl⟩ := run_one_eq_some_iff.mp h
    rcases isSign_iff.mp hc with rfl | rfl
    · exact ⟨rfl, .plus, rfl⟩
    · exact ⟨rfl, .minus, rfl⟩
  · exact ⟨rfl, .unsigned, rfl⟩

/-! ## Digits with a point -/

/-- A point and the digits after it. -/
def pointed : Pattern := .seq (.word ['.']) (.span Char.isDigit)

theorem pointed_run_text (fs : List (Fin 10)) (pos : Nat) (t : List Char) :
    pointed.run pos ('.' :: (digitText fs ++ t)) =
      some ⟨'.' :: (digitText fs ++ t.takeWhile Char.isDigit), [], t.dropWhile Char.isDigit⟩ :=
  run_word_seq_eq_some_iff.mpr
    ⟨_, _, rfl, run_span_append isDigit_of_mem_digitText _ t, rfl⟩

/-- A pattern that may be missing matches every text. -/
theorem exists_opt_run (a : Pattern) (pos : Nat) (s : List Char) :
    ∃ m, (opt a).run pos s = some m :=
  ⟨_, by rw [run]⟩

theorem digits_run_pointed (whole fs : List (Fin 10)) (hne : whole ++ fs ≠ []) (pos : Nat)
    (t : List Char) :
    digits.run pos (digitText whole ++ '.' :: (digitText fs ++ t)) =
      some ⟨digitText whole ++ '.' :: (digitText fs ++ t.takeWhile Char.isDigit), [],
        t.dropWhile Char.isDigit⟩ := by
  have hstop := isDigit_head?_point (digitText fs ++ t)
  rw [digits, run_alt_eq_some_iff]
  cases whole with
  | nil =>
    have hwhole : (span1 Char.isDigit).run pos ('.' :: (digitText fs ++ t)) = none :=
      run_span1_eq_none hstop
    have hfs : digitText fs ≠ [] := by simpa [digitText] using hne
    have hfraction := run_span1_append hfs isDigit_of_mem_digitText (pos + byteSize ['.']) t
    refine Or.inr ⟨?_, run_word_seq_eq_some_iff.mpr ⟨_, _, rfl, hfraction, rfl⟩⟩
    rw [digitText, List.map_nil, List.nil_append, run, hwhole]
  | cons d ds =>
    have hwhole := run_span1_append (u := digitText (d :: ds)) (by simp [digitText])
      isDigit_of_mem_digitText pos ('.' :: (digitText fs ++ t))
    rw [takeWhile_of_stop hstop, dropWhile_of_stop hstop, List.append_nil] at hwhole
    have hpoint := run_opt_eq_some_iff.mpr
      (Or.inl (pointed_run_text fs (pos + byteSize (digitText (d :: ds))) t))
    exact Or.inl (run_seq_eq_some_iff.mpr ⟨_, _, hwhole, hpoint, rfl⟩)

theorem digits_run_text (x : Mantissa) (pos : Nat) (t : List Char) :
    ∃ m, digits.run pos (x.text ++ t) = some m ∧ x.text <+: m.taken ∧
      ((∀ c ∈ t.head?, c.isDigit = false ∧ c ≠ '.') → m = ⟨x.text, [], t⟩) := by
  obtain ⟨whole, fraction, hne⟩ := x
  unfold Mantissa.text
  cases fraction with
  | some fs =>
    rw [Option.elim_some, List.append_assoc, List.cons_append]
    refine ⟨_, digits_run_pointed whole fs hne pos t, ⟨t.takeWhile Char.isDigit, by simp⟩, ?_⟩
    intro ht
    have hdigit : ∀ c ∈ t.head?, c.isDigit = false := fun c hc => (ht c hc).1
    rw [takeWhile_of_stop hdigit, dropWhile_of_stop hdigit, List.append_nil]
  | none =>
    have hne' : digitText whole ≠ [] := by simpa [digitText] using hne
    rw [Option.elim_none, List.append_nil]
    have hwhole := run_span1_append hne' isDigit_of_mem_digitText pos t
    obtain ⟨m, hm⟩ := exists_opt_run pointed
      (pos + byteSize (digitText whole ++ t.takeWhile Char.isDigit)) (t.dropWhile Char.isDigit)
    have hseq := run_seq_eq_some_iff.mpr ⟨_, m, hwhole, hm, rfl⟩
    refine ⟨_, run_alt_eq_some_iff.mpr (Or.inl hseq), ?_, ?_⟩
    · rw [Match.append, List.append_assoc]
      exact List.prefix_append ..
    · intro ht
      have hdigit : ∀ c ∈ t.head?, c.isDigit = false := fun c hc => (ht c hc).1
      rw [dropWhile_of_stop hdigit] at hm
      have hpoint : m = .empty t := by
        rcases run_opt_eq_some_iff.mp hm with h | ⟨-, rfl⟩
        · obtain ⟨rest, -, rfl, -, -⟩ := run_word_seq_eq_some_iff.mp h
          exact absurd rfl (ht '.' rfl).2
        · rfl
      rw [takeWhile_of_stop hdigit, dropWhile_of_stop hdigit, hpoint]
      simp [Match.append, Match.empty]

theorem exists_mantissa_of_run (h : digits.run pos s = some m) :
    m.parts = [] ∧ ∃ x : Mantissa, x.text = m.taken := by
  rcases run_alt_eq_some_iff.mp h with h | ⟨-, h⟩
  · obtain ⟨_, m₂, hwhole, hpoint, rfl⟩ := run_seq_eq_some_iff.mp h
    obtain ⟨u, rest, hne, hu, -, rfl, rfl⟩ := run_span1_eq_some_iff.mp hwhole
    obtain ⟨ds, rfl⟩ := exists_digitText hu
    have hds : ds ≠ [] := by simpa [digitText] using hne
    rcases run_opt_eq_some_iff.mp hpoint with hpoint | ⟨-, rfl⟩
    · obtain ⟨_, _, -, hspan, rfl⟩ := run_word_seq_eq_some_iff.mp hpoint
      obtain ⟨v, _, hv, -, -, rfl⟩ := run_span_eq_some_iff.mp hspan
      obtain ⟨fs, rfl⟩ := exists_digitText hv
      exact ⟨rfl, ⟨ds, some fs, by simp [hds]⟩, rfl⟩
    · exact ⟨rfl, ⟨ds, none, by simp [hds]⟩, rfl⟩
  · obtain ⟨_, _, -, hspan, rfl⟩ := run_word_seq_eq_some_iff.mp h
    obtain ⟨v, _, hne, hv, -, -, rfl⟩ := run_span1_eq_some_iff.mp hspan
    obtain ⟨fs, rfl⟩ := exists_digitText hv
    exact ⟨rfl, ⟨[], some fs, by simpa [digitText] using hne⟩, rfl⟩

/-! ## Exponents -/

theorem isExponentMark_iff {c : Char} : isExponentMark c = true ↔ c = 'e' ∨ c = 'E' := by
  simp [isExponentMark]

theorem isExponentMark_mark (e : Exponent) : isExponentMark e.mark = true := by
  unfold Exponent.mark
  split
  · rfl
  · rfl

theorem exponent_run_text (e : Exponent) (pos : Nat) (t : List Char) :
    exponent.run pos (e.text ++ t) =
      some ⟨e.text ++ t.takeWhile Char.isDigit, [], t.dropWhile Char.isDigit⟩ := by
  have hds : digitText e.digits ≠ [] := by simpa [digitText] using e.digits_ne_nil
  have hmark : (one isExponentMark).run pos (e.mark :: (e.sign.text ++ (digitText e.digits ++ t))) =
      some ⟨[e.mark], [], e.sign.text ++ (digitText e.digits ++ t)⟩ :=
    run_one_eq_some_iff.mpr ⟨_, _, isExponentMark_mark e, rfl, rfl⟩
  have hsign := opt_sign_run_text e.sign (digitText_head?_ne_sign e.digits_ne_nil t)
    (pos + byteSize [e.mark])
  have hdigits := run_span1_append hds isDigit_of_mem_digitText
    (pos + byteSize [e.mark] + byteSize e.sign.text) t
  have htail := run_seq_eq_some_iff.mpr ⟨_, _, hsign, hdigits, rfl⟩
  have hrun := run_seq_eq_some_iff.mpr ⟨_, _, hmark, htail, rfl⟩
  have htext : e.text ++ t = e.mark :: (e.sign.text ++ (digitText e.digits ++ t)) := by
    simp [Exponent.text]
  rw [htext, exponent, hrun]
  simp [Match.append, Exponent.text]

theorem exists_exponent_of_run (h : exponent.run pos s = some m) :
    m.parts = [] ∧ ∃ e : Exponent, e.text = m.taken := by
  obtain ⟨_, _, hmark, htail, rfl⟩ := run_seq_eq_some_iff.mp h
  obtain ⟨c, rest, hc, -, rfl⟩ := run_one_eq_some_iff.mp hmark
  obtain ⟨m₁, _, hsign, hspan, rfl⟩ := run_seq_eq_some_iff.mp htail
  obtain ⟨hparts, x, hx⟩ := exists_sign_of_run hsign
  obtain ⟨u, _, hne, hu, -, -, rfl⟩ := run_span1_eq_some_iff.mp hspan
  obtain ⟨ds, rfl⟩ := exists_digitText hu
  have hds : ds ≠ [] := by simpa [digitText] using hne
  refine ⟨by simp [Match.append, hparts], ?_⟩
  rcases isExponentMark_iff.mp hc with rfl | rfl
  · exact ⟨⟨false, x, ds, hds⟩, by simp [Exponent.text, Exponent.mark, Match.append, hx]⟩
  · exact ⟨⟨true, x, ds, hds⟩, by simp [Exponent.text, Exponent.mark, Match.append, hx]⟩

/-! ## Numbers without a sign -/

/-- What stands after the sign of a decimal. -/
def unsigned : Pattern :=
  .alt (.word Decimal.infinityWord) (.seq digits (.opt exponent))

/-- The word for infinity does not begin as digits and points do. -/
theorem infinity_run_mantissa (x : Mantissa) (pos : Nat) (t : List Char) :
    (word Decimal.infinityWord).run pos (x.text ++ t) = none := by
  rw [Option.eq_none_iff_forall_ne_some]
  intro m hm
  obtain ⟨rest, hs, -⟩ := run_word_eq_some_iff.mp hm
  have hhead := x.head?_text t 'I' (by rw [hs]; rfl)
  exact absurd hhead (by decide)

theorem unsigned_run_text (y : Magnitude) (pos : Nat) (t : List Char) :
    ∃ m, unsigned.run pos (y.text ++ t) = some m ∧ y.text <+: m.taken := by
  cases y with
  | infinity =>
    have hword : (word Decimal.infinityWord).run pos (Decimal.infinityWord ++ t) =
        some ⟨Decimal.infinityWord, [], t⟩ :=
      run_word_eq_some_iff.mpr ⟨t, rfl, rfl⟩
    exact ⟨_, run_alt_eq_some_iff.mpr (Or.inl hword), List.prefix_refl _⟩
  | finite x e =>
    have hword := infinity_run_mantissa x pos
    cases e with
    | none =>
      obtain ⟨m₁, hdigits, hle, -⟩ := digits_run_text x pos t
      obtain ⟨m₂, hexponent⟩ := exists_opt_run exponent (pos + byteSize m₁.taken) m₁.rest
      have hseq := run_seq_eq_some_iff.mpr ⟨_, _, hdigits, hexponent, rfl⟩
      rw [Magnitude.text, Option.elim_none, List.append_nil]
      exact ⟨_, run_alt_eq_some_iff.mpr (Or.inr ⟨hword t, hseq⟩),
        hle.trans (List.prefix_append ..)⟩
    | some e =>
      -- an exponent goes on no digits, so the digits before it are exactly these
      obtain ⟨_, hdigits, -, hexact⟩ := digits_run_text x pos (e.text ++ t)
      obtain rfl := hexact (e.head?_text t)
      have hexponent := run_opt_eq_some_iff.mpr
        (Or.inl (exponent_run_text e (pos + byteSize x.text) t))
      have hseq := run_seq_eq_some_iff.mpr ⟨_, _, hdigits, hexponent, rfl⟩
      rw [Magnitude.text, Option.elim_some, List.append_assoc]
      refine ⟨_, run_alt_eq_some_iff.mpr (Or.inr ⟨hword _, hseq⟩), ?_⟩
      rw [Match.append, ← List.append_assoc]
      exact List.prefix_append ..

theorem exists_magnitude_of_run (h : unsigned.run pos s = some m) :
    m.parts = [] ∧ ∃ y : Magnitude, y.text = m.taken := by
  rcases run_alt_eq_some_iff.mp h with hword | ⟨-, hfinite⟩
  · obtain ⟨_, -, rfl⟩ := run_word_eq_some_iff.mp hword
    exact ⟨rfl, .infinity, rfl⟩
  · obtain ⟨m₁, m₂, hdigits, hexponent, rfl⟩ := run_seq_eq_some_iff.mp hfinite
    obtain ⟨hparts₁, x, hx⟩ := exists_mantissa_of_run hdigits
    rcases run_opt_eq_some_iff.mp hexponent with hexponent | ⟨-, rfl⟩
    · obtain ⟨hparts₂, e, he⟩ := exists_exponent_of_run hexponent
      refine ⟨by simp [Match.append, hparts₁, hparts₂], .finite x (some e), ?_⟩
      simp [Magnitude.text, Match.append, hx, he]
    · refine ⟨by simp [Match.append, Match.empty, hparts₁], .finite x none, ?_⟩
      simp [Magnitude.text, Match.append, Match.empty, hx]

/-! ## Decimals -/

/-- Where a numeral stands at the front, a decimal takes that numeral at least. -/
theorem decimal_run_text (n : Numeral) (pos : Nat) (t : List Char) :
    ∃ m, decimal.run pos (n.text ++ t) = some m ∧ n.text <+: m.taken := by
  obtain ⟨x, y⟩ := n
  have hsign := opt_sign_run_text x (fun c hc => (y.head?_text t c hc).2) pos
  obtain ⟨m, hrun, hle⟩ := unsigned_run_text y (pos + byteSize x.text) t
  have hseq := run_seq_eq_some_iff.mpr ⟨_, _, hsign, hrun, rfl⟩
  rw [Numeral.text, List.append_assoc]
  exact ⟨_, run_part_eq_some_iff.mpr ⟨_, hseq, rfl⟩, (List.prefix_append_right_inj _).mpr hle⟩

/-- What a decimal takes is a numeral. -/
theorem exists_numeral_of_run (h : decimal.run pos s = some m) :
    m.parts = [⟨.decimal, pos, m.taken, []⟩] ∧ ∃ n : Numeral, n.text = m.taken := by
  obtain ⟨_, hseq, rfl⟩ := run_part_eq_some_iff.mp h
  obtain ⟨m₁, m₂, hsign, hbody, rfl⟩ := run_seq_eq_some_iff.mp hseq
  obtain ⟨hparts₁, x, hx⟩ := exists_sign_of_run hsign
  obtain ⟨hparts₂, y, hy⟩ := exists_magnitude_of_run hbody
  refine ⟨by simp [Match.append, hparts₁, hparts₂], ⟨x, y⟩, ?_⟩
  simp [Numeral.text, Match.append, hx, hy]

end MacroScript.Grammar
