import MacroScript.Proofs.Grammar.LineRules
/-
  The languages of the rules that read one token. A rule matches exactly where the text begins
  with a word of its language, although no run in it gives a character back: the runs stop at
  marks that the word cannot hold. For the same reason a text begins with one word only, and a
  directive can be cut into its key and its value in one way (`Placeholder.written_append_inj`).
  Main statement: `Grammar.rules_run_languages`.
-/

namespace MacroScript

/-! ## Directives -/

/-- A directive is a key alone, or a key and a value with a dot between them. -/
theorem beginsDirective_iff {s : List Char} :
    BeginsDirective s ↔
      (∃ key rest, key ≠ [] ∧ (∀ c ∈ key, c ≠ '>' ∧ c ≠ '.') ∧ s = '<' :: key ++ '>' :: rest) ∨
      ∃ key value rest, key ≠ [] ∧ (∀ c ∈ key, c ≠ '>' ∧ c ≠ '.') ∧ value ≠ [] ∧ '>' ∉ value ∧
        s = '<' :: key ++ '.' :: value ++ '>' :: rest := by
  constructor
  · rintro ⟨⟨key, value⟩, hp, rest, rfl⟩
    cases value with
    | none => exact Or.inl ⟨key, rest, hp.key_ne_nil, hp.key_chars, by simp [Placeholder.written]⟩
    | some v =>
      exact Or.inr ⟨key, v, rest, hp.key_ne_nil, hp.key_chars, hp.value_ne_nil v rfl,
        hp.value_chars v rfl, by simp [Placeholder.written]⟩
  · rintro (⟨key, rest, hne, hchars, rfl⟩ | ⟨key, v, rest, hne, hchars, hvne, hvchars, rfl⟩)
    · have hp : Placeholder.Writable ⟨key, none⟩ := ⟨hne, hchars, by simp, by simp⟩
      exact ⟨⟨key, none⟩, hp, rest, by simp [Placeholder.written]⟩
    · have hp : Placeholder.Writable ⟨key, some v⟩ :=
        ⟨hne, hchars, by simpa using hvne, by simpa using hvchars⟩
      exact ⟨⟨key, some v⟩, hp, rest, by simp [Placeholder.written]⟩

namespace Placeholder

variable {p q : Placeholder} {rest rest' : List Char}

/-- A written placeholder is the text up to the first end mark. -/
theorem Writable.written_eq_takeWhile (hp : p.Writable) (rest : List Char) :
    p.written = (p.written ++ rest).takeWhile (· != '>') ++ ['>'] := by
  obtain ⟨inside, hinside, hw⟩ := hp.written_eq
  have hstop : ∀ c ∈ ('>' :: rest).head?, (c != '>') = false := by simp
  rw [hw, List.append_assoc, List.singleton_append,
    takeWhile_append_of_stop (forall_ne_iff_notMem.mpr hinside) hstop]

/-- Where the key ends, a dot with a value or the end mark tells whether there is a value. -/
theorem value_append_inj {v v' : Option (List Char)} (hv : ∀ u ∈ v, '>' ∉ u)
    (hv' : ∀ u ∈ v', '>' ∉ u)
    (h : v.elim [] ('.' :: ·) ++ '>' :: rest = v'.elim [] ('.' :: ·) ++ '>' :: rest') :
    v = v' ∧ rest = rest' := by
  cases v with
  | none =>
    cases v' with
    | none => exact ⟨rfl, (List.cons.inj h).2⟩
    | some u' => exact absurd (List.cons.inj h).1 (by decide)
  | some u =>
    cases v' with
    | none => exact absurd (List.cons.inj h).1 (by decide)
    | some u' =>
      obtain ⟨rfl, rfl⟩ :=
        append_cons_inj_of_notMem_left (hv u rfl) (hv' u' rfl) (List.cons.inj h).2
      exact ⟨rfl, rfl⟩

/-- A text begins with one written placeholder at most. -/
theorem written_append_inj (hp : p.Writable) (hq : q.Writable)
    (h : p.written ++ rest = q.written ++ rest') : p = q ∧ rest = rest' := by
  rw [written_append, written_append] at h
  have hkey : ∀ r : Placeholder, r.Writable → ∀ c ∈ r.key, Grammar.isKeyChar c = true :=
    fun r hr c hc => Grammar.isKeyChar_iff.mpr (hr.key_chars c hc)
  have hstop : ∀ (r : Placeholder) (t : List Char),
      ∀ c ∈ (r.value.elim [] ('.' :: ·) ++ '>' :: t).head?, Grammar.isKeyChar c = false := by
    intro r t c hc
    rcases Grammar.head?_value_append r.value t c hc with rfl | rfl
    · rfl
    · rfl
  obtain ⟨hkeys, htails⟩ :=
    append_inj_of_stop (hkey p hp) (hstop p rest) (hkey q hq) (hstop q rest') (List.cons.inj h).2
  obtain ⟨hvalues, hrest⟩ := value_append_inj hp.value_chars hq.value_chars htails
  cases p
  cases q
  exact ⟨by rw [Placeholder.mk.injEq]; exact ⟨hkeys, hvalues⟩, hrest⟩

end Placeholder

namespace Grammar

variable {pos : Nat} {s : List Char}

/-! ## Where the rules match -/

theorem exists_directive_run_iff :
    (∃ m, directive.run pos s = some m) ↔ BeginsDirective s := by
  constructor
  · rintro ⟨m, hm⟩
    obtain ⟨p, rest, hp, hs, -⟩ := directive_run_eq_some_iff.mp hm
    exact ⟨p, hp, rest, hs⟩
  · rintro ⟨p, hp, rest, rfl⟩
    exact ⟨_, directive_run_written hp pos rest⟩

/-- A quoted string needs a second quote. -/
theorem exists_quoted_run_iff :
    (∃ m, quoted.run pos s = some m) ↔ ∃ t, s = '"' :: t ∧ '"' ∈ t := by
  constructor
  · rintro ⟨m, hm⟩
    obtain ⟨value, rest, -, rfl, -⟩ := quoted_run_eq_some_iff.mp hm
    exact ⟨value ++ '"' :: rest, rfl, by simp⟩
  · rintro ⟨t, rfl, hmem⟩
    obtain ⟨value, rest, hvalue, hs⟩ := beginsQuoted_cons_iff.mpr hmem
    exact ⟨_, quoted_run_eq_some_iff.mpr ⟨value, rest, hvalue, hs, rfl⟩⟩

theorem exists_command_run_iff : (∃ m, command.run pos s = some m) ↔ BeginsCommand s := by
  constructor
  · rintro ⟨m, hm⟩
    obtain ⟨name, rest, hne, hname, hrest, hs, -⟩ := command_run_eq_some_iff.mp hm
    exact beginsCommand_iff.mpr ⟨name, rest, hne, hname, hrest, hs⟩
  · intro h
    obtain ⟨name, rest, hne, hname, hrest, hs⟩ := beginsCommand_iff.mp h
    exact ⟨_, command_run_eq_some_iff.mpr ⟨name, rest, hne, hname, hrest, hs, rfl⟩⟩

theorem exists_blank_run_iff :
    (∃ m, blank.run pos s = some m) ↔ ∃ c t, isSpace c = true ∧ s = c :: t := by
  constructor
  · rintro ⟨m, hm⟩
    obtain ⟨w, rest, hne, hw, -, rfl, -⟩ := blank_run_eq_some_iff.mp hm
    obtain ⟨c, w, rfl⟩ := List.exists_cons_of_ne_nil hne
    exact ⟨c, w ++ rest, hw c (List.mem_cons_self ..), rfl⟩
  · rintro ⟨c, t, hc, rfl⟩
    obtain ⟨w, rest, hw, hrest, rfl⟩ := exists_longest_run isSpace t
    have hall : ∀ d ∈ c :: w, isSpace d = true := List.forall_mem_cons.mpr ⟨hc, hw⟩
    exact ⟨_, blank_run_eq_some_iff.mpr
      ⟨c :: w, rest, List.cons_ne_nil c w, hall, hrest, rfl, rfl⟩⟩

/-- **Each rule matches exactly the words of its language.** A directive matches where the text
begins with a key, or a key, a dot and a value, between angle brackets; the match ends at the first
end mark, and only this key and this value are there. A quoted string matches where the text
begins with a quote and holds another one, and ends right after that. A command head matches where
the text begins with a slash and a character that is no space, and ends before the next space or
with the text. A blank matches where the text begins with a space, and ends before the next other
character or with the text. -/
theorem rules_run_languages (pos : Nat) (s : List Char) :
    (((∃ m, directive.run pos s = some m) ↔
        (∃ key rest, key ≠ [] ∧ (∀ c ∈ key, c ≠ '>' ∧ c ≠ '.') ∧ s = '<' :: key ++ '>' :: rest) ∨
        ∃ key value rest, key ≠ [] ∧ (∀ c ∈ key, c ≠ '>' ∧ c ≠ '.') ∧ value ≠ [] ∧ '>' ∉ value ∧
          s = '<' :: key ++ '.' :: value ++ '>' :: rest) ∧
      ∀ p rest, Placeholder.Writable p → s = p.written ++ rest →
        directive.run pos s = some ⟨p.written, [directivePart pos p], rest⟩ ∧
        p.written = s.takeWhile (· != '>') ++ ['>'] ∧
        ∀ q rest', Placeholder.Writable q → s = q.written ++ rest' → q = p) ∧
    (((∃ m, quoted.run pos s = some m) ↔ ∃ t, s = '"' :: t ∧ '"' ∈ t) ∧
      ∀ m, quoted.run pos s = some m ↔ ∃ value rest, '"' ∉ value ∧
        s = '"' :: value ++ '"' :: rest ∧
        m = ⟨'"' :: value ++ ['"'], [quotedPart pos value], rest⟩) ∧
    (((∃ m, command.run pos s = some m) ↔ ∃ c t, isSpace c = false ∧ s = '/' :: c :: t) ∧
      ∀ m, command.run pos s = some m ↔ ∃ name rest, name ≠ [] ∧
        (∀ c ∈ name, isSpace c = false) ∧ (∀ c ∈ rest.head?, isSpace c = true) ∧
        s = '/' :: name ++ rest ∧ m = ⟨'/' :: name, [commandPart pos name], rest⟩) ∧
    (((∃ m, blank.run pos s = some m) ↔ ∃ c t, isSpace c = true ∧ s = c :: t) ∧
      ∀ m, blank.run pos s = some m ↔ ∃ w rest, w ≠ [] ∧ (∀ c ∈ w, isSpace c = true) ∧
        (∀ c ∈ rest.head?, isSpace c = false) ∧ s = w ++ rest ∧
        m = ⟨w, [⟨.blank, pos, w, []⟩], rest⟩) := by
  refine ⟨⟨exists_directive_run_iff.trans beginsDirective_iff, ?_⟩,
    ⟨exists_quoted_run_iff, fun _ => quoted_run_eq_some_iff⟩,
    ⟨exists_command_run_iff, fun _ => command_run_eq_some_iff⟩,
    ⟨exists_blank_run_iff, fun _ => blank_run_eq_some_iff⟩⟩
  rintro p rest hp rfl
  refine ⟨directive_run_written hp pos rest, hp.written_eq_takeWhile rest, ?_⟩
  intro q rest' hq hs
  exact (Placeholder.written_append_inj hq hp hs.symm).1

/-- The first dot ends the key, so this value begins with a dot and holds a bracket and a quote. -/
theorem rules_run_languages_dots :
    directive.run 0 "<a b..\"<c>>".toList = some ⟨"<a b..\"<c>".toList,
      [directivePart 0 ⟨"a b".toList, some ".\"<c".toList⟩], ['>']⟩ := by
  have hp : Placeholder.Writable ⟨"a b".toList, some ".\"<c".toList⟩ :=
    ⟨by simp, by simp, by simp, by simp⟩
  exact ((rules_run_languages 0 "<a b..\"<c>>".toList).1.2 _ ['>'] hp rfl).1

end Grammar

end MacroScript
