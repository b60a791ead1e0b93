import MacroScript.Proofs.Text.Runs
import MacroScript.Token.Canonical
/-
  What a text begins with, and how far more text after it can change that. A beginning stays
  (`BeginsQuoted.append`, `BeginsDirective.append`). A text that holds an end mark begins with a
  directive already if it does with more text after it (`BeginsDirective.of_append`), since a
  directive ends at the first end mark; only a quoted string can wait for its end without bound.
-/

namespace MacroScript

/-! ## Quoted strings -/

theorem BeginsQuoted.append {s : List Char} (h : BeginsQuoted s) (t : List Char) :
    BeginsQuoted (s ++ t) := by
  obtain ⟨value, rest, hvalue, rfl⟩ := h
  exact ⟨value, rest ++ t, hvalue, by simp⟩

theorem BeginsQuoted.head?_eq {s : List Char} (h : BeginsQuoted s) : s.head? = some '"' := by
  obtain ⟨value, rest, -, rfl⟩ := h
  rfl

/-- A quote begins a quoted string exactly if another quote comes later. -/
theorem beginsQuoted_cons_iff {s : List Char} : BeginsQuoted ('"' :: s) ↔ '"' ∈ s := by
  constructor
  · intro h
    obtain ⟨value, rest, -, hs⟩ := h
    rw [(List.cons.inj hs).2]
    exact List.mem_append_right _ (List.mem_cons_self ..)
  · intro h
    obtain ⟨value, rest, rfl, hvalue⟩ := List.eq_append_cons_of_mem h
    exact ⟨value, rest, hvalue, rfl⟩

/-! ## Directives -/

namespace Placeholder

theorem written_append (p : Placeholder) (rest : List Char) :
    p.written ++ rest = '<' :: (p.key ++ (p.value.elim [] ('.' :: ·) ++ '>' :: rest)) := by
  simp [written]

theorem written_ne_nil (p : Placeholder) : p.written ≠ [] := by
  simp [written]

/-- The end mark of a directive is the first one in it. -/
theorem Writable.written_eq {p : Placeholder} (hp : p.Writable) :
    ∃ inside, '>' ∉ inside ∧ p.written = inside ++ ['>'] := by
  refine ⟨'<' :: p.key ++ p.value.elim [] ('.' :: ·), ?_, rfl⟩
  have hkey : '>' ∉ p.key := fun hmem => (hp.key_chars '>' hmem).1 rfl
  have hvalue : '>' ∉ p.value.elim [] ('.' :: ·) := by
    cases h : p.value with
    | none => simp
    | some v => simpa using hp.value_chars v h
  simpa using ⟨hkey, hvalue⟩

end Placeholder

theorem BeginsDirective.append {s : List Char} (h : BeginsDirective s) (t : List Char) :
    BeginsDirective (s ++ t) := by
  obtain ⟨p, hp, rest, rfl⟩ := h
  exact ⟨p, hp, rest ++ t, by rw [List.append_assoc]⟩

theorem BeginsDirective.head?_eq {s : List Char} (h : BeginsDirective s) :
    s.head? = some '<' := by
  obtain ⟨p, -, rest, rfl⟩ := h
  rw [p.written_append]
  rfl

/-- Where an end mark stands in a text, no text after it makes a directive at its front. -/
theorem BeginsDirective.of_append {s t : List Char} (h : BeginsDirective (s ++ t))
    (hmark : '>' ∈ s) : BeginsDirective s := by
  obtain ⟨p, hp, rest, hs⟩ := h
  obtain ⟨inside, hinside, hw⟩ := hp.written_eq
  obtain ⟨u, v, rfl, hu⟩ := List.eq_append_cons_of_mem hmark
  have hcut : u ++ '>' :: (v ++ t) = inside ++ '>' :: rest := by
    rw [hw] at hs
    simpa using hs
  obtain ⟨rfl, -⟩ := append_cons_inj_of_notMem_left hu hinside hcut
  exact ⟨p, hp, v, by rw [hw]; simp⟩

/-! ## Waits -/

/-- The key that asks for a wait can be written, so only the value can be in the way. -/
theorem Placeholder.writable_wait {value : Option (List Char)} (hne : ∀ v, value = some v → v ≠ [])
    (hchars : ∀ v, value = some v → '>' ∉ v) : Writable ⟨Wait.key, value⟩ := by
  have hkey : Wait.key ≠ [] := by decide
  have hkeyChars : ∀ c ∈ Wait.key, c ≠ '>' ∧ c ≠ '.' := by simp [Wait.key]
  exact ⟨hkey, hkeyChars, hne, hchars⟩

/-- A wait is a directive with the key that asks for one. -/
theorem beginsWait_iff {s : List Char} :
    BeginsWait s ↔ ∃ value, Placeholder.Writable ⟨Wait.key, value⟩ ∧
      ∃ rest, s = Placeholder.written ⟨Wait.key, value⟩ ++ rest := by
  constructor
  · intro h
    rcases h with ⟨rest, rfl⟩ | ⟨argument, rest, hne, hchars, rfl⟩
    · exact ⟨none, Placeholder.writable_wait (by simp) (by simp), rest, rfl⟩
    · refine ⟨some argument, Placeholder.writable_wait (by simpa using hne)
        (by simpa using hchars), rest, ?_⟩
      simp [Placeholder.written, Wait.key]
  · intro h
    obtain ⟨value, hp, rest, rfl⟩ := h
    cases value with
    | none => exact Or.inl ⟨rest, rfl⟩
    | some argument =>
      refine Or.inr ⟨argument, rest, hp.value_ne_nil argument rfl, hp.value_chars argument rfl, ?_⟩
      simp [Placeholder.written, Wait.key]

theorem BeginsWait.head?_eq {s : List Char} (h : BeginsWait s) : s.head? = some '<' := by
  rcases h with ⟨rest, rfl⟩ | ⟨argument, rest, -, -, rfl⟩
  · rfl
  · rfl

/-! ## Command heads -/

theorem BeginsCommand.head?_eq {s : List Char} (h : BeginsCommand s) : s.head? = some '/' := by
  obtain ⟨c, rest, -, rfl⟩ := h
  rfl

theorem BeginsWait.not_beginsCommand {s : List Char} (h : BeginsWait s) : ¬ BeginsCommand s := by
  intro hcommand
  have hslash := hcommand.head?_eq
  rw [h.head?_eq] at hslash
  exact absurd hslash (by decide)

theorem BeginsCommand.append {s : List Char} (h : BeginsCommand s) (t : List Char) :
    BeginsCommand (s ++ t) := by
  obtain ⟨c, rest, hc, rfl⟩ := h
  exact ⟨c, rest ++ t, hc, rfl⟩

/-- Two characters decide whether a text begins with a command head. -/
theorem BeginsCommand.of_append {s t : List Char} (h : BeginsCommand (s ++ t))
    (hlen : 2 ≤ s.length) : BeginsCommand s := by
  obtain ⟨c, rest, hc, hs⟩ := h
  match s, hlen with
  | a :: b :: s, _ =>
    obtain ⟨rfl, hb⟩ := List.cons.inj hs
    obtain ⟨rfl, -⟩ := List.cons.inj hb
    exact ⟨b, s, hc, rfl⟩

/-- A text that begins with a command head is the head's name, as long as can be, and a rest. -/
theorem beginsCommand_iff {s : List Char} :
    BeginsCommand s ↔ ∃ name rest, name ≠ [] ∧ (∀ c ∈ name, isSpace c = false) ∧
      (∀ c ∈ rest.head?, isSpace c = true) ∧ s = '/' :: name ++ rest := by
  constructor
  · intro h
    obtain ⟨c, t, hc, rfl⟩ := h
    obtain ⟨u, rest, hu, hrest, rfl⟩ := exists_longest_run (fun d => !isSpace d) t
    refine ⟨c :: u, rest, List.cons_ne_nil _ _, ?_, by simpa using hrest, rfl⟩
    intro d hd
    rcases List.mem_cons.mp hd with rfl | hd
    · exact hc
    · simpa using hu d hd
  · intro h
    obtain ⟨name, rest, hne, hname, -, rfl⟩ := h
    obtain ⟨c, name, rfl⟩ := List.exists_cons_of_ne_nil hne
    exact ⟨c, name ++ rest, hname c (List.mem_cons_self ..), rfl⟩

end MacroScript
