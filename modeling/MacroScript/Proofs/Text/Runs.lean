import MacroScript.Text.Basic
/-
  Runs of characters at the front of a text. The longest run of a class is the one after which
  no character of the class follows, and a text is cut at its first mark in one way only. A list
  of anything else has longest runs too.
-/

namespace MacroScript

variable {p : Char → Bool} {u v rest : List Char}

/-! ## Longest runs -/

theorem takeWhile_append_of_stop (hu : ∀ c ∈ u, p c = true)
    (hrest : ∀ c ∈ rest.head?, p c = false) : (u ++ rest).takeWhile p = u := by
  rw [List.takeWhile_append_of_pos hu]
  cases rest with
  | nil => simp
  | cons c rest => rw [List.takeWhile_cons_of_neg (by simp [hrest c rfl]), List.append_nil]

theorem dropWhile_append_of_stop (hu : ∀ c ∈ u, p c = true)
    (hrest : ∀ c ∈ rest.head?, p c = false) : (u ++ rest).dropWhile p = rest := by
  rw [List.dropWhile_append_of_pos hu]
  cases rest with
  | nil => rfl
  | cons c rest => rw [List.dropWhile_cons_of_neg (by simp [hrest c rfl])]

theorem exists_longest_run {α : Type} (p : α → Bool) (s : List α) :
    ∃ u rest, (∀ c ∈ u, p c = true) ∧ (∀ c ∈ rest.head?, p c = false) ∧ s = u ++ rest := by
  refine ⟨s.takeWhile p, s.dropWhile p, ?_, ?_, List.takeWhile_append_dropWhile.symm⟩
  · intro c hc
    exact List.all_eq_true.mp List.all_takeWhile c hc
  · intro c hc
    have hstop := List.head?_dropWhile_not p s
    rw [hc] at hstop
    simpa using hstop

/-! ## First marks -/

theorem forall_ne_iff_notMem {d : Char} : (∀ c ∈ u, (c != d) = true) ↔ d ∉ u := by
  constructor
  · intro h hmem
    simpa using h d hmem
  · intro h c hc
    simpa using fun he : c = d => h (he ▸ hc)

/-- Two cuts of a text after its longest run are the same. -/
theorem append_inj_of_stop {u' rest' : List Char} (hu : ∀ c ∈ u, p c = true)
    (hrest : ∀ c ∈ rest.head?, p c = false) (hu' : ∀ c ∈ u', p c = true)
    (hrest' : ∀ c ∈ rest'.head?, p c = false) (h : u ++ rest = u' ++ rest') :
    u = u' ∧ rest = rest' := by
  have htake := congrArg (List.takeWhile p) h
  have hdrop := congrArg (List.dropWhile p) h
  rw [takeWhile_append_of_stop hu hrest, takeWhile_append_of_stop hu' hrest'] at htake
  rw [dropWhile_append_of_stop hu hrest, dropWhile_append_of_stop hu' hrest'] at hdrop
  exact ⟨htake, hdrop⟩

/-- Two cuts of a text at its first mark are the same. -/
theorem append_cons_inj_of_notMem_left {d : Char} {u' v' : List Char} (hu : d ∉ u) (hu' : d ∉ u')
    (h : u ++ d :: v = u' ++ d :: v') : u = u' ∧ v = v' := by
  have hstop : ∀ t : List Char, ∀ c ∈ (d :: t).head?, (c != d) = false := by simp
  obtain ⟨hleft, hright⟩ := append_inj_of_stop (forall_ne_iff_notMem.mpr hu) (hstop v)
    (forall_ne_iff_notMem.mpr hu') (hstop v') h
  exact ⟨hleft, (List.cons.inj hright).2⟩

end MacroScript
