import MacroScript.Grammar.Pattern
import MacroScript.Proofs.Text.Runs
/-
  What a match of a pattern says, one equivalence for each way to build a pattern, and the
  repetition of a pattern that takes one character at least: it goes on exactly while the
  pattern matches (`manyMatch_of_none`, `Productive.manyMatch_of_some`), whatever bound is put on
  its rounds (`Productive.iterate_eq_manyMatch`).
-/

namespace MacroScript.Pattern

variable {a b : Pattern} {p : Char → Bool} {w : List Char} {r : Rule} {pos : Nat}
  {s : List Char} {m : Match}

/-! ## Matches by pattern -/

theorem run_one_eq_some_iff :
    (one p).run pos s = some m ↔ ∃ c rest, p c = true ∧ s = c :: rest ∧ m = ⟨[c], [], rest⟩ := by
  cases s with
  | nil => simp [run]
  | cons c s =>
    rw [run]
    constructor
    · intro h
      split at h
      · next hc =>
        cases h
        exact ⟨c, s, hc, rfl, rfl⟩
      · cases h
    · intro h
      obtain ⟨_, _, hc, hs, rfl⟩ := h
      cases hs
      rw [if_pos hc]

/-- The longest run is the one after which no character of the class follows. -/
theorem run_span_eq_some_iff :
    (span p).run pos s = some m ↔ ∃ u rest, (∀ c ∈ u, p c = true) ∧
      (∀ c ∈ rest.head?, p c = false) ∧ s = u ++ rest ∧ m = ⟨u, [], rest⟩ := by
  rw [run, Option.some.injEq]
  constructor
  · intro h
    obtain ⟨u, rest, hu, hrest, rfl⟩ := exists_longest_run p s
    rw [takeWhile_append_of_stop hu hrest, dropWhile_append_of_stop hu hrest] at h
    exact ⟨u, rest, hu, hrest, rfl, h.symm⟩
  · intro h
    obtain ⟨u, rest, hu, hrest, rfl, rfl⟩ := h
    rw [takeWhile_append_of_stop hu hrest, dropWhile_append_of_stop hu hrest]

theorem run_word_eq_some_iff :
    (word w).run pos s = some m ↔ ∃ rest, s = w ++ rest ∧ m = ⟨w, [], rest⟩ := by
  rw [run]
  constructor
  · intro h
    split at h
    · next hw =>
      cases h
      obtain ⟨rest, rfl⟩ := List.isPrefixOf_iff_prefix.mp hw
      exact ⟨rest, rfl, by rw [List.drop_left]⟩
    · cases h
  · intro h
    obtain ⟨rest, rfl, rfl⟩ := h
    rw [if_pos (List.isPrefixOf_iff_prefix.mpr ⟨rest, rfl⟩), List.drop_left]

theorem run_seq_eq_some_iff :
    (seq a b).run pos s = some m ↔ ∃ m₁ m₂, a.run pos s = some m₁ ∧
      b.run (pos + byteSize m₁.taken) m₁.rest = some m₂ ∧ m = m₁.append m₂ := by
  rw [run]
  constructor
  · intro h
    split at h
    · cases h
    · next m₁ ha =>
      obtain ⟨m₂, hb, rfl⟩ := Option.map_eq_some_iff.mp h
      exact ⟨m₁, m₂, ha, hb, rfl⟩
  · intro h
    obtain ⟨m₁, m₂, ha, hb, rfl⟩ := h
    rw [ha]
    exact Option.map_eq_some_iff.mpr ⟨m₂, hb, rfl⟩

theorem run_alt_eq_some_iff :
    (alt a b).run pos s = some m ↔
      a.run pos s = some m ∨ a.run pos s = none ∧ b.run pos s = some m := by
  rw [run]
  exact Option.or_eq_some_iff

theorem run_opt_eq_some_iff :
    (opt a).run pos s = some m ↔
      a.run pos s = some m ∨ a.run pos s = none ∧ m = .empty s := by
  have h : (opt a).run pos s = some ((a.run pos s).getD (.empty s)) := by rw [run]
  rw [h, Option.some.injEq]
  cases a.run pos s with
  | none => simp [eq_comm]
  | some n => simp

theorem run_part_eq_some_iff :
    (part r a).run pos s = some m ↔
      ∃ n, a.run pos s = some n ∧ m = ⟨n.taken, [⟨r, pos, n.taken, n.parts⟩], n.rest⟩ := by
  rw [run, Option.map_eq_some_iff]
  exact exists_congr fun n => and_congr_right fun _ => eq_comm

theorem run_span1_eq_some_iff :
    (span1 p).run pos s = some m ↔ ∃ u rest, u ≠ [] ∧ (∀ c ∈ u, p c = true) ∧
      (∀ c ∈ rest.head?, p c = false) ∧ s = u ++ rest ∧ m = ⟨u, [], rest⟩ := by
  rw [span1, run_seq_eq_some_iff]
  constructor
  · intro h
    obtain ⟨m₁, m₂, h₁, h₂, rfl⟩ := h
    obtain ⟨c, s', hc, rfl, rfl⟩ := run_one_eq_some_iff.mp h₁
    obtain ⟨u, rest, hu, hrest, rfl, rfl⟩ := run_span_eq_some_iff.mp h₂
    exact ⟨c :: u, rest, by simp, by simpa using ⟨hc, hu⟩, hrest, rfl, rfl⟩
  · intro h
    obtain ⟨u, rest, hne, hu, hrest, rfl, rfl⟩ := h
    obtain ⟨c, u, rfl⟩ := List.exists_cons_of_ne_nil hne
    rw [List.forall_mem_cons] at hu
    have hone : (one p).run pos (c :: (u ++ rest)) = some ⟨[c], [], u ++ rest⟩ :=
      run_one_eq_some_iff.mpr ⟨c, u ++ rest, hu.1, rfl, rfl⟩
    have hspan : (span p).run (pos + byteSize [c]) (u ++ rest) = some ⟨u, [], rest⟩ :=
      run_span_eq_some_iff.mpr ⟨u, rest, hu.2, hrest, rfl, rfl⟩
    exact ⟨_, _, hone, hspan, rfl⟩

/-! ## Two shapes of the rules -/

theorem run_word_seq_eq_some_iff :
    (seq (word w) b).run pos s = some m ↔ ∃ rest n, s = w ++ rest ∧
      b.run (pos + byteSize w) rest = some n ∧ m = ⟨w ++ n.taken, n.parts, n.rest⟩ := by
  rw [run_seq_eq_some_iff]
  constructor
  · intro h
    obtain ⟨_, n, hword, hb, rfl⟩ := h
    obtain ⟨rest, rfl, rfl⟩ := run_word_eq_some_iff.mp hword
    exact ⟨rest, n, rfl, hb, rfl⟩
  · intro h
    obtain ⟨rest, n, rfl, hb, rfl⟩ := h
    have hword : (word w).run pos (w ++ rest) = some ⟨w, [], rest⟩ :=
      run_word_eq_some_iff.mpr ⟨rest, rfl, rfl⟩
    exact ⟨_, n, hword, hb, rfl⟩

theorem run_part_span1_eq_some_iff :
    (part r (span1 p)).run pos s = some m ↔ ∃ u rest, u ≠ [] ∧ (∀ c ∈ u, p c = true) ∧
      (∀ c ∈ rest.head?, p c = false) ∧ s = u ++ rest ∧ m = ⟨u, [⟨r, pos, u, []⟩], rest⟩ := by
  rw [run_part_eq_some_iff]
  constructor
  · intro h
    obtain ⟨_, hspan, rfl⟩ := h
    obtain ⟨u, rest, hne, hu, hrest, rfl, rfl⟩ := run_span1_eq_some_iff.mp hspan
    exact ⟨u, rest, hne, hu, hrest, rfl, rfl⟩
  · intro h
    obtain ⟨u, rest, hne, hu, hrest, rfl, rfl⟩ := h
    have hspan : (span1 p).run pos (u ++ rest) = some ⟨u, [], rest⟩ :=
      run_span1_eq_some_iff.mpr ⟨u, rest, hne, hu, hrest, rfl, rfl⟩
    exact ⟨_, hspan, rfl⟩

/-! ## Repetition -/

/-- The match of a pattern as often as it matches. -/
def manyMatch (a : Pattern) (pos : Nat) (s : List Char) : Match :=
  iterate (fun pos s => a.run pos s) s.length pos s

theorem run_many : (many a).run pos s = some (a.manyMatch pos s) := rfl

/-- No match of the pattern is empty. -/
def Productive (a : Pattern) : Prop :=
  ∀ pos s m, a.run pos s = some m → m.taken ≠ []

theorem Productive.length_rest_lt (ha : a.Productive) (h : a.run pos s = some m) :
    m.rest.length < s.length := by
  have hpos : 0 < m.taken.length := List.length_pos_iff.mpr (ha pos s m h)
  rw [← run_taken_append_rest h, List.length_append]
  omega

theorem Productive.run_nil (ha : a.Productive) : a.run pos [] = none := by
  cases h : a.run pos [] with
  | none => rfl
  | some m => exact absurd (ha.length_rest_lt h) (Nat.not_lt_zero _)

/-- Two bounds that both leave room for the whole text make no difference. -/
theorem Productive.iterate_congr (ha : a.Productive) (n k : Nat) (pos : Nat) (s : List Char)
    (hn : s.length ≤ n) (hk : s.length ≤ k) :
    iterate (fun pos s => a.run pos s) n pos s = iterate (fun pos s => a.run pos s) k pos s := by
  -- every round takes a character, so room for the rest remains on both sides
  induction n generalizing k pos s with
  | zero =>
    obtain rfl : s = [] := List.length_eq_zero_iff.mp (Nat.le_zero.mp hn)
    cases k with
    | zero => rfl
    | succ k => rw [iterate, iterate, ha.run_nil]
  | succ n ih =>
    cases k with
    | zero =>
      obtain rfl : s = [] := List.length_eq_zero_iff.mp (Nat.le_zero.mp hk)
      rw [iterate, iterate, ha.run_nil]
    | succ k =>
      rw [iterate, iterate]
      cases h : a.run pos s with
      | none => rfl
      | some m =>
        have hlt := ha.length_rest_lt h
        dsimp only
        rw [ih k _ m.rest (by omega) (by omega)]

theorem Productive.iterate_eq_manyMatch (ha : a.Productive) {n : Nat} (hn : s.length ≤ n) :
    iterate (fun pos s => a.run pos s) n pos s = a.manyMatch pos s :=
  ha.iterate_congr n s.length pos s hn (Nat.le_refl _)

theorem manyMatch_of_none (h : a.run pos s = none) : a.manyMatch pos s = .empty s := by
  unfold manyMatch
  cases s.length with
  | zero => rfl
  | succ n => rw [iterate, h]

theorem Productive.manyMatch_of_some (ha : a.Productive) (h : a.run pos s = some m) :
    a.manyMatch pos s = m.append (a.manyMatch (pos + byteSize m.taken) m.rest) := by
  have hlt := ha.length_rest_lt h
  obtain ⟨n, hn⟩ : ∃ n, s.length = n + 1 := ⟨s.length - 1, by omega⟩
  rw [manyMatch, hn, iterate, h]
  dsimp only
  rw [ha.iterate_eq_manyMatch (by omega)]

/-- A repetition ends where the pattern does not match, and else goes on after a match. -/
theorem Productive.manyMatch_induction (ha : a.Productive)
    {motive : Nat → List Char → Match → Prop}
    (stops : ∀ pos s, a.run pos s = none → motive pos s (.empty s))
    (goes : ∀ pos s m n, a.run pos s = some m →
      motive (pos + byteSize m.taken) m.rest n → motive pos s (m.append n))
    (pos : Nat) (s : List Char) : motive pos s (a.manyMatch pos s) := by
  generalize hn : s.length = n
  induction n using Nat.strongRecOn generalizing pos s with
  | ind n ih =>
    cases h : a.run pos s with
    | none =>
      rw [manyMatch_of_none h]
      exact stops pos s h
    | some m =>
      have hlt := ha.length_rest_lt h
      rw [ha.manyMatch_of_some h]
      exact goes pos s m _ h (ih m.rest.length (by omega) _ m.rest rfl)

/-- What is left after a repetition is a text on which the pattern does not match. -/
theorem Productive.run_rest_manyMatch (ha : a.Productive) (pos : Nat) (s : List Char) :
    ∃ pos', a.run pos' (a.manyMatch pos s).rest = none := by
  induction pos, s using ha.manyMatch_induction with
  | stops pos s h => exact ⟨pos, h⟩
  | goes pos s m n _ ih => exact ih

end MacroScript.Pattern
