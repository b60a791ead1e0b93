import MacroScript.Text.Basic
import MacroScript.Text.Lines
/-
  The lines of a text that is put together from two. A break between them ends a line, so the
  lines are those of the first text and then those of the second (`split_append_break`). A bare
  line feed after a carriage return is the one exception: both then are one break. From this,
  where each line stands in the text (`exists_append_of_getElem?`).
-/

namespace MacroScript.Lines

variable {s line : List Char} {k : Nat}

/-! ## Lines one character at a time -/

theorem split_cons {c : Char} (hc : c ≠ '\n') (hreturn : c = '\r' → s.head? ≠ some '\n') :
    split (c :: s) = (split s).modifyHead (c :: ·) := by
  refine split.eq_4 c s hc ?_
  intro t hr hs
  exact hreturn hr (by rw [hs]; rfl)

/-- A text has one line more than line feeds. -/
theorem length_split (s : List Char) : (split s).length = s.count '\n' + 1 := by
  fun_induction split s with
  | case1 => rfl
  | case2 s ih => rw [List.length_cons, ih, List.count_cons_self]
  | case3 s ih =>
    rw [List.length_cons, ih, List.count_cons_of_ne (by decide), List.count_cons_self]
  | case4 c s hfeed _ ih =>
    have hc : c ≠ '\n' := fun hc => hfeed hc
    rw [List.length_modifyHead, ih, List.count_cons_of_ne hc]

/-- The first line is the front of the text. -/
theorem exists_append_of_head?_split (h : (split s).head? = some line) :
    ∃ after, s = line ++ after := by
  fun_induction split s generalizing line with
  | case1 =>
    obtain rfl := Option.some.inj h
    exact ⟨[], rfl⟩
  | case2 s _ =>
    obtain rfl := Option.some.inj h
    exact ⟨'\n' :: s, rfl⟩
  | case3 s _ =>
    obtain rfl := Option.some.inj h
    exact ⟨'\r' :: '\n' :: s, rfl⟩
  | case4 c s _ _ ih =>
    rw [List.head?_modifyHead] at h
    obtain ⟨l, hl, rfl⟩ := Option.map_eq_some_iff.mp h
    obtain ⟨after, rfl⟩ := ih hl
    exact ⟨after, rfl⟩

/-! ## Lines of two texts -/

theorem modifyHead_append {f : List Char → List Char} {xs : List (List Char)} (hxs : xs ≠ [])
    (ys : List (List Char)) : (xs ++ ys).modifyHead f = xs.modifyHead f ++ ys := by
  obtain ⟨x, xs, rfl⟩ := List.exists_cons_of_ne_nil hxs
  rfl

/-- The text may stand before the break: no carriage return of it would join a bare line feed. -/
def Break.Fits (br : Break) (a : List Char) : Prop := br = .feed → a.getLast? ≠ some '\r'

theorem Break.fits_returnFeed (a : List Char) : Break.returnFeed.Fits a := by
  intro h
  cases h

theorem Break.Fits.tail {br : Break} {c : Char} {a : List Char} (h : br.Fits (c :: a)) :
    br.Fits a := by
  intro hbr hlast
  exact h hbr (by rw [List.getLast?_cons, hlast]; rfl)

theorem split_append_break {br : Break} {a : List Char} (h : br.Fits a) (b : List Char) :
    split (a ++ (br.text ++ b)) = split a ++ split b := by
  fun_induction split a with
  | case1 =>
    cases br with
    | feed => rfl
    | returnFeed => rfl
  | case2 a ih => exact congrArg (List.cons []) (ih h.tail)
  | case3 a ih => exact congrArg (List.cons []) (ih h.tail.tail)
  | case4 c a hfeed hreturn ih =>
    have hhead : c = '\r' → (a ++ (br.text ++ b)).head? ≠ some '\n' := by
      intro hc
      cases a with
      | nil =>
        cases br with
        | feed => exact absurd (by rw [hc]; rfl) (h rfl)
        | returnFeed => simp [Break.text]
      | cons d a =>
        intro hd
        exact hreturn a hc (by rw [Option.some.inj hd])
    rw [List.cons_append, split_cons (fun hc => hfeed hc) hhead, ih h.tail,
      modifyHead_append (split_ne_nil a)]

/-- Whatever stands before a line feed, the lines after it are those of the text after it. -/
theorem exists_split_append_feed (a b : List Char) : ∃ lines,
    split (a ++ '\n' :: b) = lines ++ split b ∧ lines.length = a.count '\n' + 1 := by
  by_cases ha : a.getLast? = some '\r'
  · obtain ⟨a', rfl⟩ := List.getLast?_eq_some_iff.mp ha
    have hsplit := split_append_break (Break.fits_returnFeed a') b
    refine ⟨split a', ?_, ?_⟩
    · rw [← hsplit, List.append_assoc]
      rfl
    · rw [length_split, List.count_append]
      rfl
  · have hfits : Break.feed.Fits a := fun _ => ha
    exact ⟨split a, split_append_break hfits b, length_split a⟩

/-! ## Positions of lines -/

theorem start_append_feed (a b : List Char) :
    start (a ++ '\n' :: b) (a.count '\n' + 1) = byteSize a + 1 := by
  induction a with
  | nil => rw [List.nil_append, List.count_nil, start, if_pos rfl, start_zero]; rfl
  | cons c a ih =>
    by_cases hc : c = '\n'
    · rw [hc, List.cons_append, List.count_cons_self, start, if_pos rfl, ih, byteSize_cons]
      omega
    · rw [List.cons_append, List.count_cons_of_ne hc, start, if_neg hc, ih, byteSize_cons]
      omega

/-- The lines from a line feed on, and where they start. -/
theorem getElem?_split_after_feed (a b : List Char) :
    (split (a ++ '\n' :: b))[a.count '\n' + 1]? = (split b).head? := by
  obtain ⟨lines, hsplit, hlen⟩ := exists_split_append_feed a b
  rw [hsplit, List.getElem?_append_right (Nat.le_of_eq hlen), hlen, Nat.sub_self,
    List.head?_eq_getElem?]

theorem exists_append_cons_of_lt_count {d : Char} (h : k < s.count d) :
    ∃ a b, s = a ++ d :: b ∧ a.count d = k := by
  induction s generalizing k with
  | nil => exact absurd h (Nat.not_lt_zero k)
  | cons c s ih =>
    by_cases hc : c = d
    · subst hc
      cases k with
      | zero => exact ⟨[], s, rfl, rfl⟩
      | succ k =>
        rw [List.count_cons_self] at h
        obtain ⟨a, b, rfl, hcount⟩ := ih (Nat.lt_of_succ_lt_succ h)
        exact ⟨c :: a, b, rfl, by rw [List.count_cons_self, hcount]⟩
    · rw [List.count_cons_of_ne hc] at h
      obtain ⟨a, b, rfl, hcount⟩ := ih h
      exact ⟨c :: a, b, rfl, by rw [List.count_cons_of_ne hc, hcount]⟩

/-- Every line stands in the text at its start, at the front or right after a line feed. -/
theorem exists_append_of_getElem? (h : (split s)[k]? = some line) :
    ∃ before after, s = before ++ (line ++ after) ∧ byteSize before = start s k ∧
      ∀ c ∈ before.getLast?, c = '\n' := by
  cases k with
  | zero =>
    rw [← List.head?_eq_getElem?] at h
    obtain ⟨after, rfl⟩ := exists_append_of_head?_split h
    exact ⟨[], after, rfl, (start_zero _).symm, by simp⟩
  | succ k =>
    have hlt : k + 1 < s.count '\n' + 1 := by
      rw [← length_split]
      exact (List.getElem?_eq_some_iff.mp h).1
    obtain ⟨a, b, rfl, rfl⟩ := exists_append_cons_of_lt_count (Nat.lt_of_succ_lt_succ hlt)
    rw [getElem?_split_after_feed] at h
    obtain ⟨after, rfl⟩ := exists_append_of_head?_split h
    refine ⟨a ++ ['\n'], after, by simp, ?_, by simp⟩
    rw [start_append_feed, byteSize_append]
    rfl

/-- What stands at the front of a text or right after a line feed begins a line. -/
theorem exists_getElem?_split {before : List Char} (hbefore : ∀ c ∈ before.getLast?, c = '\n')
    (after : List Char) : ∃ k,
    start (before ++ after) k = byteSize before ∧
      (split (before ++ after))[k]? = (split after).head? := by
  cases hlast : before.getLast? with
  | none =>
    obtain rfl := List.getLast?_eq_none_iff.mp hlast
    exact ⟨0, start_zero _, List.head?_eq_getElem?.symm⟩
  | some c =>
    obtain rfl := hbefore c hlast
    obtain ⟨a, rfl⟩ := List.getLast?_eq_some_iff.mp hlast
    rw [List.append_assoc, List.singleton_append]
    refine ⟨a.count '\n' + 1, ?_, getElem?_split_after_feed a after⟩
    rw [start_append_feed, byteSize_append]
    rfl

end MacroScript.Lines
