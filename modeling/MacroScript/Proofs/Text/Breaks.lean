import Mathlib.Logic.ExistsUnique
import MacroScript.Proofs.Text.Lines
/-
  Lines and the breaks between them. A text is lines with a break after each but the last, and
  it is so in one way only, as long as no line that ends in a carriage return stands before a
  bare line feed: that carriage return would belong to the break. Main statement:
  `Lines.split_inverts_join`.
-/

namespace MacroScript.Lines

variable {s line first : List Char} {rest : List (Break × List Char)}

instance (br : Break) (a : List Char) : Decidable (br.Fits a) :=
  inferInstanceAs (Decidable (_ → _))

/-- Each line may stand before the break after it. -/
def Fitting : List Char → List (Break × List Char) → Prop
  | _, [] => True
  | line, (br, next) :: rest => br.Fits line ∧ Fitting next rest

instance decFitting : (first : List Char) → (rest : List (Break × List Char)) →
    Decidable (Fitting first rest)
  | _, [] => isTrue trivial
  | _, (_, next) :: rest =>
    @instDecidableAnd _ _ (inferInstanceAs (Decidable (Break.Fits _ _))) (decFitting next rest)

/-! ## Lines hold no line feed -/

theorem feed_notMem_of_mem_split (h : line ∈ split s) : '\n' ∉ line := by
  fun_induction split s generalizing line with
  | case1 =>
    rw [List.mem_singleton.mp h]
    exact List.not_mem_nil
  | case2 s ih | case3 s ih =>
    rcases List.mem_cons.mp h with rfl | h
    · exact List.not_mem_nil
    · exact ih h
  | case4 c s hfeed _ ih =>
    obtain ⟨l, ls, hs⟩ := List.exists_cons_of_ne_nil (split_ne_nil s)
    rw [hs] at h ih
    rcases List.mem_cons.mp h with rfl | h
    · rw [List.mem_cons, not_or]
      exact ⟨fun hc => hfeed hc.symm, ih (List.mem_cons_self ..)⟩
    · exact ih (List.mem_cons_of_mem l h)

theorem split_of_feed_notMem (h : '\n' ∉ s) : split s = [s] := by
  induction s with
  | nil => rfl
  | cons c s ih =>
    rw [List.mem_cons, not_or] at h
    have hhead : c = '\r' → s.head? ≠ some '\n' := fun _ hs => h.2 (List.mem_of_head? hs)
    rw [split_cons (Ne.symm h.1) hhead, ih h.2]
    rfl

/-! ## Lines of joined lines -/

/-- Lines that fit their breaks are found again, one break at a time. -/
theorem split_join (hfirst : '\n' ∉ first) (hrest : ∀ next ∈ rest, '\n' ∉ next.2)
    (hfit : Fitting first rest) : split (join first rest) = first :: rest.map Prod.snd := by
  induction rest generalizing first with
  | nil => exact split_of_feed_notMem hfirst
  | cons next rest ih =>
    obtain ⟨br, line⟩ := next
    rw [List.forall_mem_cons] at hrest
    have hlines : split (join line rest) = line :: rest.map Prod.snd :=
      ih hrest.1 hrest.2 hfit.2
    rw [join, List.append_assoc, split_append_break hfit.1, split_of_feed_notMem hfirst, hlines]
    rfl

/-! ## Breaks of a text -/

theorem join_cons (c : Char) (first : List Char) (rest : List (Break × List Char)) :
    join (c :: first) rest = c :: join first rest := by
  cases rest with
  | nil => rfl
  | cons next rest => rfl

/-- A character in front of the first line keeps the lines fitting, unless it is a carriage return
that comes to stand right before a line feed. -/
theorem Fitting.cons {c : Char} (h : Fitting first rest)
    (hc : c = '\r' → (join first rest).head? ≠ some '\n') : Fitting (c :: first) rest := by
  cases rest with
  | nil => trivial
  | cons next rest =>
    obtain ⟨br, line⟩ := next
    refine ⟨?_, h.2⟩
    intro hbr
    cases first with
    | nil =>
      intro hlast
      exact hc (Option.some.inj hlast) (by rw [hbr]; rfl)
    | cons d first =>
      rw [List.getLast?_cons_cons]
      exact h.1 hbr

/-- Every text is its lines with some breaks that they fit. -/
theorem exists_join (s : List Char) : ∃ first rest, join first rest = s ∧ Fitting first rest ∧
    split s = first :: rest.map Prod.snd := by
  fun_induction split s with
  | case1 => exact ⟨[], [], rfl, trivial, rfl⟩
  | case2 s ih =>
    obtain ⟨first, rest, rfl, hfit, hsplit⟩ := ih
    exact ⟨[], (.feed, first) :: rest, rfl, ⟨by decide, hfit⟩, by rw [hsplit]; rfl⟩
  | case3 s ih =>
    obtain ⟨first, rest, rfl, hfit, hsplit⟩ := ih
    exact ⟨[], (.returnFeed, first) :: rest, rfl, ⟨by decide, hfit⟩, by rw [hsplit]; rfl⟩
  | case4 c s _ hreturn ih =>
    obtain ⟨first, rest, rfl, hfit, hsplit⟩ := ih
    -- this character is no carriage return of a break, which the case before has taken
    have hhead : c = '\r' → (join first rest).head? ≠ some '\n' := by
      intro hc hs
      obtain ⟨t, ht⟩ := List.head?_eq_some_iff.mp hs
      exact hreturn t hc ht
    exact ⟨c :: first, rest, join_cons c first rest, hfit.cons hhead, by rw [hsplit]; rfl⟩

/-- A break is told by its first character. -/
theorem Break.append_inj {br br' : Break} {a b : List Char} (h : br.text ++ a = br'.text ++ b) :
    br = br' ∧ a = b := by
  cases br with
  | feed =>
    cases br' with
    | feed => exact ⟨rfl, List.append_cancel_left h⟩
    | returnFeed => exact absurd (List.cons.inj h).1 (by decide)
  | returnFeed =>
    cases br' with
    | feed => exact absurd (List.cons.inj h).1 (by decide)
    | returnFeed => exact ⟨rfl, List.append_cancel_left h⟩

/-- The text and its lines leave no choice of breaks. -/
theorem breaks_inj {lines : List (List Char)} {brs brs' : List Break}
    (hlen : brs.length = lines.length) (hlen' : brs'.length = lines.length)
    (h : join first (brs.zip lines) = join first (brs'.zip lines)) : brs = brs' := by
  induction lines generalizing first brs brs' with
  | nil => rw [List.length_eq_zero_iff.mp hlen, List.length_eq_zero_iff.mp hlen']
  | cons line lines ih =>
    obtain ⟨br, brs, rfl⟩ := List.exists_cons_of_length_eq_add_one hlen
    obtain ⟨br', brs', rfl⟩ := List.exists_cons_of_length_eq_add_one hlen'
    rw [List.zip_cons_cons, List.zip_cons_cons, join, join, List.append_assoc, List.append_assoc]
      at h
    obtain ⟨rfl, hnext⟩ := Break.append_inj (List.append_cancel_left h)
    rw [ih (Nat.succ.inj hlen) (Nat.succ.inj hlen') hnext]

/-! ## Texts and lines -/

/-- **A text is its lines and its breaks.** Splitting gives one line more than there are line
feeds, and no line holds one. There is exactly one choice of breaks between these lines that they
fit and that puts the text together again. The other way round, any lines without line feeds, put
together with breaks that they fit, are the lines of the text that results. -/
theorem split_inverts_join :
    (∀ s, ∃ first rest, split s = first :: rest ∧ rest.length = s.count '\n' ∧
      (∀ line ∈ first :: rest, '\n' ∉ line) ∧
      ∃! brs : List Break, brs.length = rest.length ∧
        join first (brs.zip rest) = s ∧ Fitting first (brs.zip rest)) ∧
    ∀ (first : List Char) (rest : List (Break × List Char)), '\n' ∉ first →
      (∀ next ∈ rest, '\n' ∉ next.2) → Fitting first rest →
        split (join first rest) = first :: rest.map Prod.snd := by
  refine ⟨?_, fun first rest hfirst hrest hfit => split_join hfirst hrest hfit⟩
  intro s
  obtain ⟨first, rest, hjoin, hfit, hsplit⟩ := exists_join s
  have hlen : (first :: rest.map Prod.snd).length = s.count '\n' + 1 := by
    rw [← hsplit, length_split]
  have hzip : (rest.map Prod.fst).zip (rest.map Prod.snd) = rest := (List.zip_of_prod rfl rfl).symm
  have hbreaks : (rest.map Prod.fst).length = (rest.map Prod.snd).length := by
    rw [List.length_map, List.length_map]
  refine ⟨first, rest.map Prod.snd, hsplit, Nat.succ.inj hlen, ?_, rest.map Prod.fst, ?_, ?_⟩
  · intro line hline
    exact feed_notMem_of_mem_split (hsplit ▸ hline)
  · exact ⟨hbreaks, by rw [hzip, hjoin], by rw [hzip]; exact hfit⟩
  · intro brs hbrs
    obtain ⟨hlength, htext, -⟩ := hbrs
    have hsame : join first (brs.zip (rest.map Prod.snd)) =
        join first ((rest.map Prod.fst).zip (rest.map Prod.snd)) := by
      rw [htext, hzip, hjoin]
    exact breaks_inj hlength hbreaks hsame

/-- One of two carriage returns stays in its line, and so does the last one. -/
theorem split_inverts_join_returns :
    Fitting "a\r".toList [(.returnFeed, []), (.feed, ['\r'])] ∧
    split "a\r\r\n\n\r".toList = ["a\r".toList, [], ['\r']] := by
  have hfit : Fitting "a\r".toList [(.returnFeed, []), (.feed, ['\r'])] := by decide
  exact ⟨hfit, split_inverts_join.2 "a\r".toList _ (by decide) (by decide) hfit⟩

end MacroScript.Lines
