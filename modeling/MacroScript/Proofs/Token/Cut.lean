import MacroScript.Proofs.Token.Canonical
/-
  Readings cut between two tokens. What stands behind a cut may be replaced where that makes no
  quoted string and no directive begin in the bare text before it (`Reads.replace`); so the
  tokens before a cut are the reading of their own text (`Reads.append_left`), and those after it
  too, unless their text would now begin with a command head (`Reads.drop`). Main statement:
  `ofLine_cut`.
-/

namespace MacroScript.Token

variable {ts us vs : List Token}

/-- No quoted string and no directive begins in a bare token of `ts` when `vs` comes after `ts`
that would not begin there when `us` does. -/
def KeepsBare (ts us vs : List Token) : Prop :=
  ∀ t ∈ ts, t.IsBare → ∀ c ∈ t.raw, ∀ x,
    (BeginsQuoted (c :: x ++ raws vs) → BeginsQuoted (c :: x ++ raws us)) ∧
    (BeginsDirective (c :: x ++ raws vs) → BeginsDirective (c :: x ++ raws us))

theorem head?_append_of_head? (hhead : ∀ v ∈ vs.head?, v ∈ us.head?) :
    ∀ t ∈ (ts ++ vs).head?, t ∈ (ts ++ us).head? := by
  cases ts with
  | nil => exact hhead
  | cons t ts => exact fun _ ht => ht

theorem KeepsBare.tail {t : Token} (h : KeepsBare (t :: ts) us vs) : KeepsBare ts us vs :=
  fun u hu => h u (List.mem_cons_of_mem t hu)

theorem KeepsBare.staysBare {t : Token} (hkeep : KeepsBare (t :: ts) us vs) (hb : t.IsBare)
    (h : StaysBare t.raw (raws (ts ++ us))) : StaysBare t.raw (raws ts ++ raws vs) := by
  intro x c y hraw
  obtain ⟨hc, hq, hd⟩ := h x c y hraw
  have hmem : c ∈ t.raw := by rw [hraw]; exact List.mem_append_right x (List.mem_cons_self ..)
  obtain ⟨hq', hd'⟩ := hkeep t (List.mem_cons_self ..) hb c hmem (y ++ raws ts)
  rw [raws_append] at hq hd
  refine ⟨hc, fun hbegins => hq ?_, fun hbegins => hd ?_⟩
  · simpa using hq' (by simpa using hbegins)
  · simpa using hd' (by simpa using hbegins)

theorem ReadsRest.replace {s : List Char} (h : ReadsRest s (ts ++ us))
    (hvs : ReadsRest (raws vs) vs) (hhead : ∀ v ∈ vs.head?, v ∈ us.head?)
    (hkeep : KeepsBare ts us vs) : ReadsRest (raws ts ++ raws vs) (ts ++ vs) := by
  induction ts generalizing s with
  | nil => exact hvs
  | cons t ts ih =>
    have hrest := ih h.tail hkeep.tail
    rw [raws_cons, List.append_assoc]
    exact hrest.cons (h.wellFormed t (List.mem_cons_self ..))
      (h.kind_ne_command t (List.mem_cons_self ..))
      (fun u hu => h.separated.1 u (head?_append_of_head? hhead u hu))
      (fun hb => hkeep.staysBare hb (h.staysBare hb))

/-- Two characters decide whether a text begins with a command head, and two tokens hold two. -/
theorem beginsCommand_of_head? {t : Token} (ht : t.raw ≠ []) (hus : ∀ u ∈ us, u.raw ≠ [])
    (hhead : ∀ u ∈ us.head?, u ∈ ts.head?) (h : BeginsCommand (t.raw ++ raws us)) :
    BeginsCommand (t.raw ++ raws ts) := by
  cases us with
  | nil =>
    rw [raws_nil, List.append_nil] at h
    exact h.append (raws ts)
  | cons u us =>
    obtain ⟨ts, rfl⟩ : ∃ ts', ts = u :: ts' := by
      cases ts with
      | nil => exact absurd (hhead u rfl) (by simp)
      | cons t' ts =>
        obtain rfl : t' = u := Option.some.inj (hhead u rfl)
        exact ⟨ts, rfl⟩
    have hlen : 2 ≤ (t.raw ++ u.raw).length := by
      have h₁ := List.length_pos_iff.mpr ht
      have h₂ := List.length_pos_iff.mpr (hus u (List.mem_cons_self ..))
      rw [List.length_append]
      omega
    rw [raws_cons, ← List.append_assoc] at h ⊢
    exact (h.of_append hlen).append (raws ts)

/-- What stands behind a cut may be replaced by what begins with the same token, or by nothing,
where that lets nothing begin in the bare tokens before the cut. -/
theorem Reads.replace {line : List Char} (h : Reads line (ts ++ us))
    (hvs : ReadsRest (raws vs) vs) (hhead : ∀ v ∈ vs.head?, v ∈ us.head?)
    (hkeep : KeepsBare ts us vs) (hnil : ts = [] → ¬ BeginsCommand (raws vs)) :
    Reads (raws ts ++ raws vs) (ts ++ vs) := by
  cases ts with
  | nil => exact hvs.reads (hnil rfl)
  | cons t ts =>
    have htail : ReadsRest (raws (ts ++ us)) (ts ++ us) := h.tail
    have hrest := htail.replace hvs hhead hkeep.tail
    have hfirst : ∀ u ∈ (ts ++ vs).head?, u ∈ (ts ++ us).head? := head?_append_of_head? hhead
    have ht : t.WellFormed := h.wellFormed t (List.mem_cons_self ..)
    have hne : ∀ u ∈ ts ++ vs, u.raw ≠ [] := fun u hu => (hrest.wellFormed u hu).raw_ne_nil
    rw [raws_cons, List.append_assoc]
    refine hrest.reads_cons ht (fun hk u hu => h.commandFirst.1 hk u (hfirst u hu)) ?_
      (fun u hu => h.separated.1 u (hfirst u hu)) ?_
    · intro hb
      rw [← raws_append] at hb
      have hline := beginsCommand_of_head? ht.raw_ne_nil hne hfirst hb
      have heq : t.raw ++ raws (ts ++ us) = line := h.raws_eq
      rw [heq] at hline
      obtain ⟨u, hu, hk⟩ := h.command_of_begins hline
      obtain rfl : t = u := Option.some.inj hu
      exact hk
    · intro hb
      exact hkeep.staysBare hb (h.noneMissed.staysBare ht hb)

theorem not_beginsCommand_nil : ¬ BeginsCommand [] := by
  intro h
  obtain ⟨c, rest, -, hs⟩ := h
  cases hs

/-- The tokens before a cut read their own text. -/
theorem Reads.append_left {line : List Char} (h : Reads line (ts ++ us)) :
    Reads (raws ts) ts := by
  have hkeep : KeepsBare ts us [] := by
    intro t _ _ c _ x
    rw [raws_nil, List.append_nil]
    exact ⟨fun hq => hq.append (raws us), fun hd => hd.append (raws us)⟩
  have hread : Reads (raws ts ++ raws []) (ts ++ []) :=
    h.replace ReadsRest.nil (by simp) hkeep fun _ => not_beginsCommand_nil
  simpa using hread

/-! ## Cuts of a line -/

/-- The tokens behind a cut that is not before all of them. -/
theorem Reads.drop {line : List Char} (h : Reads line ts) {k : Nat} (hk : 1 ≤ k)
    (hc : ¬ BeginsCommand (raws (ts.drop k))) : Reads (raws (ts.drop k)) (ts.drop k) := by
  cases ts with
  | nil =>
    rw [List.drop_nil] at hc ⊢
    exact ReadsRest.nil.reads hc
  | cons t ts =>
    obtain ⟨j, rfl⟩ : ∃ j, k = j + 1 := ⟨k - 1, by omega⟩
    rw [List.drop_succ_cons] at hc ⊢
    rw [← List.take_append_drop j ts] at h
    exact ReadsRest.reads (Reads.append_right h) hc

/-- **Safe cuts.** The first `k` tokens of a line are the tokens of their own text. The tokens
after them are the tokens of the rest of the line, unless there is nothing before it or it begins
with a slash and a character that is no space. -/
theorem ofLine_cut (line : List Char) (k : Nat) :
    ofLine (raws ((ofLine line).take k)) = (ofLine line).take k ∧
    ∀ rest, raws ((ofLine line).take k) ++ rest = line → 1 ≤ k → ¬ BeginsCommand rest →
      ofLine rest = (ofLine line).drop k := by
  have hline := reads_ofLine line
  have hcut : Reads line ((ofLine line).take k ++ (ofLine line).drop k) := by
    rwa [List.take_append_drop]
  refine ⟨hcut.append_left.ofLine_eq, ?_⟩
  intro rest hrest hk hc
  obtain rfl : raws ((ofLine line).drop k) = rest := by
    have hraws := hcut.raws_eq
    rw [raws_append] at hraws
    exact List.append_cancel_left (hraws.trans hrest.symm)
  exact (hline.drop hk hc).ofLine_eq

/-- The open quote and the open bracket stay on their own sides of the cut. -/
theorem ofLine_cut_open_quote :
    raws ((ofLine "/say \"a <b <me>".toList).take 3) ++ " <b <me>".toList =
      "/say \"a <b <me>".toList ∧ ¬ BeginsCommand " <b <me>".toList ∧
    ofLine " <b <me>".toList =
      [⟨.whitespace, [' ']⟩, ⟨.placeholder ⟨"b <me".toList, none⟩, "<b <me>".toList⟩] := by
  have hrest : raws ((ofLine "/say \"a <b <me>".toList).take 3) ++ " <b <me>".toList =
      "/say \"a <b <me>".toList := by
    decide +kernel
  have hc : ¬ BeginsCommand " <b <me>".toList := fun h => absurd h.head?_eq (by decide)
  have htokens : (ofLine "/say \"a <b <me>".toList).drop 3 =
      [⟨.whitespace, [' ']⟩, ⟨.placeholder ⟨"b <me".toList, none⟩, "<b <me>".toList⟩] := by
    decide +kernel
  refine ⟨hrest, hc, ?_⟩
  rw [← htokens]
  exact (ofLine_cut "/say \"a <b <me>".toList 3).2 _ hrest (by decide) hc

end MacroScript.Token
