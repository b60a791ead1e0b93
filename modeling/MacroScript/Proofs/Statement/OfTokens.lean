import Mathlib.Data.List.Forall2
import MacroScript.Proofs.Statement.FirstWait
/-
  What tokens say, by outcome. The tokens before the first wait decide: none of them says
  nothing, a command first says a command, anything else first says free text. One equivalence
  for each outcome (`Body.ofTokens_eq_none_iff`, `Body.ofTokens_eq_command_iff`,
  `Body.ofTokens_eq_text_iff`), so that nobody else opens these definitions. Main statement:
  `Statement.ofTokens_truncated`.
-/

namespace MacroScript

open Token

/-! ## Results of a list -/

section

variable {α β ε : Type} {f : α → Except ε β} {xs : List α} {e : ε}

theorem map_eq_ok_iff {g : α → β} {r : Except ε α} {y : β} :
    r.map g = .ok y ↔ ∃ x, r = .ok x ∧ g x = y := by
  cases r with
  | error err => simp [Except.map]
  | ok x => simp [Except.map]

theorem map_eq_error_iff {g : α → β} {r : Except ε α} : r.map g = .error e ↔ r = .error e := by
  cases r with
  | error err => simp [Except.map]
  | ok x => simp [Except.map]

theorem mapM_eq_ok_iff {ys : List β} :
    xs.mapM f = .ok ys ↔ List.Forall₂ (fun x y => f x = .ok y) xs ys := by
  induction xs generalizing ys with
  | nil => cases ys <;> simp [pure, Except.pure]
  | cons x xs ih =>
    rw [List.mapM_cons, List.forall₂_cons_left_iff]
    cases hx : f x with
    | error err => simp [bind, Except.bind]
    | ok y =>
      simp only [← ih]
      cases xs.mapM f with
      | error err => simp [bind, Except.bind]
      | ok zs => simp [bind, Except.bind, pure, Except.pure, eq_comm]

theorem mapM_eq_ok_of_map_eq {ys : List β} (h : xs.map f = ys.map .ok) : xs.mapM f = .ok ys := by
  rw [← List.forall₂_eq_eq_eq, List.forall₂_map_left_iff, List.forall₂_map_right_iff] at h
  exact mapM_eq_ok_iff.mpr h

/-- The error of a list is the error of one of its elements. -/
theorem exists_of_mapM_eq_error (h : xs.mapM f = .error e) : ∃ x ∈ xs, f x = .error e := by
  induction xs with
  | nil => cases h
  | cons x xs ih =>
    rw [List.mapM_cons] at h
    cases hx : f x with
    | error err =>
      rw [hx] at h
      cases h
      exact ⟨x, List.mem_cons_self .., hx⟩
    | ok y =>
      rw [hx] at h
      cases hxs : xs.mapM f with
      | error err =>
        rw [hxs] at h
        cases h
        obtain ⟨z, hz, hfz⟩ := ih hxs
        exact ⟨z, List.mem_cons_of_mem x hz, hfz⟩
      | ok zs =>
        rw [hxs] at h
        cases h

theorem exists_map_eq_ok (h : ∀ x ∈ xs, ∃ y, f x = .ok y) :
    ∃ ys : List β, xs.map f = ys.map .ok := by
  induction xs with
  | nil => exact ⟨[], rfl⟩
  | cons x xs ih =>
    rw [List.forall_mem_cons] at h
    obtain ⟨y, hy⟩ := h.1
    obtain ⟨ys, hys⟩ := ih h.2
    exact ⟨y :: ys, by rw [List.map_cons, List.map_cons, hy, hys]⟩

end

variable {t : Token} {ts : List Token}

/-! ## Tokens before the first wait -/

theorem Token.cutAtWait_fst_eq_takeWhile (ts : List Token) :
    (cutAtWait ts).1 = ts.takeWhile fun t => t.kind ≠ .wait := by
  induction ts with
  | nil => rfl
  | cons t ts ih =>
    by_cases h : t.kind = .wait
    · obtain ⟨n, hc⟩ := content_of_kind_wait h
      rw [cutAtWait, hc, List.takeWhile_cons_of_neg (by simp [h])]
    · rw [cutAtWait_cons_of_kind_ne h, List.takeWhile_cons_of_pos (by simpa using h), ih]

theorem Token.kind_ne_wait_of_mem (h : t ∈ (cutAtWait ts).1) : t.kind ≠ .wait := by
  rw [cutAtWait_fst_eq_takeWhile] at h
  simpa using List.all_eq_true.mp List.all_takeWhile t h

theorem Token.cutAtWait_fst_eq_nil_iff :
    (cutAtWait ts).1 = [] ↔ ∀ t ∈ ts.head?, t.kind = .wait := by
  rw [cutAtWait_fst_eq_takeWhile]
  cases ts with
  | nil => simp
  | cons t ts => simp [List.takeWhile_cons]

theorem Token.head?_of_cutAtWait : ∀ t ∈ (cutAtWait ts).1.head?, t ∈ ts.head? := by
  intro t ht
  rw [cutAtWait_fst_eq_takeWhile, List.head?_takeWhile] at ht
  exact (Option.filter_eq_some_iff.mp ht).1

/-- The tokens before the first wait of a line read their own text. -/
theorem Token.Reads.before_wait {line : List Char} (h : Reads line ts) :
    Reads (raws (cutAtWait ts).1) (cutAtWait ts).1 := by
  rw [cutAtWait_fst_eq_takeWhile]
  rw [← List.takeWhile_append_dropWhile (p := fun t => t.kind ≠ .wait) (l := ts)] at h
  exact h.append_left

/-! ## Bodies -/

theorem Body.ofTokens_cons_of_command {name : List Char} (h : t.content = .command name)
    (ts : List Token) : ofTokens (t :: ts) =
      (Argument.ofTokens ts).map fun args => some (.command ⟨name, args⟩) := by
  rw [ofTokens, h]

theorem Body.ofTokens_cons_of_kind_ne (h : t.kind ≠ .command) (ts : List Token) :
    ofTokens (t :: ts) = .ok (some (.text (Piece.ofTokens (t :: ts)))) := by
  unfold kind at h
  rw [ofTokens]
  cases hc : t.content with
  | command name => exact absurd (by rw [hc]; rfl) h
  | _ => rfl

theorem Body.ofTokens_eq_none_iff : ofTokens ts = .ok none ↔ ts = [] := by
  constructor
  · intro h
    cases ts with
    | nil => rfl
    | cons t ts =>
      by_cases hk : t.kind = .command
      · obtain ⟨name, hc⟩ := content_of_kind_command hk
        rw [ofTokens_cons_of_command hc] at h
        obtain ⟨args, -, h⟩ := map_eq_ok_iff.mp h
        cases h
      · rw [ofTokens_cons_of_kind_ne hk] at h
        cases h
  · intro h
    rw [h]
    rfl

theorem Body.ofTokens_eq_command_iff {c : Command} :
    ofTokens ts = .ok (some (.command c)) ↔ ∃ t us, ts = t :: us ∧
      t.content = .command c.name ∧ Argument.ofTokens us = .ok c.args := by
  constructor
  · intro h
    cases ts with
    | nil => cases h
    | cons t us =>
      by_cases hk : t.kind = .command
      · obtain ⟨name, hc⟩ := content_of_kind_command hk
        rw [ofTokens_cons_of_command hc] at h
        obtain ⟨args, hargs, h⟩ := map_eq_ok_iff.mp h
        cases h
        exact ⟨t, us, rfl, hc, hargs⟩
      · rw [ofTokens_cons_of_kind_ne hk] at h
        cases h
  · intro h
    obtain ⟨t, us, rfl, hc, hargs⟩ := h
    rw [ofTokens_cons_of_command hc, hargs]
    rfl

theorem Body.ofTokens_eq_text_iff {pieces : List Piece} :
    ofTokens ts = .ok (some (.text pieces)) ↔
      ts ≠ [] ∧ (∀ t ∈ ts.head?, t.kind ≠ .command) ∧ Piece.ofTokens ts = pieces := by
  constructor
  · intro h
    cases ts with
    | nil => cases h
    | cons t us =>
      by_cases hk : t.kind = .command
      · obtain ⟨name, hc⟩ := content_of_kind_command hk
        rw [ofTokens_cons_of_command hc] at h
        obtain ⟨args, -, h⟩ := map_eq_ok_iff.mp h
        cases h
      · rw [ofTokens_cons_of_kind_ne hk] at h
        cases h
        exact ⟨List.cons_ne_nil t us, by simpa using hk, rfl⟩
  · intro h
    obtain ⟨hne, hhead, rfl⟩ := h
    obtain ⟨t, us, rfl⟩ := List.exists_cons_of_ne_nil hne
    exact ofTokens_cons_of_kind_ne (hhead t rfl) us

/-! ## Statements -/

theorem Statement.ofTokens_eq (ts : List Token) :
    ofTokens ts = (Body.ofTokens (cutAtWait ts).1).map
      (Option.map fun body => ⟨body, (cutAtWait ts).2⟩) := rfl

theorem Statement.ofTokens_eq_none_iff :
    ofTokens ts = .ok none ↔ ∀ t ∈ ts.head?, t.kind = .wait := by
  rw [ofTokens_eq, map_eq_ok_iff, ← cutAtWait_fst_eq_nil_iff, ← Body.ofTokens_eq_none_iff]
  simp only [Option.map_eq_none_iff, exists_eq_right]

theorem Statement.ofTokens_eq_some_iff {s : Statement} :
    ofTokens ts = .ok (some s) ↔
      Body.ofTokens (cutAtWait ts).1 = .ok (some s.body) ∧ (cutAtWait ts).2 = s.wait := by
  rw [ofTokens_eq, map_eq_ok_iff]
  constructor
  · intro h
    obtain ⟨body, hbody, h⟩ := h
    obtain ⟨b, rfl, rfl⟩ := Option.map_eq_some_iff.mp h
    exact ⟨hbody, rfl⟩
  · intro h
    obtain ⟨hbody, hwait⟩ := h
    exact ⟨some s.body, hbody, by rw [Option.map_some, hwait]⟩

/-- Only tokens with a command first say a command. -/
theorem Statement.content_head_of_command {c : Command} {n : Wait}
    (h : ofTokens ts = .ok (some ⟨.command c, n⟩)) :
    ∃ t ∈ ts.head?, t.content = .command c.name := by
  obtain ⟨hbody, -⟩ := ofTokens_eq_some_iff.mp h
  obtain ⟨t, us, hbefore, hc, -⟩ := Body.ofTokens_eq_command_iff.mp hbody
  exact ⟨t, head?_of_cutAtWait t (by rw [hbefore]; rfl), hc⟩

/-- Only tokens with something else than a command first say free text. -/
theorem Statement.kind_head_of_text {pieces : List Piece} {n : Wait}
    (h : ofTokens ts = .ok (some ⟨.text pieces, n⟩)) : ∃ t ∈ ts.head?, t.kind ≠ .command := by
  obtain ⟨hbody, -⟩ := ofTokens_eq_some_iff.mp h
  obtain ⟨hne, hhead, -⟩ := Body.ofTokens_eq_text_iff.mp hbody
  obtain ⟨t, us, hbefore⟩ := List.exists_cons_of_ne_nil hne
  rw [hbefore] at hhead
  exact ⟨t, head?_of_cutAtWait t (by rw [hbefore]; rfl), hhead t rfl⟩

/-! ## Tokens after a wait -/

/-- Tokens without a wait ask for none. -/
theorem Statement.wait_eq_zero {s : Statement} (hts : ∀ t ∈ ts, t.kind ≠ .wait)
    (h : ofTokens ts = .ok (some s)) : s.wait = 0 := by
  obtain ⟨-, hwait⟩ := ofTokens_eq_some_iff.mp h
  rw [← hwait, cutAtWait_of_kind_ne hts]

/-- **The first wait ends the tokens.** Whatever tokens come after it, they say what the tokens
before it say, with that wait in the place of none. They say nothing exactly if the wait stands
first, and are in error exactly as the tokens before it are. -/
theorem Statement.ofTokens_truncated {before after : List Token} {w : Token} {n : Wait}
    (hbefore : ∀ t ∈ before, t.kind ≠ .wait) (hw : w.content = .wait n) :
    ofTokens (before ++ w :: after) = (ofTokens before).map (Option.map (withWait n)) ∧
    (ofTokens (before ++ w :: after) = .ok none ↔ before = []) ∧
    (∀ e, ofTokens (before ++ w :: after) = .error e ↔ ofTokens before = .error e) ∧
    ∀ s, ofTokens before = .ok (some s) →
      s.wait = 0 ∧ ofTokens (before ++ w :: after) = .ok (some ⟨s.body, n⟩) := by
  have htruncate : ofTokens (before ++ w :: after) =
      (ofTokens before).map (Option.map (withWait n)) := ofTokens_append_wait hbefore hw
  refine ⟨htruncate, ?_, ?_, ?_⟩
  · rw [ofTokens_eq_none_iff, ← cutAtWait_fst_eq_nil_iff, cutAtWait_append hbefore hw]
  · intro e
    rw [htruncate, map_eq_error_iff]
  · intro s hs
    refine ⟨wait_eq_zero hbefore hs, ?_⟩
    rw [htruncate, hs]
    rfl

/-- A command after the wait is no error, although it would be one before, and a wait after it
does not count. -/
theorem Statement.ofTokens_truncated_second_command :
    ofTokens [⟨.command ['a'], []⟩, text ['x']] =
      .ok (some ⟨.command ⟨['a'], [.value ['x']]⟩, 0⟩) ∧
    ofTokens ([⟨.command ['a'], []⟩, text ['x']] ++
        ⟨.wait 3, []⟩ :: [⟨.command ['b'], []⟩, ⟨.wait 5, []⟩]) =
      .ok (some ⟨.command ⟨['a'], [.value ['x']]⟩, 3⟩) := by
  have hbefore : ofTokens [⟨.command ['a'], []⟩, text ['x']] =
      .ok (some ⟨.command ⟨['a'], [.value ['x']]⟩, 0⟩) := rfl
  exact ⟨hbefore, ((ofTokens_truncated (by decide) rfl).2.2.2 _ hbefore).2⟩

end MacroScript
