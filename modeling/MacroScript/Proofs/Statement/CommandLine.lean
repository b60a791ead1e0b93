import MacroScript.Proofs.Statement.OfTokens
import MacroScript.Proofs.Wait.Numeral
import MacroScript.Statement.CommandLine
/-
  A command line that is written is read back. Each argument and each gap is one token, so the
  tokens of the line are known (`CommandLine.ofLine_tokens`), from the last one to the first: a
  token in front of a reading does not change it, whatever quotes and marks are in its text.
  Main statement: `CommandLine.ofLine_written`.
-/

namespace MacroScript

open Token

/-! ## Tokens of gaps, arguments and waits -/

def Gap.token (g : Gap) : Token := ⟨.whitespace, g.text⟩

def Argument.token : Argument → Token
  | .value text => ⟨.string text, '"' :: text ++ ['"']⟩
  | .placeholder p => ⟨.placeholder p, p.written⟩

def Wait.token (w : Wait) : Token := ⟨.wait w, w.written⟩

theorem Argument.kind_token (a : Argument) :
    a.token.kind = .string ∨ a.token.kind = .placeholder := by
  cases a with
  | value text => exact Or.inl rfl
  | placeholder p => exact Or.inr rfl

theorem Gap.kind_token (g : Gap) : g.token.kind = .whitespace := rfl

theorem Gap.isWhitespace_token (g : Gap) : g.token.isWhitespace = true := rfl

theorem Argument.isWhitespace_token (a : Argument) : a.token.isWhitespace = false := by
  rcases a.kind_token with hk | hk <;> simp [isWhitespace, hk]

theorem Wait.kind_token (w : Wait) : w.token.kind = .wait := rfl

theorem Argument.ofToken_token (a : Argument) : ofToken a.token = .ok a := by
  cases a with
  | value text => rfl
  | placeholder p => rfl

theorem Gap.isSpace_head (g : Gap) (s : List Char) :
    ∀ c ∈ (g.text ++ s).head?, isSpace c = true := by
  obtain ⟨d, rest, htext⟩ := List.exists_cons_of_ne_nil g.ne_nil
  intro c hc
  rw [htext] at hc
  obtain rfl : d = c := Option.some.inj hc
  exact g.isSpace_of_mem d (by rw [htext]; exact List.mem_cons_self ..)

/-- The numeral of a wait is a value that a directive can hold. -/
theorem Wait.writable_numeral (w : Wait) :
    Placeholder.Writable ⟨Wait.key, some (Nat.toDigits 10 w.toNat)⟩ := by
  apply Placeholder.writable_wait
  · intro v hv
    obtain rfl : Nat.toDigits 10 w.toNat = v := Option.some.inj hv
    exact Nat.toDigits_ne_nil
  · intro v hv hmem
    obtain rfl : Nat.toDigits 10 w.toNat = v := Option.some.inj hv
    exact absurd (Nat.isDigit_of_mem_toDigits (by decide) (by decide) hmem) (by decide)

/-! ## One token in front of a reading -/

namespace Token.ReadsRest

variable {s : List Char} {t : Token} {ts : List Token}

theorem cons_gap (h : ReadsRest s (t :: ts)) (ht : t.kind ≠ .whitespace) (g : Gap) :
    ReadsRest (g.text ++ s) (g.token :: t :: ts) :=
  h.cons_blank g.ne_nil g.isSpace_of_mem (by simpa using ht)

theorem cons_argument (h : ReadsRest s ts) {a : Argument} (ha : a.Writable) :
    ReadsRest (a.written ++ s) (a.token :: ts) := by
  cases a with
  | value text => exact h.cons_quoted ha
  | placeholder p =>
    have hread := h.cons_directive ha.1
    unfold ofDirective at hread
    rwa [if_neg ha.2] at hread

theorem cons_wait (h : ReadsRest s ts) (w : Wait) : ReadsRest (w.written ++ s) (w.token :: ts) := by
  have hread := h.cons_directive w.writable_numeral
  unfold ofDirective at hread
  rw [if_pos rfl, Option.elim_some, Wait.ofArgument_toDigits] at hread
  exact hread

end Token.ReadsRest

/-! ## The tokens of a command line -/

namespace CommandLine

def argTokens (args : List (Gap × Argument)) : List Token :=
  args.flatMap fun a => [a.1.token, a.2.token]

def waitTokens (wait : Option (Gap × Wait)) : List Token :=
  wait.elim [] fun w => [w.1.token, w.2.token]

theorem readsRest_writtenWait (wait : Option (Gap × Wait)) :
    ReadsRest (writtenWait wait) (waitTokens wait) := by
  cases wait with
  | none => exact ReadsRest.nil
  | some w =>
    have hread := (ReadsRest.nil.cons_wait w.2).cons_gap (by simp [Wait.kind_token]) w.1
    rwa [List.append_nil] at hread

theorem readsRest_writtenArgs {s : List Char} {ts : List Token} (h : ReadsRest s ts)
    {args : List (Gap × Argument)} (hargs : ∀ a ∈ args, a.2.Writable) :
    ReadsRest (writtenArgs args ++ s) (argTokens args ++ ts) := by
  induction args with
  | nil => exact h
  | cons a args ih =>
    rw [List.forall_mem_cons] at hargs
    have hkind : a.2.token.kind ≠ .whitespace := by
      rcases a.2.kind_token with hk | hk <;> simp [hk]
    have hread := ((ih hargs.2).cons_argument hargs.1).cons_gap hkind a.1
    simpa [writtenArgs, argTokens] using hread

theorem isSpace_head (args : List (Gap × Argument)) (wait : Option (Gap × Wait)) :
    ∀ c ∈ (writtenArgs args ++ writtenWait wait).head?, isSpace c = true := by
  cases args with
  | nil =>
    cases wait with
    | none => simp [writtenArgs, writtenWait]
    | some w => exact w.1.isSpace_head w.2.written
  | cons a args =>
    have hhead := a.1.isSpace_head (a.2.written ++ (writtenArgs args ++ writtenWait wait))
    simpa [writtenArgs] using hhead

theorem ofLine_tokens {l : CommandLine} (h : l.Writable) :
    Token.ofLine l.written =
      ⟨.command l.name, '/' :: l.name⟩ :: (argTokens l.args ++ waitTokens l.wait) := by
  have hrest := readsRest_writtenArgs (readsRest_writtenWait l.wait) h.args_writable
  exact (hrest.reads_command h.name_ne_nil h.name_chars (isSpace_head l.args l.wait)).ofLine_eq

/-! ## What the tokens say -/

/-- The gap in front of a wait stays with what comes before the wait. -/
def lastGap (wait : Option (Gap × Wait)) : List Token :=
  wait.elim [] fun w => [w.1.token]

theorem kind_ne_wait_of_mem {args : List (Gap × Argument)} {wait : Option (Gap × Wait)} :
    ∀ t ∈ argTokens args ++ lastGap wait, t.kind ≠ .wait := by
  intro t ht
  rcases List.mem_append.mp ht with ht | ht
  · obtain ⟨a, -, hmem⟩ := List.mem_flatMap.mp ht
    rw [List.mem_cons, List.mem_singleton] at hmem
    rcases hmem with rfl | rfl
    · simp [Gap.kind_token]
    · rcases a.2.kind_token with hk | hk <;> simp [hk]
  · cases wait with
    | none => cases ht
    | some w =>
      obtain rfl := List.mem_singleton.mp ht
      simp [Gap.kind_token]

theorem cutAtWait_tokens {head : Token} (hhead : head.kind ≠ .wait)
    (args : List (Gap × Argument)) (wait : Option (Gap × Wait)) :
    cutAtWait (head :: (argTokens args ++ waitTokens wait)) =
      (head :: (argTokens args ++ lastGap wait), wait.elim 0 Prod.snd) := by
  have hbefore : ∀ t ∈ head :: (argTokens args ++ lastGap wait), t.kind ≠ .wait :=
    List.forall_mem_cons.mpr ⟨hhead, kind_ne_wait_of_mem⟩
  cases wait with
  | none => exact cutAtWait_of_kind_ne hbefore
  | some w =>
    have hsplit : head :: (argTokens args ++ waitTokens (some w)) =
        (head :: (argTokens args ++ lastGap (some w))) ++ [w.2.token] := by
      simp [waitTokens, lastGap]
    rw [hsplit]
    exact cutAtWait_append hbefore rfl

theorem filter_argTokens (args : List (Gap × Argument)) :
    (argTokens args).filter (fun t => !t.isWhitespace) = args.map fun a => a.2.token := by
  induction args with
  | nil => rfl
  | cons a args ih =>
    simp only [argTokens, List.flatMap_cons, List.filter_append, List.map_cons] at ih ⊢
    rw [ih]
    simp [Gap.isWhitespace_token, Argument.isWhitespace_token]

/-- The gaps between the arguments and after them say nothing. -/
theorem ofTokens_argTokens (args : List (Gap × Argument)) (wait : Option (Gap × Wait)) :
    Argument.ofTokens (argTokens args ++ lastGap wait) = .ok (args.map Prod.snd) := by
  have hlast : (lastGap wait).filter (fun t => !t.isWhitespace) = [] := by
    cases wait with
    | none => rfl
    | some w => rfl
  unfold Argument.ofTokens
  rw [List.filter_append, hlast, List.append_nil, filter_argTokens]
  apply mapM_eq_ok_of_map_eq
  simp [Argument.ofToken_token]

/-- **What is written as a command is read as it.** A line that writes a name, arguments with any
spaces before each, and a wait at the end or none, says the command with that name and those
arguments in that order, and that wait, or none. -/
theorem ofLine_written {l : CommandLine} (h : l.Writable) :
    Statement.ofLine l.written =
      .ok (some ⟨.command ⟨l.name, l.args.map Prod.snd⟩, l.wait.elim 0 Prod.snd⟩) := by
  have hname : kind ⟨.command l.name, '/' :: l.name⟩ ≠ .wait := by simp [kind, Content.kind]
  have hcut := cutAtWait_tokens hname l.args l.wait
  have hargs := ofTokens_argTokens l.args l.wait
  have hbody := Body.ofTokens_eq_command_iff (c := ⟨l.name, l.args.map Prod.snd⟩).mpr
    ⟨⟨.command l.name, '/' :: l.name⟩, _, rfl, rfl, hargs⟩
  unfold Statement.ofLine
  rw [ofLine_tokens h, Statement.ofTokens_eq_some_iff, hcut]
  exact ⟨hbody, rfl⟩

/-- Marks in a value or a key belong to it, and the longest wait is read exactly. -/
theorem ofLine_written_marks_in_arguments :
    Statement.ofLine "/b \"a <wait> /c\"\t<k\"<.v.> <wait.4294967295>".toList =
      .ok (some ⟨.command ⟨['b'], [.value "a <wait> /c".toList,
        .placeholder ⟨"k\"<".toList, some "v.".toList⟩]⟩, 4294967295⟩) := by
  have hname : ∀ c ∈ ['b'], isSpace c = false := List.forall_mem_singleton.mpr rfl
  have hkey : ∀ c ∈ "k\"<".toList, c ≠ '>' ∧ c ≠ '.' := by simp
  have htext : written ⟨['b'],
      [(⟨[' '], List.cons_ne_nil _ _, List.forall_mem_singleton.mpr rfl⟩,
          .value "a <wait> /c".toList),
        (⟨['\t'], List.cons_ne_nil _ _, List.forall_mem_singleton.mpr rfl⟩,
          .placeholder ⟨"k\"<".toList, some "v.".toList⟩)],
      some (⟨[' '], List.cons_ne_nil _ _, List.forall_mem_singleton.mpr rfl⟩, 4294967295)⟩ =
      "/b \"a <wait> /c\"\t<k\"<.v.> <wait.4294967295>".toList := by
    decide +kernel
  rw [← htext]
  refine ofLine_written ⟨List.cons_ne_nil _ _, hname, ?_⟩
  simp only [List.forall_mem_cons, Argument.Writable]
  exact ⟨by decide, ⟨⟨by decide, hkey, by decide, by decide⟩, by decide⟩, by simp⟩

end CommandLine

end MacroScript
