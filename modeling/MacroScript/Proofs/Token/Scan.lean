import MacroScript.Proofs.Grammar.LineRules
/-
  Tokens of the rest of a line, where no command head is looked for. `collectFrom` is the state
  of the scan: the run of bare characters not closed yet, and the tokens after it. One equation
  for each way the text can go on says how a step changes it, from any byte position.
-/

namespace MacroScript.Token

open Grammar Pattern

/-! ## Parts that are no bare characters -/

theorem collect_of_ne_bare {p : Part} (h : p.rule ≠ .bare) (ps : List Part) :
    collect (p :: ps) = ([], (ofPart? p).toList ++ ofParts ps) := by
  unfold collect
  dsimp only
  rw [if_neg h]
  rfl

/-- The part that marks the end of a line stands for no token. -/
theorem collect_append_endOfInput (ps : List Part) (pos : Nat) :
    collect (ps ++ [⟨.endOfInput, pos, [], []⟩]) = collect ps := by
  induction ps with
  | nil => rfl
  | cons p ps ih => rw [List.cons_append, collect, collect, ih]

theorem ofParts_append_endOfInput (ps : List Part) (pos : Nat) :
    ofParts (ps ++ [⟨.endOfInput, pos, [], []⟩]) = ofParts ps := by
  unfold ofParts
  rw [collect_append_endOfInput]

/-! ## One step of the scan -/

/-- The run of bare characters at the front of a text that begins at byte position `pos`, and
the tokens after it. -/
def collectFrom (pos : Nat) (s : List Char) : List Char × List Token :=
  collect (token.manyMatch pos s).parts

/-- The tokens of a text that begins at byte position `pos`. -/
def ofRest (pos : Nat) (s : List Char) : List Token := ofParts (token.manyMatch pos s).parts

theorem ofRest_eq_flush (pos : Nat) (s : List Char) :
    ofRest pos s = flush (collectFrom pos s).1 (collectFrom pos s).2 := rfl

theorem flush_of_ne_nil {run : List Char} (h : run ≠ []) (ts : List Token) :
    flush run ts = text run :: ts := by
  rw [flush, if_neg (by simpa using h)]

theorem collectFrom_nil (pos : Nat) : collectFrom pos [] = ([], []) := by
  unfold collectFrom
  rw [manyMatch_of_none (token_run_nil pos)]
  rfl

theorem collectFrom_of_run {pos : Nat} {s taken rest : List Char} {p : Part}
    (h : token.run pos s = some ⟨taken, [p], rest⟩) (hp : p.rule ≠ .bare) :
    collectFrom pos s = ([], (ofPart? p).toList ++ ofRest (pos + byteSize taken) rest) := by
  unfold collectFrom
  rw [token_productive.manyMatch_of_some h]
  exact collect_of_ne_bare hp _

theorem collectFrom_quoted {value : List Char} (hvalue : '"' ∉ value) (pos : Nat)
    (rest : List Char) :
    collectFrom pos ('"' :: value ++ '"' :: rest) =
      ([], ⟨.string value, '"' :: value ++ ['"']⟩ ::
        ofRest (pos + byteSize ('"' :: value ++ ['"'])) rest) :=
  collectFrom_of_run (token_run_quoted hvalue pos rest) (by simp [quotedPart])

theorem collectFrom_directive {p : Placeholder} (hp : p.Writable) (pos : Nat)
    (rest : List Char) :
    collectFrom pos (p.written ++ rest) =
      ([], ofDirective p.key p.value p.written :: ofRest (pos + byteSize p.written) rest) := by
  rw [collectFrom_of_run (token_run_directive hp pos rest) (by simp [directivePart])]
  obtain ⟨key, value⟩ := p
  cases value with
  | none => rfl
  | some v => rfl

theorem collectFrom_blank {w rest : List Char} (hne : w ≠ []) (hw : ∀ c ∈ w, isSpace c = true)
    (hrest : ∀ c ∈ rest.head?, isSpace c = false) (pos : Nat) :
    collectFrom pos (w ++ rest) = ([], ⟨.whitespace, w⟩ :: ofRest (pos + byteSize w) rest) :=
  collectFrom_of_run (token_run_blank hne hw hrest pos) (by simp)

theorem collectFrom_bare {c : Char} {rest : List Char} (hc : isSpace c = false)
    (hq : ¬ BeginsQuoted (c :: rest)) (hd : ¬ BeginsDirective (c :: rest)) (pos : Nat) :
    collectFrom pos (c :: rest) =
      (c :: (collectFrom (pos + byteSize [c]) rest).1,
        (collectFrom (pos + byteSize [c]) rest).2) := by
  unfold collectFrom
  rw [token_productive.manyMatch_of_some (token_run_bare hc hq hd pos)]
  rfl

/-! ## A run of steps -/

/-- No character of the text is a space, and from none on does the text, with `rest` after it,
begin with a quoted string or a directive. -/
def StaysBare (u rest : List Char) : Prop :=
  ∀ before c after, u = before ++ c :: after → isSpace c = false ∧
    ¬ BeginsQuoted (c :: after ++ rest) ∧ ¬ BeginsDirective (c :: after ++ rest)

theorem StaysBare.isSpace_eq_false {u rest : List Char} (h : StaysBare u rest) :
    ∀ c ∈ u, isSpace c = false := by
  intro c hc
  obtain ⟨before, after, hu⟩ := List.append_of_mem hc
  exact (h before c after hu).1

theorem staysBare_nil (rest : List Char) : StaysBare [] rest := by
  intro before c after hu
  simp at hu

theorem staysBare_cons {c : Char} {u rest : List Char} :
    StaysBare (c :: u) rest ↔ (isSpace c = false ∧ ¬ BeginsQuoted (c :: (u ++ rest)) ∧
      ¬ BeginsDirective (c :: (u ++ rest))) ∧ StaysBare u rest := by
  constructor
  · intro h
    refine ⟨h [] c u rfl, ?_⟩
    intro before d after hu
    exact h (c :: before) d after (by rw [hu, List.cons_append])
  · intro h before d after hu
    obtain ⟨hfirst, hrest⟩ := h
    cases before with
    | nil =>
      obtain ⟨rfl, rfl⟩ := List.cons.inj hu
      exact hfirst
    | cons b before =>
      obtain ⟨-, rfl⟩ := List.cons.inj hu
      exact hrest before d after rfl

theorem collectFrom_staysBare {u rest : List Char} (h : StaysBare u rest) (pos : Nat) :
    collectFrom pos (u ++ rest) =
      (u ++ (collectFrom (pos + byteSize u) rest).1,
        (collectFrom (pos + byteSize u) rest).2) := by
  induction u generalizing pos with
  | nil => rfl
  | cons c u ih =>
    obtain ⟨⟨hc, hq, hd⟩, hu⟩ := staysBare_cons.mp h
    rw [List.cons_append, collectFrom_bare hc hq hd, ih hu, byteSize_cons, byteSize_cons,
      byteSize_nil, Nat.add_zero, Nat.add_assoc]
    rfl

/-! ## Lines -/

theorem ofLine?_of_opt_run {s head rest : List Char} {ps : List Part}
    (hopt : (opt command).run 0 s = some ⟨head, ps, rest⟩) :
    ofLine? s = .ok (ofParts (ps ++ (token.manyMatch (byteSize head) rest).parts)) := by
  unfold ofLine?
  rw [line_parts? hopt, ← List.append_assoc]
  exact congrArg Except.ok (ofParts_append_endOfInput _ _)

theorem ofLine?_of_command {name rest : List Char} (hne : name ≠ [])
    (hname : ∀ c ∈ name, isSpace c = false) (hrest : ∀ c ∈ rest.head?, isSpace c = true) :
    ofLine? ('/' :: name ++ rest) =
      .ok (⟨.command name, '/' :: name⟩ :: ofRest (byteSize ('/' :: name)) rest) := by
  have hrun : command.run 0 ('/' :: name ++ rest) =
      some ⟨'/' :: name, [commandPart 0 name], rest⟩ :=
    command_run_eq_some_iff.mpr ⟨name, rest, hne, hname, hrest, rfl, rfl⟩
  rw [ofLine?_of_opt_run (run_opt_eq_some_iff.mpr (Or.inl hrun))]
  unfold ofParts
  rw [List.singleton_append, collect_of_ne_bare (by simp [commandPart])]
  rfl

theorem ofLine?_of_not_begins {s : List Char} (h : ¬ BeginsCommand s) :
    ofLine? s = .ok (ofRest 0 s) :=
  ofLine?_of_opt_run (run_opt_eq_some_iff.mpr (Or.inr ⟨command_run_eq_none h, rfl⟩))

theorem ofLine_of_ok {line : List Char} {ts : List Token} (h : ofLine? line = .ok ts) :
    ofLine line = ts := by
  unfold ofLine
  rw [h]

theorem ofLine_of_command {name rest : List Char} (hne : name ≠ [])
    (hname : ∀ c ∈ name, isSpace c = false) (hrest : ∀ c ∈ rest.head?, isSpace c = true) :
    ofLine ('/' :: name ++ rest) =
      ⟨.command name, '/' :: name⟩ :: ofRest (byteSize ('/' :: name)) rest :=
  ofLine_of_ok (ofLine?_of_command hne hname hrest)

theorem ofLine_of_not_begins {s : List Char} (h : ¬ BeginsCommand s) :
    ofLine s = ofRest 0 s :=
  ofLine_of_ok (ofLine?_of_not_begins h)

/-- Every line matches, so no line is taken for bare text as a whole. -/
theorem ofLine?_eq_ok (line : List Char) : ofLine? line = .ok (ofLine line) := by
  by_cases h : BeginsCommand line
  · obtain ⟨name, rest, hne, hname, hrest, rfl⟩ := beginsCommand_iff.mp h
    rw [ofLine_of_command hne hname hrest]
    exact ofLine?_of_command hne hname hrest
  · rw [ofLine_of_not_begins h]
    exact ofLine?_of_not_begins h

end MacroScript.Token
