import MacroScript.Text.Basic
/-
  Patterns over texts with ordered choice and possessive repetition, and the parts that they
  record. A pattern matches at the start of a text, takes what it matches and leaves the rest;
  what a repetition or a chosen alternative took is never given back.
-/

namespace MacroScript

/-! ## Rules and parts -/

/-- The parts of a line that a match records. -/
inductive Rule where
  | line
  | command
  | commandName
  | quoted
  | quotedText
  | directive
  | directiveKey
  | directiveValue
  | bare
  | blank
  | decimal
  | waitArgument
  | endOfInput
  deriving DecidableEq

def Rule.name : Rule → String
  | .line => "line"
  | .command => "command"
  | .commandName => "command_name"
  | .quoted => "quoted"
  | .quotedText => "quoted_text"
  | .directive => "directive"
  | .directiveKey => "directive_key"
  | .directiveValue => "directive_value"
  | .bare => "bare"
  | .blank => "blank"
  | .decimal => "decimal"
  | .waitArgument => "wait_arg"
  | .endOfInput => "EOI"

/-- A matched part: its rule, the byte position where it starts, the text it covers, and the
parts recorded inside it, in order. -/
structure Part where
  rule : Rule
  start : Nat
  text : List Char
  inner : List Part

/-- The byte position right after a part. -/
def Part.stop (p : Part) : Nat := p.start + byteSize p.text

/-! ## Matches -/

/-- A match at the start of a text: the text taken, the parts recorded in it, the text left. -/
structure Match where
  taken : List Char
  parts : List Part
  rest : List Char

namespace Match

/-- The match that takes nothing. -/
def empty (s : List Char) : Match := ⟨[], [], s⟩

/-- A match followed by a match of what it left. -/
def append (m n : Match) : Match := ⟨m.taken ++ n.taken, m.parts ++ n.parts, n.rest⟩

end Match

/-! ## Patterns -/

inductive Pattern where
  /-- One character of a class. -/
  | one (p : Char → Bool)
  /-- The longest run, possibly empty, of characters of a class. -/
  | span (p : Char → Bool)
  /-- The characters of a word. -/
  | word (w : List Char)
  /-- The first pattern, then the second on what is left. -/
  | seq (a b : Pattern)
  /-- The first pattern if it matches, else the second. -/
  | alt (a b : Pattern)
  /-- The pattern if it matches, else nothing. -/
  | opt (a : Pattern)
  /-- The pattern as often as it matches. -/
  | many (a : Pattern)
  /-- The pattern, recorded as a part of the rule. -/
  | part (r : Rule) (a : Pattern)
  /-- The end of the text, recorded as a part. -/
  | finish

namespace Pattern

/-- The longest run, of one character at least, of characters of a class. -/
def span1 (p : Char → Bool) : Pattern := .seq (.one p) (.span p)

/-- Repeats a step while it matches, for a number of rounds at most. -/
def iterate (step : Nat → List Char → Option Match) : Nat → Nat → List Char → Match
  | 0, _, s => .empty s
  | rounds + 1, pos, s =>
    match step pos s with
    | none => .empty s
    | some m => m.append (iterate step rounds (pos + byteSize m.taken) m.rest)

/-- Matches a pattern at the start of a text that begins at byte position `pos`. A repetition
needs no more rounds than the text has characters, since the patterns repeated take one at
least. -/
def run : Pattern → Nat → List Char → Option Match
  | .one p, _, s =>
    match s with
    | [] => none
    | c :: s => if p c then some ⟨[c], [], s⟩ else none
  | .span p, _, s => some ⟨s.takeWhile p, [], s.dropWhile p⟩
  | .word w, _, s => if w.isPrefixOf s then some ⟨w, [], s.drop w.length⟩ else none
  | .seq a b, pos, s =>
    match a.run pos s with
    | none => none
    | some m => (b.run (pos + byteSize m.taken) m.rest).map m.append
  | .alt a b, pos, s => (a.run pos s).or (b.run pos s)
  | .opt a, pos, s => some ((a.run pos s).getD (.empty s))
  | .many a, pos, s => some (iterate (fun pos s => a.run pos s) s.length pos s)
  | .part r a, pos, s =>
    (a.run pos s).map fun m => ⟨m.taken, [⟨r, pos, m.taken, m.parts⟩], m.rest⟩
  | .finish, pos, s =>
    match s with
    | [] => some ⟨[], [⟨.endOfInput, pos, [], []⟩], []⟩
    | _ :: _ => none

/-- The parts of a match at the start of a whole text. -/
def parts? (a : Pattern) (s : List Char) : Option (List Part) := (a.run 0 s).map Match.parts

/-! ## A match splits the text -/

theorem iterate_taken_append_rest {step : Nat → List Char → Option Match}
    (hstep : ∀ {pos s m}, step pos s = some m → m.taken ++ m.rest = s) (rounds pos : Nat)
    (s : List Char) :
    (iterate step rounds pos s).taken ++ (iterate step rounds pos s).rest = s := by
  induction rounds generalizing pos s with
  | zero => rfl
  | succ rounds ih =>
    rw [iterate]
    split
    · rfl
    · next m hm => simp only [Match.append, List.append_assoc, ih, hstep hm]

theorem run_taken_append_rest {a : Pattern} {pos : Nat} {s : List Char} {m : Match}
    (h : a.run pos s = some m) : m.taken ++ m.rest = s := by
  induction a generalizing pos s m with
  | one p =>
    cases s with
    | nil => simp [run] at h
    | cons c s =>
      simp only [run] at h
      split at h
      · cases h; rfl
      · cases h
  | span p =>
    simp only [run, Option.some.injEq] at h
    subst h
    exact List.takeWhile_append_dropWhile
  | word w =>
    simp only [run] at h
    split at h
    · next hw =>
      cases h
      obtain ⟨t, rfl⟩ := List.isPrefixOf_iff_prefix.mp hw
      simp
    · cases h
  | seq a b iha ihb =>
    simp only [run] at h
    split at h
    · cases h
    · next m' hm =>
      obtain ⟨n, hn, rfl⟩ := Option.map_eq_some_iff.mp h
      simp only [Match.append, List.append_assoc, ihb hn, iha hm]
  | alt a b iha ihb =>
    rcases Option.or_eq_some_iff.mp h with h | h
    · exact iha h
    · exact ihb h.2
  | opt a ih =>
    simp only [run, Option.some.injEq] at h
    cases ha : a.run pos s with
    | none => rw [ha] at h; subst h; rfl
    | some n => rw [ha] at h; subst h; exact ih ha
  | many a ih =>
    simp only [run, Option.some.injEq] at h
    subst h
    exact iterate_taken_append_rest ih ..
  | part r a ih =>
    simp only [run] at h
    obtain ⟨n, hn, rfl⟩ := Option.map_eq_some_iff.mp h
    exact (ih hn :)
  | finish =>
    cases s with
    | nil => simp only [run, Option.some.injEq] at h; subst h; rfl
    | cons c s => simp [run] at h

end Pattern

end MacroScript
