import MacroScript.Token.OfLine
/-
  The canonical form of a line's tokens: each token is well formed on its own, a command stands
  first or nowhere, no two neighbours could be one token, and no bare token holds the beginning
  of a quoted string or of a directive. Stated on the tokens and their texts, without patterns.
-/

namespace MacroScript

/-! ## What a text begins with -/

/-- A placeholder whose written form reads back: the key has no dot, neither part an end mark. -/
structure Placeholder.Writable (p : Placeholder) : Prop where
  key_ne_nil : p.key ≠ []
  key_chars : ∀ c ∈ p.key, c ≠ '>' ∧ c ≠ '.'
  value_ne_nil : ∀ v ∈ p.value, v ≠ []
  value_chars : ∀ v ∈ p.value, '>' ∉ v

/-- The text begins with a quote, and a second quote closes it. -/
def BeginsQuoted (s : List Char) : Prop :=
  ∃ value rest, '"' ∉ value ∧ s = '"' :: value ++ '"' :: rest

/-- The text begins with a key, or a key and a value, between angle brackets. -/
def BeginsDirective (s : List Char) : Prop :=
  ∃ p : Placeholder, p.Writable ∧ ∃ rest, s = p.written ++ rest

/-- The text begins with a slash and a character that is no space. -/
def BeginsCommand (s : List Char) : Prop :=
  ∃ c rest, isSpace c = false ∧ s = '/' :: c :: rest

/-- The text begins with a wait, alone or with an argument, between angle brackets. -/
def BeginsWait (s : List Char) : Prop :=
  (∃ rest, s = "<wait>".toList ++ rest) ∨
    ∃ argument rest, argument ≠ [] ∧ '>' ∉ argument ∧
      s = "<wait.".toList ++ argument ++ '>' :: rest

namespace Token

/-! ## One token -/

/-- The content of a token is what its raw text says. -/
def WellFormed (t : Token) : Prop :=
  match t.content with
  | .whitespace => t.raw ≠ [] ∧ ∀ c ∈ t.raw, isSpace c = true
  | .command name => t.raw = '/' :: name ∧ name ≠ [] ∧ ∀ c ∈ name, isSpace c = false
  | .string value =>
    t.raw = '"' :: value ++ ['"'] ∧ '"' ∉ value ∨
      t.raw = value ∧ value ≠ [] ∧ ∀ c ∈ value, isSpace c = false
  | .placeholder p => p.Writable ∧ p.key ≠ Wait.key ∧ t.raw = p.written
  | .wait duration =>
    ∃ value, Placeholder.Writable ⟨Wait.key, value⟩ ∧
      t.raw = Placeholder.written ⟨Wait.key, value⟩ ∧
      duration = value.elim Wait.implied Wait.ofArgument

/-- A string without quotes around it. -/
def IsBare (t : Token) : Prop := t.content = .string t.raw

theorem isBare_text (s : List Char) : (text s).IsBare := rfl

/-! ## Lists of tokens -/

/-- A command is followed by whitespace or by nothing, and no command comes later. -/
def CommandFirst : List Token → Prop
  | [] => True
  | t :: ts => (t.kind = .command → ∀ u ∈ ts.head?, u.kind = .whitespace) ∧
      ∀ u ∈ ts, u.kind ≠ .command

/-- No two neighbours are both whitespace or both bare. -/
def Separated : List Token → Prop
  | [] => True
  | t :: ts => (∀ u ∈ ts.head?, ¬ (t.kind = .whitespace ∧ u.kind = .whitespace) ∧
      ¬ (t.IsBare ∧ u.IsBare)) ∧ Separated ts

/-- From no character of a bare token on does the text begin with a quoted string or with a
directive. -/
def NoneMissed : List Token → Prop
  | [] => True
  | t :: ts => (t.IsBare → ∀ before c after, t.raw = before ++ c :: after →
      ¬ BeginsQuoted (c :: after ++ raws ts) ∧ ¬ BeginsDirective (c :: after ++ raws ts)) ∧
      NoneMissed ts

/-- The tokens are a reading of the line. -/
structure Reads (line : List Char) (ts : List Token) : Prop where
  raws_eq : raws ts = line
  wellFormed : ∀ t ∈ ts, t.WellFormed
  commandFirst : CommandFirst ts
  command_of_begins : BeginsCommand line → ∃ t ∈ ts.head?, t.kind = .command
  separated : Separated ts
  noneMissed : NoneMissed ts

end Token

end MacroScript
