import MacroScript.Token.Basic
/-
  Tokens of a line, read off the parts of its match. Neighbouring bare characters become one
  token; every other part becomes a token of its own.
-/

namespace MacroScript

/-- The directive key that asks for a wait. -/
def Wait.key : List Char := ['w', 'a', 'i', 't']

/-- The wait of a directive that names none. -/
def Wait.implied : Wait := 1

namespace Token

/-! ## Tokens of parts -/

/-- The token of a directive with a key and an optional value. -/
def ofDirective (key : List Char) (value : Option (List Char)) (raw : List Char) : Token :=
  if key = Wait.key then ⟨.wait (value.elim Wait.implied Wait.ofArgument), raw⟩
  else ⟨.placeholder ⟨key, value⟩, raw⟩

/-- The token of a part that stands for one token. -/
def ofPart? (p : Part) : Option Token :=
  match p.rule, p.inner with
  | .command, name :: _ => some ⟨.command name.text, p.text⟩
  | .quoted, inner => some ⟨.string (inner.head?.elim [] Part.text), p.text⟩
  | .directive, key :: inner => some (ofDirective key.text (inner.head?.map Part.text) p.text)
  | .blank, _ => some ⟨.whitespace, p.text⟩
  | _, _ => none

/-- Puts the token of a run of bare characters, if there are any, in front of tokens. -/
def flush (run : List Char) (ts : List Token) : List Token :=
  if run.isEmpty then ts else text run :: ts

/-- The run of bare characters at the front of a list of parts, and the tokens after it. -/
def collect : List Part → List Char × List Token
  | [] => ([], [])
  | p :: ps =>
    let (run, ts) := collect ps
    if p.rule = .bare then (p.text ++ run, ts)
    else ([], (ofPart? p).toList ++ flush run ts)

def ofParts (ps : List Part) : List Token :=
  let (run, ts) := collect ps
  flush run ts

/-! ## Runs by position -/

/-- The token of an open run of bare characters, if there is one, cut out of the line between
its byte positions. -/
def sliceRun? (line : List Char) : Option (Nat × Nat) → Option (List Token)
  | none => some []
  | some (start, stop) => (slice? line start stop).map fun s => [text s]

/-- The tokens of parts, where a run of bare characters is kept as two byte positions until it
is closed. There are none if a cut is out of range or inside a character. -/
def ofSlices? (line : List Char) : Option (Nat × Nat) → List Part → Option (List Token)
  | run, [] => sliceRun? line run
  | run, p :: ps =>
    if p.rule = .bare then ofSlices? line (some (run.elim p.start Prod.fst, p.stop)) ps
    else do
      let before ← sliceRun? line run
      let after ← ofSlices? line none ps
      return before ++ ((ofPart? p).toList ++ after)

/-! ## Tokens of lines -/

/-- The tokens of a line, or the failure of its match. -/
def ofLine? (line : List Char) : Except ScriptError (List Token) :=
  match Grammar.line.parts? line with
  | none => .error .noMatch
  | some parts => .ok (parts.head?.elim [] fun whole => ofParts whole.inner)

/-- The tokens of a line. A line without a match is bare text. -/
def ofLine (line : List Char) : List Token :=
  match ofLine? line with
  | .ok ts => ts
  | .error _ => flush line []

end Token

end MacroScript
