import MacroScript.Wait
/-
  Tokens of a script line, and what can be wrong with a script, which names a kind of token. A
  token keeps the raw text it was read from beside what it means.
-/

namespace MacroScript

/-! ## Placeholders -/

/-- A key to be filled in when the line is run, with an optional default. -/
structure Placeholder where
  key : List Char
  value : Option (List Char)
  deriving DecidableEq

/-- The text of a placeholder in a line. -/
def Placeholder.written (p : Placeholder) : List Char :=
  '<' :: p.key ++ p.value.elim [] ('.' :: ·) ++ ['>']

/-! ## Tokens -/

/-- What a token means. -/
inductive Token.Content where
  | whitespace
  /-- A command head, by the name after the slash. -/
  | command (name : List Char)
  /-- Bare text, or the text between two quotes. -/
  | string (value : List Char)
  | placeholder (p : Placeholder)
  /-- A pause after the line. -/
  | wait (duration : Wait)
  deriving DecidableEq

structure Token where
  content : Token.Content
  raw : List Char
  deriving DecidableEq

namespace Token

/-- The token of bare text. -/
def text (s : List Char) : Token := ⟨.string s, s⟩

/-- The text of a list of tokens. -/
def raws (ts : List Token) : List Char := ts.flatMap Token.raw

@[simp] theorem raws_nil : raws [] = [] := rfl

@[simp] theorem raws_cons (t : Token) (ts : List Token) : raws (t :: ts) = t.raw ++ raws ts := rfl

@[simp] theorem raws_append (ts us : List Token) : raws (ts ++ us) = raws ts ++ raws us :=
  List.flatMap_append

/-! ## Kinds -/

inductive Kind where
  | whitespace
  | command
  | string
  | placeholder
  | wait
  deriving DecidableEq

def Kind.name : Kind → String
  | .whitespace => "whitespace"
  | .command => "command"
  | .string => "string"
  | .placeholder => "placeholder"
  | .wait => "wait"

def Content.kind : Content → Kind
  | .whitespace => .whitespace
  | .command _ => .command
  | .string _ => .string
  | .placeholder _ => .placeholder
  | .wait _ => .wait

def kind (t : Token) : Kind := t.content.kind

def isWhitespace (t : Token) : Bool := t.kind = .whitespace

end Token

/-! ## Errors -/

inductive ScriptError where
  /-- The text does not match the pattern. -/
  | noMatch
  /-- A token stands where no argument of its kind can. -/
  | unexpectedToken (kind : Token.Kind)
  deriving DecidableEq

/-- The message of an error, where it has one. -/
def ScriptError.message? : ScriptError → Option String
  | .noMatch => none
  | .unexpectedToken kind => some ("unexpected token: " ++ kind.name)

end MacroScript
