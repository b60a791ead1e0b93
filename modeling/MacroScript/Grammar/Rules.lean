import MacroScript.Grammar.Pattern
import MacroScript.Number
import MacroScript.Text.Basic
/-
  The patterns of a script line. A line is a command head, if it begins with one, and then
  quoted strings, directives, single bare characters and blanks up to its end; a quote or a
  directive that is not complete falls through to bare characters.
-/

namespace MacroScript.Grammar

/-! ## Characters -/

def space : Pattern := .one isSpace

def isSign (c : Char) : Bool := c == '+' || c == '-'

def isExponentMark (c : Char) : Bool := c == 'e' || c == 'E'

def isKeyChar (c : Char) : Bool := c != '>' && c != '.'

/-! ## Tokens of a line -/

def commandName : Pattern := .part .commandName (.span1 fun c => !isSpace c)

/-- A slash and the longest run of other characters than spaces. -/
def command : Pattern := .part .command (.seq (.word ['/']) commandName)

def quotedText : Pattern := .part .quotedText (.span (· != '"'))

def quoted : Pattern := .part .quoted (.seq (.word ['"']) (.seq quotedText (.word ['"'])))

def directiveKey : Pattern := .part .directiveKey (.span1 isKeyChar)

def directiveValue : Pattern := .part .directiveValue (.span1 (· != '>'))

/-- A key in angle brackets, alone or with a dot and a value. -/
def directive : Pattern :=
  .part .directive <| .seq (.word ['<']) <| .seq directiveKey <|
    .seq (.opt (.seq (.word ['.']) directiveValue)) (.word ['>'])

def bare : Pattern := .part .bare (.one fun c => !isSpace c)

def blank : Pattern := .part .blank (.span1 isSpace)

def token : Pattern := .alt quoted (.alt directive (.alt bare blank))

def line : Pattern := .part .line (.seq (.opt command) (.seq (.many token) .finish))

/-! ## Numbers -/

def sign : Pattern := .one isSign

def exponent : Pattern := .seq (.one isExponentMark) (.seq (.opt sign) (.span1 Char.isDigit))

/-- Digits with an optional point, which has a digit before it or after it. -/
def digits : Pattern :=
  .alt (.seq (.span1 Char.isDigit) (.opt (.seq (.word ['.']) (.span Char.isDigit))))
    (.seq (.word ['.']) (.span1 Char.isDigit))

def decimal : Pattern :=
  .part .decimal <| .seq (.opt sign) <|
    .alt (.word Decimal.infinityWord) (.seq digits (.opt exponent))

/-- The number at the start of a wait argument, after any spaces. -/
def waitArgument : Pattern := .part .waitArgument (.seq (.span isSpace) decimal)

/-! ## Patterns by name -/

def patterns : List (String × Pattern) :=
  [("line", line), ("token", token), ("space", space), ("command", command),
    ("command_name", commandName), ("quoted", quoted), ("quoted_text", quotedText),
    ("directive", directive), ("directive_key", directiveKey),
    ("directive_value", directiveValue), ("bare", bare), ("blank", blank), ("sign", sign),
    ("exponent", exponent), ("digits", digits), ("decimal", decimal),
    ("wait_arg", waitArgument)]

def named? (name : String) : Option Pattern := patterns.lookup name

end MacroScript.Grammar
