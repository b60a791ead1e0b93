import MacroScript.Text.Basic
/-
  Completions for an editor of scripts. One is offered right after a slash that begins a line
  and right after any opening angle bracket; it replaces that character.
-/

namespace MacroScript

/-! ## Suggestions -/

inductive SuggestionKind where
  | keyword
  deriving DecidableEq

def SuggestionKind.name : SuggestionKind → String
  | .keyword => "keyword"

structure Suggestion where
  label : String
  kind : SuggestionKind
  detail : String
  deriving DecidableEq

/-- The suggestions that every completion offers. -/
def suggestions : List Suggestion := [⟨"/?", .keyword, ""⟩]

/-! ## Completions -/

/-- What a completion would begin. -/
inductive Trigger where
  | command
  | placeholder
  deriving DecidableEq

def Trigger.name : Trigger → String
  | .command => "command"
  | .placeholder => "placeholder"

/-- The character after which a completion of this sort is offered. -/
def Trigger.char : Trigger → Char
  | .command => '/'
  | .placeholder => '<'

/-- A completion of the text from the byte position `start` up to the cursor. -/
structure Completion where
  start : Nat
  trigger : Trigger
  options : List Suggestion
  deriving DecidableEq

/-- The text after the last line feed. -/
def currentLine (before : List Char) : List Char :=
  (before.reverse.takeWhile (· != '\n')).reverse

/-- What can be completed at the end of a line. -/
def Trigger.atEnd? (line : List Char) : Option Trigger :=
  if line = [Trigger.command.char] then some .command
  else if line.getLast? = some Trigger.placeholder.char then some .placeholder
  else none

/-- The completion at a cursor, a byte position in the text. -/
def Completion.atCursor? (text : List Char) (cursor : Nat) : Option Completion := do
  let (before, _) ← splitAtByte? text cursor
  let trigger ← Trigger.atEnd? (currentLine before)
  return ⟨cursor - trigger.char.utf8Size, trigger, suggestions⟩

end MacroScript
