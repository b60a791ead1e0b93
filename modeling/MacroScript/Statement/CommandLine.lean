import MacroScript.Statement.Basic
import MacroScript.Token.Canonical
/-
  Command lines as they are written: a name, then arguments with some spaces before each, and
  at the end a wait with some spaces before it, or none.
-/

namespace MacroScript

/-- One space or more, in front of a word of a line. -/
structure Gap where
  text : List Char
  ne_nil : text ≠ []
  isSpace_of_mem : ∀ c ∈ text, isSpace c = true

/-- An argument whose written form reads back: a value without a quote, or a placeholder whose
key does not ask for a wait. -/
def Argument.Writable : Argument → Prop
  | .value text => '"' ∉ text
  | .placeholder p => p.Writable ∧ p.key ≠ Wait.key

/-- The directive that asks for a wait by its decimal numeral. -/
def Wait.written (w : Wait) : List Char :=
  Placeholder.written ⟨Wait.key, some (Nat.toDigits 10 w.toNat)⟩

structure CommandLine where
  name : List Char
  args : List (Gap × Argument)
  wait : Option (Gap × Wait)

namespace CommandLine

def writtenArgs (args : List (Gap × Argument)) : List Char :=
  args.flatMap fun a => a.1.text ++ a.2.written

def writtenWait (wait : Option (Gap × Wait)) : List Char :=
  wait.elim [] fun w => w.1.text ++ w.2.written

/-- The text of the line. -/
def written (l : CommandLine) : List Char :=
  '/' :: l.name ++ (writtenArgs l.args ++ writtenWait l.wait)

/-- The name is a word, and every argument reads back. -/
structure Writable (l : CommandLine) : Prop where
  name_ne_nil : l.name ≠ []
  name_chars : ∀ c ∈ l.name, isSpace c = false
  args_writable : ∀ a ∈ l.args, a.2.Writable

end CommandLine

end MacroScript
