import MacroScript.Statement.Basic
import MacroScript.Text.Lines
import MacroScript.Token.OfLine
/-
  What tokens, lines and scripts say. The first wait ends a line and everything after it is
  dropped; what is left says nothing if it is empty, is a command if it begins with one, and else
  is free text. A script is a text of many lines, each of which says something of its own or
  nothing.
-/

namespace MacroScript

/-! ## The wait of a line -/

/-- The tokens before the first wait, and that wait, zero if there is none. -/
def Token.cutAtWait : List Token → List Token × Wait
  | [] => ([], 0)
  | t :: ts =>
    match t.content with
    | .wait duration => ([], duration)
    | _ => let (before, duration) := cutAtWait ts; (t :: before, duration)

/-! ## Arguments of a command -/

/-- A string is an argument by its value, a placeholder as it is; nothing else is one. -/
def Argument.ofToken (t : Token) : Except ScriptError Argument :=
  match t.content with
  | .string text => .ok (.value text)
  | .placeholder p => .ok (.placeholder p)
  | _ => .error (.unexpectedToken t.kind)

/-- The arguments after a command head. Whitespace only separates them. -/
def Argument.ofTokens (ts : List Token) : Except ScriptError (List Argument) :=
  (ts.filter fun t => !t.isWhitespace).mapM Argument.ofToken

/-! ## Pieces of free text -/

/-- Puts text in front of pieces, joined to a first piece of text. -/
def Piece.addText (s : List Char) : List Piece → List Piece
  | .text s' :: ps => .text (s ++ s') :: ps
  | ps => .text s :: ps

/-- The pieces of free text. Placeholders stand alone; everything else is its raw text, one
piece for each run of it. -/
def Piece.ofTokens : List Token → List Piece
  | [] => []
  | t :: ts =>
    match t.content with
    | .placeholder p => .placeholder p :: Piece.ofTokens ts
    | _ => Piece.addText t.raw (Piece.ofTokens ts)

/-! ## Statements -/

/-- What the tokens before a wait say, if they say anything. -/
def Body.ofTokens : List Token → Except ScriptError (Option Body)
  | [] => .ok none
  | first :: rest =>
    match first.content with
    | .command name => (Argument.ofTokens rest).map fun args => some (.command ⟨name, args⟩)
    | _ => .ok (some (.text (Piece.ofTokens (first :: rest))))

/-- The statement of a line of tokens, if the line says anything. -/
def Statement.ofTokens (ts : List Token) : Except ScriptError (Option Statement) :=
  let (before, wait) := Token.cutAtWait ts
  (Body.ofTokens before).map fun body => body.map fun b => ⟨b, wait⟩

/-! ## Lines and scripts -/

/-- What one line says. -/
def Statement.ofLine (line : List Char) : Except ScriptError (Option Statement) :=
  Statement.ofTokens (Token.ofLine line)

namespace Script

/-- The result of every line. -/
def results (script : List Char) : List (Except ScriptError (Option Statement)) :=
  (Lines.split script).map Statement.ofLine

/-- What every line says, or the first error. -/
def statements (script : List Char) : Except ScriptError (List (Option Statement)) :=
  (Lines.split script).mapM Statement.ofLine

end Script

end MacroScript
