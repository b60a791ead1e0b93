import MacroScript.Token.Basic
/-
  Statements: what one line of a script says. A line is a command with arguments or free text
  with placeholders in it, followed by a wait. Pieces of text and arguments have a written form,
  which a line holds to say them. A value is written between quotes, so its written form says it
  only if it holds no quote itself.
-/

namespace MacroScript

/-! ## Statements -/

/-- An argument of a command. -/
inductive Argument where
  | value (text : List Char)
  | placeholder (p : Placeholder)
  deriving DecidableEq

structure Command where
  name : List Char
  args : List Argument
  deriving DecidableEq

/-- A piece of free text. -/
inductive Piece where
  | text (s : List Char)
  | placeholder (p : Placeholder)
  deriving DecidableEq

inductive Body where
  | command (c : Command)
  | text (pieces : List Piece)
  deriving DecidableEq

structure Statement where
  body : Body
  /-- The pause after the line. -/
  wait : Wait
  deriving DecidableEq

namespace Statement

def command? (s : Statement) : Option Command :=
  match s.body with
  | .command c => some c
  | .text _ => none

def text? (s : Statement) : Option (List Piece) :=
  match s.body with
  | .command _ => none
  | .text pieces => some pieces

end Statement

/-! ## Written forms -/

def Piece.written : Piece → List Char
  | .text s => s
  | .placeholder p => p.written

/-- The written form of free text. -/
def Piece.writtenAll (pieces : List Piece) : List Char := pieces.flatMap Piece.written

def Argument.written : Argument → List Char
  | .value text => '"' :: text ++ ['"']
  | .placeholder p => p.written

@[simp] theorem Piece.writtenAll_nil : Piece.writtenAll [] = [] := rfl

@[simp] theorem Piece.writtenAll_cons (p : Piece) (ps : List Piece) :
    Piece.writtenAll (p :: ps) = p.written ++ Piece.writtenAll ps := rfl

end MacroScript
