import MacroScript.Json.Encode
/-
  Reading tokens and statements back from their JSON values. The member `type` tells the kinds
  of tokens, arguments and pieces apart, and a body of free text is told from a command by being
  an array.
-/

namespace MacroScript

/-! ## Members -/

namespace Json

def text? : Json → Option (List Char)
  | .string s => some s
  | _ => none

def nat? : Json → Option Nat
  | .number n => some n
  | _ => none

def items? : Json → Option (List Json)
  | .array items => some items
  | _ => none

def member? (j : Json) (name : String) : Option Json :=
  match j with
  | .object members => members.lookup name
  | _ => none

def textMember? (j : Json) (name : String) : Option (List Char) := (j.member? name).bind text?

/-- A wait within its range. -/
def waitMember? (j : Json) (name : String) : Option Wait :=
  ((j.member? name).bind nat?).bind fun n =>
    if n ≤ Wait.longest then some (UInt32.ofNat n) else none

end Json

/-! ## Tokens -/

def Token.Kind.all : List Token.Kind := [.whitespace, .command, .string, .placeholder, .wait]

def Token.Kind.ofName? (s : List Char) : Option Token.Kind :=
  Token.Kind.all.find? fun kind => kind.name.toList == s

def Placeholder.ofJson? (j : Json) : Option Placeholder :=
  (j.textMember? "key").map fun key => ⟨key, j.textMember? "value"⟩

def Token.contentOfJson? (kind : Token.Kind) (j : Json) : Option Token.Content :=
  match kind with
  | .whitespace => some .whitespace
  | .command => (j.textMember? "value").map .command
  | .string => (j.textMember? "value").map .string
  | .placeholder => (Placeholder.ofJson? j).map .placeholder
  | .wait => (j.waitMember? "value").map .wait

def Token.ofJson? (j : Json) : Option Token := do
  let raw ← j.textMember? "raw"
  let kind ← Token.Kind.ofName? (← j.textMember? "type")
  let content ← Token.contentOfJson? kind j
  return ⟨content, raw⟩

def Token.listOfJson? (j : Json) : Option (List Token) := j.items?.bind (·.mapM Token.ofJson?)

/-! ## Statements -/

def Argument.ofJson? (j : Json) : Option Argument := do
  let type ← j.textMember? "type"
  if type = "command-arg".toList then (j.textMember? "value").map .value
  else if type = "placeholder".toList then (Placeholder.ofJson? j).map .placeholder
  else none

def Piece.ofJson? (j : Json) : Option Piece := do
  let type ← j.textMember? "type"
  if type = "text".toList then (j.textMember? "value").map .text
  else if type = "placeholder".toList then (Placeholder.ofJson? j).map .placeholder
  else none

def Body.ofJson? (j : Json) : Option Body :=
  match j with
  | .array items => (items.mapM Piece.ofJson?).map .text
  | _ => do
    let name ← j.textMember? "name"
    let args ← (j.member? "args").bind Json.items?
    return .command ⟨name, ← args.mapM Argument.ofJson?⟩

def Statement.ofJson? (j : Json) : Option Statement := do
  let body ← (j.member? "node").bind Body.ofJson?
  let wait ← j.waitMember? "wait"
  return ⟨body, wait⟩

/-- Reads the value of a line, which may say nothing. -/
def Statement.optionOfJson? (j : Json) : Option (Option Statement) :=
  match j with
  | .null => some none
  | _ => (Statement.ofJson? j).map some

end MacroScript
