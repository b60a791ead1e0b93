import MacroScript.Completion
import MacroScript.Grammar.Pattern
import MacroScript.Json.Basic
import MacroScript.Statement.Basic
/-
  The JSON values of parts, tokens, statements and completions. The members of every object are
  in the order of their names. A placeholder without a value has no member for it.
-/

namespace MacroScript

/-! ## Parts -/

mutual

def Part.toJson : Part → Json
  | ⟨rule, start, text, inner⟩ =>
    .object [("end", .number (start + byteSize text)), ("inner", .array (Part.listToJson inner)),
      ("rule", .ofString rule.name), ("start", .number start)]

def Part.listToJson : List Part → List Json
  | [] => []
  | p :: ps => p.toJson :: Part.listToJson ps

end

/-! ## Tokens -/

/-- The member for the value of a placeholder, if there is one. -/
def Placeholder.valueMember (p : Placeholder) : List (String × Json) :=
  p.value.elim [] fun value => [("value", .string value)]

def Token.typeMember (t : Token) : String × Json := ("type", .ofString t.kind.name)

def Token.toJson (t : Token) : Json :=
  let raw := ("raw", Json.string t.raw)
  match t.content with
  | .whitespace => .object [raw, t.typeMember]
  | .command name => .object [raw, t.typeMember, ("value", .string name)]
  | .string value => .object [raw, t.typeMember, ("value", .string value)]
  | .placeholder p => .object (("key", .string p.key) :: raw :: t.typeMember :: p.valueMember)
  | .wait duration => .object [raw, t.typeMember, ("value", .number duration.toNat)]

/-! ## Statements -/

def Placeholder.toJson (p : Placeholder) : Json :=
  .object (("key", .string p.key) :: ("type", .ofString "placeholder") :: p.valueMember)

def Argument.toJson : Argument → Json
  | .value text => .object [("type", .ofString "command-arg"), ("value", .string text)]
  | .placeholder p => p.toJson

def Piece.toJson : Piece → Json
  | .text s => .object [("type", .ofString "text"), ("value", .string s)]
  | .placeholder p => p.toJson

def Body.toJson : Body → Json
  | .command c =>
    .object [("args", .array (c.args.map Argument.toJson)), ("name", .string c.name),
      ("type", .ofString "command")]
  | .text pieces => .array (pieces.map Piece.toJson)

def Statement.toJson (s : Statement) : Json :=
  .object [("node", s.body.toJson), ("wait", .number s.wait.toNat)]

/-- The value of a line, which may say nothing. -/
def Statement.optionToJson (s : Option Statement) : Json := s.elim .null Statement.toJson

/-! ## Completions -/

def Suggestion.toJson (s : Suggestion) : Json :=
  .object [("detail", .ofString s.detail), ("kind", .ofString s.kind.name),
    ("label", .ofString s.label)]

def Completion.toJson (c : Completion) : Json :=
  .object [("from", .number c.start), ("options", .array (c.options.map Suggestion.toJson)),
    ("trigger", .ofString c.trigger.name)]

end MacroScript
