/-
  JSON values and their text. The text is compact. Control characters, the quote, the backslash
  and the line breaks of Unicode are escaped; every other character stands for itself.
-/

namespace MacroScript

inductive Json where
  | null
  | bool (b : Bool)
  | number (n : Nat)
  | string (s : List Char)
  | array (items : List Json)
  /-- The members of an object, in the order in which they are written. -/
  | object (members : List (String × Json))

namespace Json

/-- A string value with the characters of a literal. -/
def ofString (s : String) : Json := .string s.toList

/-! ## Text -/

/-- The four lower-case hexadecimal digits of a code point below 65536. -/
def hexDigits (n : Nat) : List Char :=
  [n / 4096 % 16, n / 256 % 16, n / 16 % 16, n % 16].map Nat.digitChar

/-- Whether a character is written by its code point. -/
def isHidden (c : Char) : Bool :=
  c.toNat < 0x20 || c.toNat == 0x85 || c.toNat == 0x2028 || c.toNat == 0x2029

def escape (c : Char) : List Char :=
  if c = '"' then ['\\', '"']
  else if c = '\\' then ['\\', '\\']
  else if c = '\n' then ['\\', 'n']
  else if c = '\r' then ['\\', 'r']
  else if c = '\t' then ['\\', 't']
  else if c = '\x08' then ['\\', 'b']
  else if c = '\x0c' then ['\\', 'f']
  else if isHidden c then '\\' :: 'u' :: hexDigits c.toNat
  else [c]

def renderString (s : List Char) : List Char := '"' :: s.flatMap escape ++ ['"']

/-- Texts with a comma between each two. -/
def commaSeparated : List (List Char) → List Char
  | [] => []
  | [s] => s
  | s :: ss => s ++ ',' :: commaSeparated ss

mutual

def render : Json → List Char
  | .null => "null".toList
  | .bool b => if b then "true".toList else "false".toList
  | .number n => Nat.toDigits 10 n
  | .string s => renderString s
  | .array items => '[' :: commaSeparated (renderItems items) ++ [']']
  | .object members => '\x7b' :: commaSeparated (renderMembers members) ++ ['\x7d']

def renderItems : List Json → List (List Char)
  | [] => []
  | j :: js => render j :: renderItems js

def renderMembers : List (String × Json) → List (List Char)
  | [] => []
  | (name, j) :: members => (renderString name.toList ++ ':' :: render j) :: renderMembers members

end

end Json

end MacroScript
