/-
  Lines of a text. A line ends at a line feed; one carriage return right before the line feed
  belongs to the break and not to the line. The text after the last break is a line too, so
  there is always one.
-/

namespace MacroScript.Lines

/-! ## Splitting -/

def split : List Char → List (List Char)
  | [] => [[]]
  | '\n' :: s => [] :: split s
  | '\r' :: '\n' :: s => [] :: split s
  | c :: s => (split s).modifyHead (c :: ·)

theorem split_ne_nil (s : List Char) : split s ≠ [] := by
  fun_induction split s with
  | case1 => simp
  | case2 => simp
  | case3 => simp
  | case4 c s _ _ ih =>
    cases h : split s with
    | nil => exact absurd h ih
    | cons l ls => simp

/-! ## Positions -/

/-- The byte position where line `k` starts, counted from zero: right after line feed number `k`,
and at the start of the text for the first line. -/
def start : List Char → Nat → Nat
  | _, 0 => 0
  | [], _ + 1 => 0
  | c :: s, k + 1 => c.utf8Size + if c = '\n' then start s k else start s (k + 1)

@[simp] theorem start_zero (s : List Char) : start s 0 = 0 := by
  cases s with
  | nil => rfl
  | cons c s => rfl

/-! ## Joining -/

/-- The two ways to end a line. -/
inductive Break where
  | feed
  | returnFeed
  deriving DecidableEq

def Break.text : Break → List Char
  | .feed => ['\n']
  | .returnFeed => ['\r', '\n']

/-- A first line and then lines, each after a break. -/
def join (first : List Char) : List (Break × List Char) → List Char
  | [] => first
  | (b, next) :: rest => first ++ b.text ++ join next rest

end MacroScript.Lines
