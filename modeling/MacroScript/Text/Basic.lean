/-
  Texts: lists of characters. Space characters separate the words of a line and end a command
  name. Positions in a text are counted in bytes of UTF-8. A position between two characters is a
  boundary; `splitAtByte?` cuts a text at a boundary and refuses every other position, and
  `slice?` takes the text between two boundaries.
-/

namespace MacroScript

/-! ## Spaces -/

/-- The inclusive code point ranges of the space characters: tab to carriage return, the space
separators of Unicode, the line and paragraph separators, and the byte order mark. The next line
control U+0085 and the zero width space U+200B are not among them. -/
def spaceRanges : List (Nat × Nat) :=
  [(0x09, 0x0D), (0x20, 0x20), (0xA0, 0xA0), (0x1680, 0x1680), (0x2000, 0x200A),
    (0x2028, 0x2029), (0x202F, 0x202F), (0x205F, 0x205F), (0x3000, 0x3000), (0xFEFF, 0xFEFF)]

def isSpace (c : Char) : Bool :=
  spaceRanges.any fun range => range.1 ≤ c.toNat && c.toNat ≤ range.2

theorem isSpace_of_isDigit {c : Char} (h : c.isDigit = true) : isSpace c = false := by
  have hrange : 48 ≤ c.toNat ∧ c.toNat ≤ 57 := Char.isDigit_iff_toNat.mp h
  simp only [isSpace, spaceRanges, List.any_cons, List.any_nil, Bool.or_false, Bool.or_eq_false_iff,
    Bool.and_eq_false_iff, decide_eq_false_iff_not]
  omega

/-! ## Sizes -/

/-- The number of bytes that a text takes in UTF-8. -/
def byteSize : List Char → Nat
  | [] => 0
  | c :: s => c.utf8Size + byteSize s

@[simp] theorem byteSize_nil : byteSize [] = 0 := rfl

@[simp] theorem byteSize_cons (c : Char) (s : List Char) :
    byteSize (c :: s) = c.utf8Size + byteSize s := rfl

@[simp] theorem byteSize_append (s t : List Char) :
    byteSize (s ++ t) = byteSize s + byteSize t := by
  induction s with
  | nil => simp
  | cons c s ih => simp [ih, Nat.add_assoc]

/-! ## Cutting at a boundary -/

/-- The text before byte position `n` and the text from there on. There is none if `n` lies past
the end or inside a character. -/
def splitAtByte? : List Char → Nat → Option (List Char × List Char)
  | s, 0 => some ([], s)
  | [], _ + 1 => none
  | c :: s, n + 1 =>
    if c.utf8Size ≤ n + 1 then
      (splitAtByte? s (n + 1 - c.utf8Size)).map fun cut => (c :: cut.1, cut.2)
    else none

theorem splitAtByte?_append (a b : List Char) :
    splitAtByte? (a ++ b) (byteSize a) = some (a, b) := by
  induction a with
  | nil => cases b <;> rfl
  | cons c a ih =>
    obtain ⟨n, hn⟩ : ∃ n, byteSize (c :: a) = n + 1 :=
      ⟨byteSize (c :: a) - 1, by have := c.utf8Size_pos; simp; omega⟩
    have hc : c.utf8Size ≤ n + 1 := by simp at hn; omega
    have hr : n + 1 - c.utf8Size = byteSize a := by simp at hn; omega
    rw [hn, List.cons_append, splitAtByte?, if_pos hc, hr, ih]
    rfl

/-- A text is cut at the byte sizes of its initial parts, and nowhere else. -/
theorem splitAtByte?_eq_some_iff {s a b : List Char} {n : Nat} :
    splitAtByte? s n = some (a, b) ↔ a ++ b = s ∧ byteSize a = n := by
  constructor
  · intro h
    induction s generalizing n a with
    | nil =>
      cases n with
      | zero =>
        simp only [splitAtByte?, Option.some.injEq, Prod.mk.injEq] at h
        simp [← h.1, ← h.2]
      | succ n => simp [splitAtByte?] at h
    | cons c s ih =>
      cases n with
      | zero =>
        simp only [splitAtByte?, Option.some.injEq, Prod.mk.injEq] at h
        simp [← h.1, ← h.2]
      | succ n =>
        rw [splitAtByte?] at h
        split at h
        · obtain ⟨⟨a', b'⟩, hs, hab⟩ := Option.map_eq_some_iff.mp h
          simp only [Prod.mk.injEq] at hab
          obtain ⟨rfl, rfl⟩ := hab
          obtain ⟨hcat, hsize⟩ := ih hs
          exact ⟨by simp [hcat], by simp; omega⟩
        · simp at h
  · rintro ⟨rfl, rfl⟩
    exact splitAtByte?_append a b

/-- The text between the byte positions `start` and `stop`. -/
def slice? (s : List Char) (start stop : Nat) : Option (List Char) :=
  if start ≤ stop then do
    let (_, tail) ← splitAtByte? s start
    let (middle, _) ← splitAtByte? tail (stop - start)
    return middle
  else none

theorem slice?_append (a b c : List Char) :
    slice? (a ++ b ++ c) (byteSize a) (byteSize a + byteSize b) = some b := by
  simp only [slice?, Nat.le_add_right, if_true, List.append_assoc, splitAtByte?_append,
    Nat.add_sub_cancel_left, Option.bind_eq_bind, Option.bind_some]
  rfl

theorem slice?_eq_some_iff {s u : List Char} {start stop : Nat} :
    slice? s start stop = some u ↔ ∃ before after,
      s = before ++ (u ++ after) ∧ byteSize before = start ∧ start + byteSize u = stop := by
  constructor
  · intro h
    unfold slice? at h
    split at h
    · next hle =>
      obtain ⟨⟨before, tail⟩, hcut, h⟩ := Option.bind_eq_some_iff.mp h
      obtain ⟨⟨middle, after⟩, hcut', h⟩ := Option.bind_eq_some_iff.mp h
      obtain rfl : middle = u := Option.some.inj h
      obtain ⟨rfl, rfl⟩ := splitAtByte?_eq_some_iff.mp hcut
      obtain ⟨rfl, hsize⟩ := splitAtByte?_eq_some_iff.mp hcut'
      exact ⟨before, after, rfl, rfl, by omega⟩
    · cases h
  · rintro ⟨before, after, rfl, rfl, rfl⟩
    rw [← List.append_assoc]
    exact slice?_append before u after

/-- Two slices that meet make one. -/
theorem slice?_append_slice? {s u v : List Char} {start middle stop : Nat}
    (hu : slice? s start middle = some u) (hv : slice? s middle stop = some v) :
    slice? s start stop = some (u ++ v) := by
  obtain ⟨before, after, hs, hstart, hmiddle⟩ := slice?_eq_some_iff.mp hu
  obtain ⟨before', after', hs', hmiddle', hstop⟩ := slice?_eq_some_iff.mp hv
  have hcut : splitAtByte? s middle = some (before ++ u, after) :=
    splitAtByte?_eq_some_iff.mpr ⟨by rw [hs, List.append_assoc], by rw [byteSize_append]; omega⟩
  have hcut' : splitAtByte? s middle = some (before', v ++ after') :=
    splitAtByte?_eq_some_iff.mpr ⟨hs'.symm, hmiddle'⟩
  rw [hcut'] at hcut
  obtain ⟨-, rfl⟩ := Prod.mk.inj (Option.some.inj hcut)
  refine slice?_eq_some_iff.mpr ⟨before, after', by rw [hs, List.append_assoc], hstart, ?_⟩
  rw [byteSize_append]
  omega

end MacroScript
