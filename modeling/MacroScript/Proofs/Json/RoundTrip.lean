import MacroScript.Proofs.Json.Members
/-
  The JSON value of a statement or of a token says everything about it. What is written is read
  back (`Token.ofJson?_toJson`, `Statement.optionOfJson?_optionToJson`), so two that have the same
  value are the same. Main statement: `Json.determines_statements_and_tokens`.
-/

namespace MacroScript

open Json

/-! ## Waits, kinds and lists -/

/-- A wait written as a number is in range and is read back. -/
theorem Json.waitMember?_of_number {j : Json} {name : String} {w : Wait}
    (h : j.member? name = some (.number w.toNat)) : j.waitMember? name = some w := by
  have hrange : w.toNat ≤ Wait.longest := Nat.le_of_lt_succ w.toNat_lt
  unfold waitMember?
  rw [h, Option.bind_some, nat?, Option.bind_some, if_pos hrange, UInt32.ofNat_toNat]

theorem Token.Kind.ofName?_name (kind : Kind) : ofName? kind.name.toList = some kind := by
  cases kind <;> decide

theorem mapM_map_eq_some {α : Type} {write : α → Json} {read : Json → Option α}
    (h : ∀ x, read (write x) = some x) (xs : List α) : (xs.map write).mapM read = some xs := by
  induction xs with
  | nil => rfl
  | cons x xs ih => rw [List.map_cons, List.mapM_cons, h, ih]; rfl

/-- A reader of the same values that reads back what is written tells written values apart. -/
theorem Json.same_iff_eq {α : Type} {write : α → Json} {read : Json → Option α}
    (h : ∀ x, read (write x) = some x) (hcongr : ∀ {j k}, Same j k → read j = read k) (x y : α) :
    Same (write x) (write y) ↔ x = y := by
  constructor
  · intro hsame
    have hread := hcongr hsame
    rwa [h, h, Option.some.injEq] at hread
  · rintro rfl
    exact Same.refl _

/-! ## Placeholders -/

namespace Placeholder

variable {p : Placeholder}

/-- The member for the value is there exactly if there is a value. -/
theorem lookup_valueMember (p : Placeholder) :
    (p.valueMember.lookup "value").bind text? = p.value := by
  obtain ⟨key, value⟩ := p
  cases value with
  | none => rfl
  | some v => rfl

theorem ofJson?_of_members {j : Json} (hkey : j.textMember? "key" = some p.key)
    (hvalue : j.textMember? "value" = p.value) : ofJson? j = some p := by
  rw [ofJson?, hkey, hvalue]
  rfl

theorem ofJson?_toJson (p : Placeholder) : ofJson? p.toJson = some p :=
  ofJson?_of_members rfl p.lookup_valueMember

end Placeholder

/-! ## Tokens -/

namespace Token

theorem textMember?_raw (t : Token) : t.toJson.textMember? "raw" = some t.raw := by
  obtain ⟨content, raw⟩ := t
  cases content <;> rfl

theorem textMember?_type (t : Token) : t.toJson.textMember? "type" = some t.kind.name.toList := by
  obtain ⟨content, raw⟩ := t
  cases content <;> rfl

theorem contentOfJson?_toJson (t : Token) : contentOfJson? t.kind t.toJson = some t.content := by
  obtain ⟨content, raw⟩ := t
  cases content with
  | whitespace => rfl
  | command name => rfl
  | string value => rfl
  | placeholder p =>
    have hp : Placeholder.ofJson? (toJson ⟨.placeholder p, raw⟩) = some p :=
      Placeholder.ofJson?_of_members rfl p.lookup_valueMember
    exact congrArg (Option.map Content.placeholder) hp
  | wait duration =>
    have hwait : (toJson ⟨.wait duration, raw⟩).waitMember? "value" = some duration :=
      waitMember?_of_number rfl
    exact congrArg (Option.map Content.wait) hwait

theorem ofJson?_toJson (t : Token) : ofJson? t.toJson = some t := by
  rw [ofJson?, t.textMember?_raw, t.textMember?_type]
  simp only [Option.bind_eq_bind, Option.bind_some, Kind.ofName?_name, contentOfJson?_toJson]
  rfl

theorem listOfJson?_toJson (ts : List Token) :
    listOfJson? (.array (ts.map toJson)) = some ts :=
  mapM_map_eq_some ofJson?_toJson ts

end Token

/-! ## Arguments and pieces -/

/-- What the member `type` says of an argument. -/
def Argument.tag : Argument → String
  | .value _ => "command-arg"
  | .placeholder _ => "placeholder"

/-- What the member `type` says of a piece of text. -/
def Piece.tag : Piece → String
  | .text _ => "text"
  | .placeholder _ => "placeholder"

theorem Argument.textMember?_type (arg : Argument) :
    arg.toJson.textMember? "type" = some arg.tag.toList := by
  cases arg <;> rfl

theorem Piece.textMember?_type (piece : Piece) :
    piece.toJson.textMember? "type" = some piece.tag.toList := by
  cases piece <;> rfl

theorem Argument.ofJson?_toJson (arg : Argument) : ofJson? arg.toJson = some arg := by
  cases arg with
  | value text => rfl
  | placeholder p => exact congrArg (Option.map Argument.placeholder) p.ofJson?_toJson

theorem Piece.ofJson?_toJson (piece : Piece) : ofJson? piece.toJson = some piece := by
  cases piece with
  | text s => rfl
  | placeholder p => exact congrArg (Option.map Piece.placeholder) p.ofJson?_toJson

/-- A piece and an argument have the same value only where both are one placeholder. -/
theorem Piece.same_toJson_argument_iff {piece : Piece} {arg : Argument} :
    Same piece.toJson arg.toJson ↔ ∃ p, piece = .placeholder p ∧ arg = .placeholder p := by
  constructor
  · intro h
    have htag : piece.tag = arg.tag := by
      rw [← String.toList_inj, ← Option.some.injEq, ← piece.textMember?_type,
        ← arg.textMember?_type]
      exact h.textMember?_eq "type"
    have htext : "text" ≠ "command-arg" ∧ "text" ≠ "placeholder" := by decide
    have hvalue : "placeholder" ≠ "command-arg" := by decide
    cases piece with
    | text s =>
      cases arg with
      | value text => exact absurd htag htext.1
      | placeholder q => exact absurd htag htext.2
    | placeholder p =>
      cases arg with
      | value text => exact absurd htag hvalue
      | placeholder q =>
        obtain rfl : p = q :=
          (same_iff_eq Placeholder.ofJson?_toJson Placeholder.ofJson?_congr p q).mp h
        exact ⟨p, rfl, rfl⟩
  · rintro ⟨p, rfl, rfl⟩
    exact Same.refl p.toJson

/-! ## Statements -/

theorem Body.ofJson?_toJson (body : Body) : ofJson? body.toJson = some body := by
  cases body with
  | command c =>
    have hargs : (c.args.map Argument.toJson).mapM Argument.ofJson? = some c.args :=
      mapM_map_eq_some Argument.ofJson?_toJson c.args
    exact congrArg (Option.bind · fun args => some (Body.command ⟨c.name, args⟩)) hargs
  | text pieces =>
    exact congrArg (Option.map Body.text) (mapM_map_eq_some Piece.ofJson?_toJson pieces)

theorem Statement.ofJson?_toJson (s : Statement) : ofJson? s.toJson = some s := by
  have hbody : (s.toJson.member? "node").bind Body.ofJson? = some s.body := s.body.ofJson?_toJson
  have hwait : s.toJson.waitMember? "wait" = some s.wait := waitMember?_of_number rfl
  rw [ofJson?, hbody, hwait]
  rfl

theorem Statement.optionOfJson?_optionToJson (s : Option Statement) :
    optionOfJson? (optionToJson s) = some s := by
  cases s with
  | none => rfl
  | some s => exact congrArg (Option.map some) s.ofJson?_toJson

/-- **JSON values tell everything.** Every statement, or none, and every list of tokens is read
back from its value. So two of them with the same value, whatever the order of members, are the
same. A command never has the value of free text, a placeholder without a value never that of one
with an empty value, and pieces, arguments and placeholders are told apart by the member `type`. -/
theorem Json.determines_statements_and_tokens :
    (∀ s : Option Statement, Statement.optionOfJson? (Statement.optionToJson s) = some s) ∧
    (∀ ts : List Token, Token.listOfJson? (.array (ts.map Token.toJson)) = some ts) ∧
    (∀ s s' : Option Statement,
      Same (Statement.optionToJson s) (Statement.optionToJson s') ↔ s = s') ∧
    (∀ ts us : List Token,
      Same (.array (ts.map Token.toJson)) (.array (us.map Token.toJson)) ↔ ts = us) ∧
    (∀ c pieces, ¬ Same (Body.command c).toJson (Body.text pieces).toJson) ∧
    (∀ key key', ¬ Same (Placeholder.toJson ⟨key, none⟩) (Placeholder.toJson ⟨key', some []⟩)) ∧
    (∀ key key' raw raw', ¬ Same (Token.toJson ⟨.placeholder ⟨key, none⟩, raw⟩)
      (Token.toJson ⟨.placeholder ⟨key', some []⟩, raw'⟩)) ∧
    (∀ piece : Piece, piece.toJson.textMember? "type" = some piece.tag.toList) ∧
    (∀ arg : Argument, arg.toJson.textMember? "type" = some arg.tag.toList) ∧
    ∀ (piece : Piece) (arg : Argument), Same piece.toJson arg.toJson ↔
      ∃ p, piece = .placeholder p ∧ arg = .placeholder p := by
  refine ⟨Statement.optionOfJson?_optionToJson, Token.listOfJson?_toJson,
    same_iff_eq Statement.optionOfJson?_optionToJson Statement.optionOfJson?_congr,
    same_iff_eq Token.listOfJson?_toJson Token.listOfJson?_congr, ?_, ?_, ?_,
    Piece.textMember?_type, Argument.textMember?_type, fun _ _ => Piece.same_toJson_argument_iff⟩
  · intro c pieces h
    cases h
  · intro key key' h
    have hvalue : (none : Option (List Char)) = some [] := h.textMember?_eq "value"
    cases hvalue
  · intro key key' raw raw' h
    have hvalue : (none : Option (List Char)) = some [] := h.textMember?_eq "value"
    cases hvalue

end MacroScript
