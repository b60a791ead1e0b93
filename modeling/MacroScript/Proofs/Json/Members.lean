import Mathlib.Data.List.Forall2
import MacroScript.Json.Decode
/-
  JSON values whatever the order of their members. An object is what its names find in it, so
  two objects are the same if each name finds the same in both (`Json.Same`). Tokens and
  statements are read by the names of members, so the same values are read alike
  (`Token.listOfJson?_congr`, `Statement.optionOfJson?_congr`).
-/

namespace MacroScript

namespace Json

/-! ## The same value -/

/-- Two values are the same but for the order of members: every name finds the same value in an
object and in its counterpart, or none in both. -/
inductive Same : Json → Json → Prop where
  | null : Same .null .null
  | bool (b : Bool) : Same (.bool b) (.bool b)
  | number (n : Nat) : Same (.number n) (.number n)
  | string (s : List Char) : Same (.string s) (.string s)
  | array {items items' : List Json} (hitems : List.Forall₂ Same items items') :
    Same (.array items) (.array items')
  | object {members members' : List (String × Json)}
    (hmembers : ∀ name, Option.Rel Same (members.lookup name) (members'.lookup name)) :
    Same (.object members) (.object members')

mutual

theorem Same.refl : (j : Json) → Same j j
  | .null => .null
  | .bool b => .bool b
  | .number n => .number n
  | .string s => .string s
  | .array items => .array (Same.refl_items items)
  | .object members => .object fun name => Same.refl_lookup members name

theorem Same.refl_items : (items : List Json) → List.Forall₂ Same items items
  | [] => .nil
  | j :: js => .cons (Same.refl j) (Same.refl_items js)

theorem Same.refl_lookup : (members : List (String × Json)) → (name : String) →
    Option.Rel Same (members.lookup name) (members.lookup name)
  | [], _ => .none
  | (name', j) :: members, name => by
    rw [List.lookup_cons]
    cases name == name' with
    | true => exact .some (Same.refl j)
    | false => exact Same.refl_lookup members name

end

/-! ## Members of the same value -/

variable {j k : Json}

theorem Same.member? (h : Same j k) (name : String) :
    Option.Rel Same (j.member? name) (k.member? name) := by
  cases h with
  | object hmembers => exact hmembers name
  | _ => exact .none

theorem Same.text?_eq (h : Same j k) : j.text? = k.text? := by
  cases h <;> rfl

theorem Same.nat?_eq (h : Same j k) : j.nat? = k.nat? := by
  cases h <;> rfl

theorem Same.items? (h : Same j k) : Option.Rel (List.Forall₂ Same) j.items? k.items? := by
  cases h with
  | array hitems => exact .some hitems
  | _ => exact .none

section

variable {α β : Type} {r : α → α → Prop} {x y : Option α}

theorem bind_congr_of_rel {f : α → Option β} (hf : ∀ a b, r a b → f a = f b)
    (h : Option.Rel r x y) : x.bind f = y.bind f := by
  cases h with
  | none => rfl
  | some hab => exact hf _ _ hab

theorem rel_bind {r' : β → β → Prop} {f : α → Option β}
    (hf : ∀ a b, r a b → Option.Rel r' (f a) (f b)) (h : Option.Rel r x y) :
    Option.Rel r' (x.bind f) (y.bind f) := by
  cases h with
  | none => exact .none
  | some hab => exact hf _ _ hab

end

theorem Same.textMember?_eq (h : Same j k) (name : String) :
    j.textMember? name = k.textMember? name :=
  bind_congr_of_rel (fun _ _ h => h.text?_eq) (h.member? name)

theorem Same.waitMember?_eq (h : Same j k) (name : String) :
    j.waitMember? name = k.waitMember? name := by
  unfold waitMember?
  rw [bind_congr_of_rel (fun _ _ h => h.nat?_eq) (h.member? name)]

theorem Same.itemsMember? (h : Same j k) (name : String) :
    Option.Rel (List.Forall₂ Same) ((j.member? name).bind Json.items?)
      ((k.member? name).bind Json.items?) :=
  rel_bind (fun _ _ h => h.items?) (h.member? name)

theorem mapM_congr_of_same {α : Type} {f : Json → Option α} (hf : ∀ j k, Same j k → f j = f k)
    {items items' : List Json} (h : List.Forall₂ Same items items') :
    items.mapM f = items'.mapM f := by
  induction h with
  | nil => rfl
  | cons hjk _ ih => rw [List.mapM_cons, List.mapM_cons, hf _ _ hjk, ih]

end Json

open Json

variable {j k : Json}

/-! ## Reading the same value -/

theorem Placeholder.ofJson?_congr (h : Same j k) : ofJson? j = ofJson? k := by
  unfold ofJson?
  rw [h.textMember?_eq, h.textMember?_eq]

theorem Token.contentOfJson?_congr (h : Same j k) (kind : Kind) :
    contentOfJson? kind j = contentOfJson? kind k := by
  unfold contentOfJson?
  rw [h.textMember?_eq, h.waitMember?_eq, Placeholder.ofJson?_congr h]

theorem Token.ofJson?_congr (h : Same j k) : ofJson? j = ofJson? k := by
  unfold ofJson?
  simp only [h.textMember?_eq, contentOfJson?_congr h]

theorem Token.listOfJson?_congr (h : Same j k) : listOfJson? j = listOfJson? k :=
  bind_congr_of_rel (fun _ _ => mapM_congr_of_same fun _ _ => Token.ofJson?_congr) h.items?

theorem Argument.ofJson?_congr (h : Same j k) : ofJson? j = ofJson? k := by
  unfold ofJson?
  simp only [h.textMember?_eq, Placeholder.ofJson?_congr h]

theorem Piece.ofJson?_congr (h : Same j k) : ofJson? j = ofJson? k := by
  unfold ofJson?
  simp only [h.textMember?_eq, Placeholder.ofJson?_congr h]

theorem Body.ofJson?_congr (h : Same j k) : ofJson? j = ofJson? k := by
  cases h with
  | array hitems =>
    exact congrArg (Option.map text) (mapM_congr_of_same (fun _ _ => Piece.ofJson?_congr) hitems)
  | @object members members' hmembers =>
    have hsame : Same (.object members) (.object members') := .object hmembers
    simp only [ofJson?, hsame.textMember?_eq]
    apply congrArg
    funext name
    apply bind_congr_of_rel _ (hsame.itemsMember? "args")
    intro args args' hargs
    rw [mapM_congr_of_same (fun _ _ => Argument.ofJson?_congr) hargs]
  | _ => rfl

theorem Statement.ofJson?_congr (h : Same j k) : ofJson? j = ofJson? k := by
  have hbody := bind_congr_of_rel (fun _ _ h => Body.ofJson?_congr h) (h.member? "node")
  unfold ofJson?
  rw [h.waitMember?_eq, hbody]

theorem Statement.optionOfJson?_congr (h : Same j k) : optionOfJson? j = optionOfJson? k := by
  have hstatement := Statement.ofJson?_congr h
  cases h with
  | null => rfl
  | _ => exact congrArg (Option.map some) hstatement

end MacroScript
