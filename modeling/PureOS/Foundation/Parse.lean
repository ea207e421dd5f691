import PureOS.Foundation.Fuel

set_option autoImplicit false

/-!
# Foundation: parsers that refuse

A parser reads bytes by their place.  It may refuse its input, which is an answer, or do what
the source would abort on, which is a fault.  `Meets` is the rule for parsers: there is no
fault, and what is returned has a property.
-/

namespace PureOS.Foundation

universe u

/-- Why a parser ends before it returns a value. -/
inductive Stop where
  | refused
  | fault (f : Fault)
  deriving DecidableEq

/-- The result of a parser. -/
abbrev Parse (α : Type u) := Except Stop α

namespace Parse

variable {α β : Type u}

/-- The input is refused. -/
def refuse : Parse α := .error .refused

/-- An index or a number is out of range. -/
def panic : Parse α := .error (.fault .panic)

/-- The byte at a place, inside the data. -/
def byteAt (data : List UInt8) (i : Nat) : Parse UInt8 :=
  match data[i]? with
  | some b => .ok b
  | none => panic

/-- Two bytes as a number, the high one first. -/
def be16 (data : List UInt8) (i : Nat) : Parse Nat := do
  let hi ← byteAt data i
  let lo ← byteAt data (i + 1)
  return hi.toNat * 256 + lo.toNat

/-- A difference that must not be negative. -/
def sub (a b : Nat) : Parse Nat := if a < b then panic else .ok (a - b)

/-- No fault, and a value with the property `P` if there is one. -/
def Meets (r : Parse α) (P : α → Prop) : Prop :=
  match r with
  | .ok a => P a
  | .error .refused => True
  | .error (.fault _) => False

variable {r : Parse α} {P Q : α → Prop} {f : α → Parse β}

theorem bind_ok (a : α) (f : α → Parse β) : (Except.ok a >>= f : Parse β) = f a := rfl

theorem byteAt_ok {data : List UInt8} {i : Nat} (h : i < data.length) :
    byteAt data i = .ok data[i] := by
  rw [byteAt, List.getElem?_eq_getElem h]

theorem byteAt_panic {data : List UInt8} {i : Nat} (h : data.length ≤ i) :
    byteAt data i = .error (.fault .panic) := by
  rw [byteAt, List.getElem?_eq_none h]
  rfl

namespace Meets

theorem mono (h : Meets r P) (hPQ : ∀ a, P a → Q a) : Meets r Q := by
  cases r with
  | ok a => exact hPQ a h
  | error stop =>
      cases stop with
      | refused => trivial
      | fault f => exact h

/-- The rule for a sequence. -/
theorem bind {Q : β → Prop} (h : Meets r P) (hf : ∀ a, P a → Meets (f a) Q) : Meets (r >>= f) Q := by
  cases r with
  | ok a => exact hf a h
  | error stop =>
      cases stop with
      | refused => trivial
      | fault f => exact h

theorem map {Q : β → Prop} (h : Meets r P) {g : α → β} (hg : ∀ a, P a → Q (g a)) :
    Meets (r.map g) Q := by
  cases r with
  | ok a => exact hg a h
  | error stop =>
      cases stop with
      | refused => trivial
      | fault f => exact h

/-- What a parser returns has the property. -/
theorem of_ok (h : Meets r P) {a : α} (hr : r = .ok a) : P a := by
  rw [hr] at h
  exact h

theorem not_fault (h : Meets r P) (f : Fault) : r ≠ .error (.fault f) := by
  rintro rfl
  exact h

theorem byteAt {data : List UInt8} {i : Nat} (h : i < data.length) :
    Meets (Parse.byteAt data i) fun b => data[i]? = some b := by
  rw [byteAt_ok h]
  exact List.getElem?_eq_getElem h

theorem be16 {data : List UInt8} {i : Nat} (h : i + 1 < data.length) :
    Meets (Parse.be16 data i) fun _ => True := by
  rw [Parse.be16, byteAt_ok (by omega), byteAt_ok h]
  trivial

end Meets

end Parse

end PureOS.Foundation
