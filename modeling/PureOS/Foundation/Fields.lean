import PureOS.Foundation.Bytes

set_option autoImplicit false

/-!
# Foundation: fields of a byte string

A field is read byte by byte from an offset, and the first byte behind the end is a fault.  A
string that is put together from fields is read back field by field.
-/

namespace PureOS.Foundation

/-- The bytes `data[off]`, …, `data[off + n - 1]`, if they are all there. -/
def fieldAt (data : List UInt8) (off n : Nat) : Option (List UInt8) :=
  if off + n ≤ data.length then some ((data.drop off).take n) else none

/-- A number of `n` bytes, the lowest one first. -/
def numberAt (data : List UInt8) (off n : Nat) : Option Nat := (fieldAt data off n).map fromLE

variable {data : List UInt8} {off n : Nat}

theorem fieldAt_of_le (h : off + n ≤ data.length) :
    fieldAt data off n = some ((data.drop off).take n) := if_pos h

theorem fieldAt_of_lt (h : data.length < off + n) : fieldAt data off n = none :=
  if_neg (Nat.not_le.mpr h)

theorem numberAt_of_le (h : off + n ≤ data.length) :
    numberAt data off n = some (fromLE ((data.drop off).take n)) := by
  rw [numberAt, fieldAt_of_le h]
  rfl

theorem numberAt_of_lt (h : data.length < off + n) : numberAt data off n = none := by
  rw [numberAt, fieldAt_of_lt h]
  rfl

/-- A stretch of a list that is read by its indices. -/
theorem slice_getD {α : Type} {l : List α} (d : α) (h : off + n ≤ l.length) :
    slice (fun i => l.getD i d) off n = (l.drop off).take n := by
  refine List.ext_getElem (by simp; omega) fun i hi _ => ?_
  have hlt : i < n := by rwa [length_slice] at hi
  rw [getElem_slice, List.getElem_take, List.getElem_drop, List.getD_eq_getElem?_getD,
    List.getElem?_eq_getElem, Option.getD_some]

/-- A byte of a number. -/
theorem getD_toLE (n v j : Nat) :
    (toLE n v).getD j 0 = if j < n then UInt8.ofNat (v / 256 ^ j) else 0 := by
  induction n generalizing v j with
  | zero => rfl
  | succ n ih =>
      cases j with
      | zero => rw [toLE, List.getD_cons_zero, if_pos (Nat.succ_pos n), Nat.pow_zero, Nat.div_one]
      | succ j =>
          rw [toLE, List.getD_cons_succ, ih, Nat.div_div_eq_div_mul, ← Nat.pow_succ']
          simp only [Nat.add_lt_add_iff_right]

/-- A field is read where it was put. -/
theorem drop_take_flatten {fields : List (List UInt8)} {i : Nat} {field : List UInt8}
    (hfield : fields[i]? = some field) (hoff : (fields.take i).flatten.length = off) :
    (fields.flatten.drop off).take field.length = field := by
  have hsplit : fields.flatten = (fields.take i).flatten ++ (fields.drop i).flatten := by
    rw [← List.flatten_append, List.take_append_drop]
  obtain ⟨hi, hget⟩ := List.getElem?_eq_some_iff.mp hfield
  rw [hsplit, ← hoff, List.drop_left, List.drop_eq_getElem_cons hi, hget, List.flatten_cons,
    List.take_left]

end PureOS.Foundation
