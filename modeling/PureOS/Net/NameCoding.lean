import Mathlib.Algebra.BigOperators.Group.List.Basic
import PureOS.Net.Answers

set_option autoImplicit false

/-!
# Net: names as they are sent (`net/dns.rs`)

`dns_encode_name` puts each part of a hostname behind its length.  It looks at every part, and
at the room for every part, but not at whether a part is empty, nor at how long the whole
name is, nor at whether there is room for the zero at the end.
-/

namespace PureOS.Net

open PureOS.Foundation

/-! ## What a name is -/

/-- A hostname without the dot of the root. -/
def relativeName (name : Packet) : Packet :=
  if name.getLast? = some 46 then name.dropLast else name

/-- The parts of a hostname between its dots; the root has none. -/
def partsOf (name : Packet) : List Packet :=
  if relativeName name = [] then [] else labelsOf (relativeName name)

/-- A well-formed name with the given labels, as it is sent. -/
structure WellFormedName (bytes : Packet) (labels : List Packet) : Prop where
  bytes_eq : bytes = wireName labels
  label_length : ∀ label ∈ labels, 1 ≤ label.length ∧ label.length ≤ 63
  length_le : bytes.length ≤ 255

/-- What `dns_encode_name` is for, with a buffer of `cap` bytes: it refuses the hostname, or it
leaves a well-formed name in the buffer whose labels are the parts of the hostname. -/
def EncodesName (name : Packet) (cap : Nat) : Prop :=
  match dnsEncodeName name cap with
  | .error _ => False
  | .ok none => True
  | .ok (some bytes) => bytes.length ≤ cap ∧ WellFormedName bytes (partsOf name)

/-! ## Lengths -/

/-- The bytes that labels take: each has a byte for its length. -/
def wireLength (labels : List Packet) : Nat := (labels.map fun label => label.length + 1).sum

@[simp]
theorem wireLength_nil : wireLength [] = 0 := rfl

@[simp]
theorem wireLength_cons (label : Packet) (rest : List Packet) :
    wireLength (label :: rest) = label.length + 1 + wireLength rest := List.sum_cons

theorem length_wireName (labels : List Packet) : (wireName labels).length = wireLength labels + 1 := by
  induction labels with
  | nil => rfl
  | cons label rest ih =>
      have hcons : wireName (label :: rest) =
          UInt8.ofNat label.length :: (label ++ wireName rest) := by
        rw [wireName, wireName, List.flatMap_cons, List.append_assoc, List.cons_append]
      rw [hcons, List.length_cons, List.length_append, ih, wireLength_cons]
      omega

/-- The labels of a name take a byte more than the name. -/
theorem wireLength_labelsOf (name : Packet) : wireLength (labelsOf name) = name.length + 1 := by
  induction name with
  | nil => rfl
  | cons b name ih =>
      rw [labelsOf] at ih ⊢
      rw [List.splitOn_cons_eq_if_modifyHead]
      split
      · rw [wireLength_cons, ih, List.length_nil, List.length_cons]
        omega
      · obtain ⟨label, rest, hsplit⟩ := List.exists_cons_of_ne_nil (List.splitOn_ne_nil 46 name)
        rw [hsplit, wireLength_cons] at ih
        rw [hsplit, List.modifyHead_cons, wireLength_cons, List.length_cons, List.length_cons]
        omega

/-! ## The loop -/

/-- The loop refuses what does not fit. -/
theorem encodeLabels_refuses {cap : Nat} {labels : List Packet} {buf : Packet}
    (hbuf : buf.length ≤ cap)
    (h : (∃ label ∈ labels, 63 < label.length) ∨ cap < buf.length + wireLength labels) :
    encodeLabels cap labels buf = .ok none := by
  induction labels generalizing buf with
  | nil =>
      rw [wireLength_nil] at h
      rcases h with ⟨label, hmem, -⟩ | h
      · cases hmem
      · omega
  | cons label rest ih =>
      rw [encodeLabels]
      by_cases hone : label.length > 63 ∨ buf.length + label.length + 1 > cap
      · rw [if_pos hone]
      · rw [if_neg hone]
        have hnext : (buf ++ UInt8.ofNat label.length :: label).length =
            buf.length + label.length + 1 := by
          rw [List.length_append, List.length_cons, Nat.add_assoc]
        apply ih
        · omega
        · rcases h with ⟨label', hmem, hlong⟩ | h
          · rcases List.mem_cons.mp hmem with rfl | hmem
            · exact absurd (Or.inl hlong) hone
            · exact Or.inl ⟨label', hmem, hlong⟩
          · rw [wireLength_cons] at h
            right
            omega

/-- What fits gets to the end, where the zero may be out of bounds. -/
theorem encodeLabels_of_fits {cap : Nat} {labels : List Packet} {buf : Packet}
    (hsmall : ∀ label ∈ labels, label.length ≤ 63)
    (hroom : buf.length + wireLength labels ≤ cap) :
    encodeLabels cap labels buf =
      if buf.length + wireLength labels < cap then .ok (some (buf ++ wireName labels))
      else .error .panic := by
  induction labels generalizing buf with
  | nil => rfl
  | cons label rest ih =>
      rw [wireLength_cons] at hroom
      have hlabel := hsmall label List.mem_cons_self
      have hone : ¬(label.length > 63 ∨ buf.length + label.length + 1 > cap) := by omega
      have hnext : (buf ++ UInt8.ofNat label.length :: label).length + wireLength rest =
          buf.length + wireLength (label :: rest) := by
        rw [List.length_append, List.length_cons, wireLength_cons]
        omega
      have hname : (buf ++ UInt8.ofNat label.length :: label) ++ wireName rest =
          buf ++ wireName (label :: rest) := by
        rw [wireName, wireName, List.flatMap_cons, List.append_assoc, List.append_assoc]
      rw [encodeLabels, if_neg hone, ih (fun l hl => hsmall l (List.mem_cons_of_mem label hl)),
        hnext, hname]
      rw [hnext, wireLength_cons]
      omega

/-- `dns_encode_name` refuses a hostname that has a long part or does not fit. -/
theorem dnsEncodeName_refuses {name : Packet} {cap : Nat}
    (h : (∃ label ∈ labelsOf name, 63 < label.length) ∨ cap ≤ name.length) :
    dnsEncodeName name cap = .ok none := by
  apply encodeLabels_refuses (Nat.zero_le cap)
  rw [wireLength_labelsOf, List.length_nil]
  rcases h with h | h
  · exact Or.inl h
  · right
    omega

/-- The other hostnames are written out, and the last byte is out of bounds for one length. -/
theorem dnsEncodeName_eq {name : Packet} {cap : Nat}
    (hsmall : ∀ label ∈ labelsOf name, label.length ≤ 63) (hroom : name.length < cap) :
    dnsEncodeName name cap =
      if name.length + 1 < cap then .ok (some (wireName (labelsOf name))) else .error .panic := by
  have hlength := wireLength_labelsOf name
  rw [dnsEncodeName, encodeLabels_of_fits hsmall, hlength, List.length_nil, Nat.zero_add,
    List.nil_append]
  rw [hlength, List.length_nil]
  omega

/-! ## Parts and labels -/

/-- A name that ends in a dot has an empty label. -/
theorem nil_mem_labelsOf {name : Packet} (h : name.getLast? = some 46) : [] ∈ labelsOf name := by
  obtain ⟨front, rfl⟩ := List.getLast?_eq_some_iff.mp h
  rw [labelsOf, List.splitOn_append_cons_self]
  exact List.mem_append_right _ List.mem_cons_self

/-- Where no label is empty, the labels are the parts. -/
theorem partsOf_eq {name : Packet} (h : [] ∉ labelsOf name) : partsOf name = labelsOf name := by
  have hdot : ¬name.getLast? = some 46 := fun hlast => h (nil_mem_labelsOf hlast)
  have hname : name ≠ [] := by
    rintro rfl
    exact h List.mem_cons_self
  rw [partsOf, relativeName, if_neg hdot, if_neg hname]

/-- Where a label is empty, the parts have an empty label too or are shorter. -/
theorem partsOf_of_nil_mem {name : Packet} (h : [] ∈ labelsOf name) :
    [] ∈ partsOf name ∨ wireLength (partsOf name) < wireLength (labelsOf name) := by
  rw [wireLength_labelsOf]
  by_cases hroot : relativeName name = []
  · right
    rw [partsOf, if_pos hroot, wireLength_nil]
    omega
  · rw [partsOf, if_neg hroot, wireLength_labelsOf, relativeName] at *
    by_cases hdot : name.getLast? = some 46
    · right
      rw [if_pos hdot, List.length_dropLast]
      have hname : name ≠ [] := by
        rintro rfl
        cases hdot
      have hpos := List.length_pos_of_ne_nil hname
      omega
    · left
      rwa [if_neg hdot]

/-! ## When a name is encoded -/

/-- `dns_encode_name` does what it is for exactly when it refuses the hostname, for a part
of more than 63 bytes or a name that is not shorter than the buffer, or there is room for
two bytes more than the name has, the name has 253 bytes at most, and no part is empty. -/
theorem encodesName_iff (name : Packet) (cap : Nat) :
    EncodesName name cap ↔
      (∃ label ∈ labelsOf name, 63 < label.length) ∨ cap ≤ name.length ∨
        (name.length + 1 < cap ∧ name.length ≤ 253 ∧ [] ∉ labelsOf name) := by
  by_cases hrefused : (∃ label ∈ labelsOf name, 63 < label.length) ∨ cap ≤ name.length
  · constructor
    · rintro -
      rcases hrefused with h | h
      · exact Or.inl h
      · exact Or.inr (Or.inl h)
    · rintro -
      rw [EncodesName, dnsEncodeName_refuses hrefused]
      trivial
  · rw [not_or, not_exists] at hrefused
    obtain ⟨hshort, hroom⟩ := hrefused
    have hsmall : ∀ label ∈ labelsOf name, label.length ≤ 63 :=
      fun label hmem => Nat.le_of_not_lt fun hlong => hshort label ⟨hmem, hlong⟩
    have hlong : ¬∃ label ∈ labelsOf name, 63 < label.length := by
      rintro ⟨label, hmem, hlong⟩
      exact hshort label ⟨hmem, hlong⟩
    have hlength : (wireName (labelsOf name)).length = name.length + 2 := by
      rw [length_wireName, wireLength_labelsOf]
    rw [EncodesName, dnsEncodeName_eq hsmall (Nat.lt_of_not_le hroom), or_iff_right hlong,
      or_iff_right hroom]
    by_cases hzero : name.length + 1 < cap
    · rw [if_pos hzero]
      constructor
      · rintro ⟨-, hwell⟩
        refine ⟨hzero, ?_, ?_⟩
        · have hle := hwell.length_le
          omega
        · intro hnil
          rcases partsOf_of_nil_mem hnil with hmem | hshorter
          · exact absurd (hwell.label_length [] hmem).1 (Nat.not_succ_le_zero 0)
          · have heq := congrArg List.length hwell.bytes_eq
            rw [length_wireName, length_wireName] at heq
            omega
      · rintro ⟨-, hmax, hnil⟩
        refine ⟨by omega, ?_, ?_, by omega⟩
        · rw [partsOf_eq hnil]
        · rw [partsOf_eq hnil]
          intro label hmem
          refine ⟨List.length_pos_of_ne_nil ?_, hsmall label hmem⟩
          rintro rfl
          exact hnil hmem
    · rw [if_neg hzero]
      constructor
      · exact False.elim
      · rintro ⟨hroom', -⟩
        exact hzero hroom'

/-- The dot of the root becomes an empty label in front of the zero. -/
theorem not_encodesName_rootDot : ¬EncodesName [97, 46] 500 := by
  intro h
  have hcode : dnsEncodeName [97, 46] 500 = .ok (some [1, 97, 0, 0]) := by decide +kernel
  rw [EncodesName, hcode] at h
  exact absurd h.2.bytes_eq (by decide)

/-- The query has room for the fields behind the name only up to a length, and `dns_resolve`
does not look: it panics for hostnames of five lengths. -/
theorem dnsQuery_panics_iff (hostname : Packet) :
    dnsQuery hostname = .error .panic ↔
      (∀ label ∈ labelsOf hostname, label.length ≤ 63) ∧
        495 ≤ hostname.length ∧ hostname.length ≤ 499 := by
  by_cases hsmall : ∀ label ∈ labelsOf hostname, label.length ≤ 63
  · rcases Nat.lt_or_ge hostname.length 500 with hroom | hroom
    · have hname : dnsEncodeName hostname (dnsQuerySize - 12) = _ := dnsEncodeName_eq hsmall hroom
      have hlength : (wireName (labelsOf hostname)).length = hostname.length + 2 := by
        rw [length_wireName, wireLength_labelsOf]
      rw [dnsQuery, hname]
      by_cases hzero : hostname.length + 1 < dnsQuerySize - 12
      · rw [if_pos hzero]
        change (if 12 + (wireName (labelsOf hostname)).length + 4 > 512 then _ else _) = _ ↔ _
        rw [hlength]
        by_cases hfields : 12 + (hostname.length + 2) + 4 > 512
        · rw [if_pos hfields]
          refine ⟨fun _ => ⟨hsmall, by omega, by omega⟩, fun _ => rfl⟩
        · rw [if_neg hfields]
          constructor
          · intro h
            cases h
          · rintro ⟨-, hlong, -⟩
            omega
      · rw [if_neg hzero]
        have hzero' : ¬hostname.length + 1 < 500 := hzero
        exact ⟨fun _ => ⟨hsmall, by omega, by omega⟩, fun _ => rfl⟩
    · have hlarge : dnsQuerySize - 12 ≤ hostname.length := hroom
      rw [dnsQuery, dnsEncodeName_refuses (Or.inr hlarge)]
      constructor
      · intro h
        cases h
      · rintro ⟨-, -, hle⟩
        omega
  · have hlong : ∃ label ∈ labelsOf hostname, 63 < label.length := by
      by_contra hnone
      exact hsmall fun label hmem => Nat.le_of_not_lt fun hlong => hnone ⟨label, hmem, hlong⟩
    rw [dnsQuery, dnsEncodeName_refuses (Or.inl hlong)]
    constructor
    · intro h
      cases h
    · rintro ⟨h, -⟩
      exact absurd h hsmall

end PureOS.Net
