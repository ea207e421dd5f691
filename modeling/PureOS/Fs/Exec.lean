import PureOS.Foundation.Forest
import PureOS.Fs.Init
import PureOS.Fs.Tree

set_option autoImplicit false

/-!
# Fs: what each operation can do

One lemma for each operation says everything it may answer and the state it then
leaves.  The invariants below and the refinement are derived from these lemmas
alone, and never look inside an operation again.
-/

namespace PureOS.Fs

open PureOS.Foundation

namespace State

/-- Perform a request. -/
def exec (s : State) : Op NodeId → Answer NodeId × State
  | .mkdir dir name => ((s.mkdir dir name).map .node id)
  | .createFile dir name => ((s.createFile dir name).map .node id)
  | .write node bytes => ((s.write node bytes).map .done id)
  | .append node bytes => ((s.append node bytes).map .done id)
  | .read node => (.bytes (s.read node), s)
  | .unlink node => ((s.unlink node).map .done id)

/-! ## Searches -/

theorem allocNode_eq_some {s : State} {i : NodeId} (h : s.allocNode = some i) :
    i ≠ root ∧ ¬s.Live i := by
  have := List.find?_some h
  simpa [Live] using this

theorem allocNode_eq_none {s : State} (h : s.allocNode = none) (i : NodeId) :
    ¬(i ≠ root ∧ ¬s.Live i) := by
  have := List.find?_eq_none.mp h i (List.mem_finRange i)
  simpa [Live] using this

theorem findChild_eq_some {s : State} {dir i : NodeId} {name : List UInt8}
    (h : s.findChild dir name = some i) :
    s.IsChild dir i ∧ (s.nodes i).name.bytes = name := by
  have := List.find?_some h
  simpa using this

theorem findChild_eq_none {s : State} {dir : NodeId} {name : List UInt8}
    (h : s.findChild dir name = none) (i : NodeId) (hi : s.IsChild dir i) :
    (s.nodes i).name.bytes ≠ name := by
  have := List.find?_eq_none.mp h i (List.mem_finRange i)
  intro heq
  exact this (by simpa using ⟨hi, heq⟩)

theorem nameBuf_bytes {name : List UInt8} (h : name.length ≤ nameMax) :
    (nameBuf name).bytes = name := List.take_of_length_le h

/-! ## Operations -/

theorem allocAs_cases (s : State) (dir : NodeId) (name : List UInt8) (kind : Kind) :
    (∃ i, i ≠ root ∧ ¬s.Live i ∧
      s.allocAs dir name kind = (some i, s.setNode i (freshNode dir name kind))) ∨
    ((∀ i, i ≠ root → s.Live i) ∧ s.allocAs dir name kind = (none, s)) := by
  unfold allocAs
  cases h : s.allocNode with
  | some i =>
      obtain ⟨hroot, hfree⟩ := allocNode_eq_some h
      exact Or.inl ⟨i, hroot, hfree, rfl⟩
  | none =>
      refine Or.inr ⟨fun i hi => ?_, rfl⟩
      by_contra hfree
      exact allocNode_eq_none h i ⟨hi, hfree⟩

theorem mkdir_cases (s : State) (dir : NodeId) (name : List UInt8) :
    (∃ i, s.Creatable dir name ∧ s.findChild dir name = none ∧ i ≠ root ∧ ¬s.Live i ∧
      s.mkdir dir name = (some i, s.setNode i (freshNode dir name .dir))) ∨
    ((¬s.Creatable dir name ∨ (s.findChild dir name).isSome ∨ ∀ i, i ≠ root → s.Live i) ∧
      s.mkdir dir name = (none, s)) := by
  unfold mkdir
  by_cases hc : s.Creatable dir name
  · cases hf : s.findChild dir name with
    | some j => exact Or.inr ⟨Or.inr (Or.inl rfl), by simp [hc]⟩
    | none =>
        rcases s.allocAs_cases dir name .dir with ⟨i, hi, hfree, heq⟩ | ⟨hfull, heq⟩
        · exact Or.inl ⟨i, hc, rfl, hi, hfree, by simp [hc, heq]⟩
        · exact Or.inr ⟨Or.inr (Or.inr hfull), by simp [hc, heq]⟩
  · exact Or.inr ⟨Or.inl hc, by simp [hc]⟩

theorem createFile_cases (s : State) (dir : NodeId) (name : List UInt8) :
    (∃ i, s.Creatable dir name ∧ s.findChild dir name = none ∧ i ≠ root ∧ ¬s.Live i ∧
      s.createFile dir name = (some i, s.setNode i (freshNode dir name .file))) ∨
    (∃ i, s.Creatable dir name ∧ s.findChild dir name = some i ∧ (s.nodes i).kind = .file ∧
      s.createFile dir name = (some i, s)) ∨
    ((¬s.Creatable dir name ∨
        (∃ i, s.findChild dir name = some i ∧ (s.nodes i).kind = .dir) ∨
        ∀ i, i ≠ root → s.Live i) ∧
      s.createFile dir name = (none, s)) := by
  unfold createFile
  by_cases hc : s.Creatable dir name
  · cases hf : s.findChild dir name with
    | some j =>
        have hlive : s.Live j := (findChild_eq_some hf).1.1
        cases hk : (s.nodes j).kind with
        | free => exact absurd hk hlive
        | dir => exact Or.inr (Or.inr ⟨Or.inr (Or.inl ⟨j, rfl, hk⟩), by simp [hc, hk]⟩)
        | file => exact Or.inr (Or.inl ⟨j, hc, rfl, hk, by simp [hc, hk]⟩)
    | none =>
        rcases s.allocAs_cases dir name .file with ⟨i, hi, hfree, heq⟩ | ⟨hfull, heq⟩
        · exact Or.inl ⟨i, hc, rfl, hi, hfree, by simp [hc, heq]⟩
        · exact Or.inr (Or.inr ⟨Or.inr (Or.inr hfull), by simp [hc, heq]⟩)
  · exact Or.inr (Or.inr ⟨Or.inl hc, by simp [hc]⟩)

/-- The state after a stretch of the pool was given to a file: the memory and the
bump pointer are new, and so is the file's own extent. -/
def restore (s : State) (node : NodeId) (data : Nat → UInt8) (next off len cap : Nat) : State :=
  { s with data := data, dataNext := next }.setNode node
    { s.nodes node with dataOff := off, dataLen := len, dataCap := cap }

theorem asU32_of_lt {n : Nat} (h : n < 2 ^ 32) : asU32 n = n := Nat.mod_eq_of_lt h

theorem write_cases (s : State) (node : NodeId) {bytes : List UInt8}
    (hlen : bytes.length < 2 ^ 32) :
    (((s.nodes node).kind ≠ .file ∨ ((s.nodes node).dataCap < bytes.length ∧
        dataPool < s.dataNext + bytes.length)) ∧
      s.write node bytes = (false, s)) ∨
    ((s.nodes node).kind = .file ∧ bytes.length ≤ (s.nodes node).dataCap ∧
      s.write node bytes = (true, s.restore node (blit s.data (s.nodes node).dataOff bytes)
        s.dataNext (s.nodes node).dataOff bytes.length (s.nodes node).dataCap)) ∨
    ((s.nodes node).kind = .file ∧ (s.nodes node).dataCap < bytes.length ∧
      s.dataNext + bytes.length ≤ dataPool ∧
      s.write node bytes = (true, s.restore node (blit s.data s.dataNext bytes)
        (s.dataNext + bytes.length) s.dataNext bytes.length bytes.length)) := by
  unfold write
  simp only [asU32_of_lt hlen]
  by_cases hk : (s.nodes node).kind = .file
  · by_cases hcap : bytes.length ≤ (s.nodes node).dataCap
    · exact Or.inr (Or.inl ⟨hk, hcap, by simp [hk, hcap, restore]⟩)
    · by_cases hroom : s.dataNext + bytes.length > dataPool
      · exact Or.inl ⟨Or.inr ⟨Nat.lt_of_not_le hcap, hroom⟩, by simp [hk, hcap, hroom]⟩
      · exact Or.inr (Or.inr ⟨hk, Nat.lt_of_not_le hcap, Nat.le_of_not_gt hroom,
          by simp [hk, hcap, hroom, restore]⟩)
  · exact Or.inl ⟨Or.inl hk, by simp [hk]⟩

theorem append_cases (s : State) (node : NodeId) (bytes : List UInt8) :
    (((s.nodes node).kind ≠ .file ∨
        dataPool < s.dataNext + ((s.read node).length + bytes.length)) ∧
      s.append node bytes = (false, s)) ∨
    ((s.nodes node).kind = .file ∧
      s.dataNext + ((s.read node).length + bytes.length) ≤ dataPool ∧
      s.append node bytes = (true, s.restore node
        (blit (copyWithin s.data s.dataNext (s.nodes node).dataOff (s.read node).length)
          (s.dataNext + (s.read node).length) bytes)
        (s.dataNext + ((s.read node).length + bytes.length)) s.dataNext
        ((s.read node).length + bytes.length) ((s.read node).length + bytes.length))) := by
  unfold append
  by_cases hroom : s.dataNext + ((s.read node).length + bytes.length) > dataPool
  · exact Or.inl ⟨Or.inr hroom, by simp [hroom]⟩
  · have hle := Nat.le_of_not_gt hroom
    have hu32 : asU32 ((s.read node).length + bytes.length) =
        (s.read node).length + bytes.length := asU32_of_lt (by simp [dataPool] at hle; omega)
    by_cases hk : (s.nodes node).kind = .file
    · exact Or.inr ⟨hk, hle, by simp [hroom, hk, hu32, restore]⟩
    · exact Or.inl ⟨Or.inl hk, by simp [hroom, hk]⟩

theorem unlink_cases (s : State) (node : NodeId) :
    ((node = root ∨ ¬s.Live node ∨
        ((s.nodes node).kind = .dir ∧ ∃ i, s.IsChild node i)) ∧
      s.unlink node = (false, s)) ∨
    (node ≠ root ∧ s.Live node ∧ ((s.nodes node).kind = .dir → ∀ i, ¬s.IsChild node i) ∧
      s.unlink node = (true, s.setNode node Node.empty)) := by
  unfold unlink
  by_cases hroot : node = root
  · exact Or.inl ⟨Or.inl hroot, by simp [hroot]⟩
  by_cases hfree : (s.nodes node).kind = .free
  · exact Or.inl ⟨Or.inr (Or.inl (by simp [Live, hfree])), by simp [hroot, hfree]⟩
  by_cases hchild : (s.nodes node).kind = .dir ∧ ∃ i, s.IsChild node i
  · exact Or.inl ⟨Or.inr (Or.inr hchild), by rw [if_neg hroot, if_neg hfree, if_pos hchild]⟩
  · refine Or.inr ⟨hroot, hfree, fun hdir i hi => hchild ⟨hdir, i, hi⟩, ?_⟩
    rw [if_neg hroot, if_neg hfree, if_neg hchild]

/-- An operation that reports failure has changed nothing. -/
theorem exec_failed (s : State) (op : Op NodeId)
    (hlen : ∀ node bytes, op = .write node bytes → bytes.length < 2 ^ 32)
    (h : (s.exec op).1.Failed) : (s.exec op).2 = s := by
  cases op with
  | mkdir dir name =>
      rcases s.mkdir_cases dir name with ⟨i, _, _, _, _, heq⟩ | ⟨_, heq⟩
      · simp [exec, heq, Answer.Failed] at h
      · simp [exec, heq]
  | createFile dir name =>
      rcases s.createFile_cases dir name with ⟨i, _, _, _, _, heq⟩ | ⟨i, _, _, _, heq⟩ | ⟨_, heq⟩
      · simp [exec, heq, Answer.Failed] at h
      · simp [exec, heq, Answer.Failed] at h
      · simp [exec, heq]
  | write node bytes =>
      rcases s.write_cases node (hlen node bytes rfl) with
        ⟨_, heq⟩ | ⟨_, _, heq⟩ | ⟨_, _, _, heq⟩
      · simp [exec, heq]
      · simp [exec, heq, Answer.Failed] at h
      · simp [exec, heq, Answer.Failed] at h
  | append node bytes =>
      rcases s.append_cases node bytes with ⟨_, heq⟩ | ⟨_, _, heq⟩
      · simp [exec, heq]
      · simp [exec, heq, Answer.Failed] at h
  | read node => rfl
  | unlink node =>
      rcases s.unlink_cases node with ⟨_, heq⟩ | ⟨_, _, _, heq⟩
      · simp [exec, heq]
      · simp [exec, heq, Answer.Failed] at h

end State

end PureOS.Fs
