import PureOS.Barrel.Codegen
import PureOS.Barrel.Safety

set_option autoImplicit false

/-!
# Barrel: what the emitters add

Without an error an emitter appends the bytes of its instructions to the code, and a
patch replaces four bytes inside it.  `Adds` says what a stretch of the compilation
has added: code that depends on the names, for every list of names that begins with
those known by then, since later ones only come behind them.
-/

namespace PureOS.Barrel

open PureOS.Foundation PureOS.Foundation.X86

namespace Comp

/-- The code emitted so far. -/
def code (c : Comp) : List UInt8 := slice c.elf codeOff c.clen

/-- The name that stands at an offset of the source, with its length. -/
def nameAt (src : List UInt8) (v : Nat × Nat) : Name := (src.take (v.1 + v.2)).drop v.1

/-- The names of the variables in the order of their slots. -/
def names (c : Comp) : List Name := c.vars.map (nameAt c.src)

/-- The tables are well formed, and the code lies inside the buffer. -/
structure Ready (c : Comp) : Prop where
  good : c.Good
  room : codeOff + c.clen ≤ elfBufSize

theorem length_code (c : Comp) : c.code.length = c.clen := length_slice ..

/-! ## Bytes -/

theorem emit_eq (c : Comp) (b : UInt8) : c.emit b = c.emitBytes [b] := by
  rw [emitBytes, emitBytes]

theorem emitBytes_append (c : Comp) (bs bs' : List UInt8) :
    (c.emitBytes bs).emitBytes bs' = c.emitBytes (bs ++ bs') := by
  induction bs generalizing c with
  | nil => rw [emitBytes, List.nil_append]
  | cons b bs ih => rw [emitBytes, List.cons_append, emitBytes, ih]

/-- A byte that is emitted without an error is stored behind the code. -/
theorem emit_ok {c : Comp} {b : UInt8} (h : (c.emit b).err = 0) :
    codeOff + c.clen < elfBufSize ∧
      c.emit b = { c with elf := Function.update c.elf (codeOff + c.clen) b, clen := c.clen + 1 } := by
  unfold emit at h ⊢
  dsimp only at h ⊢
  split at h
  · exact absurd h (fail_err_ne (by decide))
  · rename_i hidx
    rw [if_neg hidx]
    exact ⟨by omega, rfl⟩

theorem emitBytes_err {c : Comp} {bs : List UInt8} (h : (c.emitBytes bs).err = 0) : c.err = 0 := by
  induction bs generalizing c with
  | nil =>
      rw [emitBytes] at h
      exact h
  | cons b bs ih =>
      rw [emitBytes] at h
      have herr := ih h
      rw [(emit_ok herr).2] at herr
      exact herr

/-- Bytes that are emitted without an error are stored behind the code. -/
theorem emitBytes_ok {c : Comp} {bs : List UInt8} (h : (c.emitBytes bs).err = 0) (hroom : codeOff + c.clen ≤ elfBufSize) :
    codeOff + c.clen + bs.length ≤ elfBufSize ∧
      c.emitBytes bs =
        { c with elf := blit c.elf (codeOff + c.clen) bs, clen := c.clen + bs.length } := by
  induction bs generalizing c with
  | nil =>
      rw [emitBytes]
      exact ⟨hroom, rfl⟩
  | cons b bs ih =>
      rw [emitBytes] at h ⊢
      obtain ⟨hidx, hemit⟩ := emit_ok (emitBytes_err h)
      rw [hemit] at h ⊢
      obtain ⟨hlen, heq⟩ := ih h (by dsimp only; omega)
      rw [heq, blit, List.length_cons]
      exact ⟨by dsimp only at hlen; omega, by simp only [Nat.add_assoc, Nat.add_comm 1]⟩

/-- A patch inside the buffer stores its bytes. -/
theorem patchBytes_eq_blit (elf : Nat → UInt8) {idx : Nat} {bs : List UInt8}
    (h : idx + bs.length ≤ elfBufSize) : patchBytes elf idx bs = blit elf idx bs := by
  induction bs generalizing elf idx with
  | nil =>
      rw [patchBytes]
      rfl
  | cons b bs ih =>
      rw [List.length_cons] at h
      rw [patchBytes, if_pos (by omega), ih _ (by omega), blit]

/-- A patch replaces four bytes of the code. -/
theorem code_patchTo {c : Comp} {a hole b : List UInt8} (hcode : c.code = a ++ (hole ++ b))
    (hhole : hole.length = 4) (hroom : codeOff + c.clen ≤ elfBufSize) {site : Nat} (hsite : site = a.length)
    (target : Nat) :
    (c.patchTo site target).code = a ++ (le32 ((target : Int) - (site + 4)) ++ b) := by
  have hlen : c.clen = a.length + (4 + b.length) := by
    rw [← c.length_code, hcode, List.length_append, List.length_append, hhole]
  have hbytes (v : Int) : (le32 v).length = 4 := length_toLE 4 _
  have hold : slice c.elf codeOff (a.length + (4 + b.length)) = a ++ (hole ++ b) := by
    rw [← hlen]
    exact hcode
  rw [slice_append, slice_append] at hold
  obtain ⟨ha, hrest⟩ := List.append_inj hold (length_slice ..)
  have hb := (List.append_inj hrest (by rw [length_slice, hhole])).2
  change slice (patchBytes c.elf (codeOff + site) (le32 _)) codeOff c.clen = _
  rw [patchBytes_eq_blit _ (by rw [hbytes]; omega), hlen, hsite, slice_append, slice_append]
  congr 1
  · rw [slice_blit_disjoint _ _ _ _ _ (Or.inl (Nat.le_refl _)), ha]
  · congr 1
    · have hsame := slice_blit_same c.elf (codeOff + a.length)
        (le32 ((target : Int) - ((a.length : Nat) + 4)))
      rwa [hbytes] at hsame
    · rw [slice_blit_disjoint _ _ _ _ _ (Or.inr (by rw [hbytes])), hb]

/-! ## Stretches of the compilation -/

/-- From `c` to `c'` the compiler has added the code `gen`, of length `size`, with
`break`s that are patched later at `sites`; it assigns to `targets`. -/
structure Adds (c c' : Comp) (gen : List Name → List Instr) (size : Nat) (sites : List Nat)
    (targets : List Name) : Prop where
  err : c.err = 0
  ready : c'.Ready
  src : c'.src = c.src
  names : c.names <+: c'.names
  clen : c'.clen = c.clen + size
  code : ∀ V, c'.names <+: V → c'.code = c.code ++ bytes (gen V)
  breaks : c'.breaks = c.breaks ++ sites.map (c.clen + ·)
  targets : targets ⊆ c'.names

/-- A stretch that only reads. -/
theorem Adds.of_reads {c : Comp} {s : Scan} (herr : c.err = 0) (hready : c.Ready)
    (h : Scan.Reads c.toScan s) : Adds c { c with toScan := s } (fun _ => []) 0 [] [] where
  err := herr
  ready := ⟨(Follows.of_reads h).good hready.good, hready.room⟩
  src := h.src
  names := by rw [Comp.names, Comp.names, h.src]
  clen := rfl
  code _ _ := (List.append_nil _).symm
  breaks := (List.append_nil _).symm
  targets := List.nil_subset _

/-- One stretch after another. -/
theorem Adds.trans {c c₁ c₂ : Comp} {g₁ g₂ : List Name → List Instr} {k₁ k₂ : Nat}
    {s₁ s₂ : List Nat} {t₁ t₂ : List Name} (h₁ : Adds c c₁ g₁ k₁ s₁ t₁)
    (h₂ : Adds c₁ c₂ g₂ k₂ s₂ t₂) :
    Adds c c₂ (fun V => g₁ V ++ g₂ V) (k₁ + k₂) (s₁ ++ s₂.map (k₁ + ·)) (t₁ ++ t₂) where
  err := h₁.err
  ready := h₂.ready
  src := h₂.src.trans h₁.src
  names := h₁.names.trans h₂.names
  clen := by rw [h₂.clen, h₁.clen, Nat.add_assoc]
  code V hV := by
    rw [h₂.code V hV, h₁.code V (h₂.names.trans hV), bytes_append, List.append_assoc]
  breaks := by
    rw [h₂.breaks, h₁.breaks, h₁.clen, List.map_append, List.map_map, List.append_assoc]
    congr 2
    exact List.map_congr_left fun k _ => Nat.add_assoc ..
  targets := List.append_subset.mpr ⟨fun _ hx => h₂.names.subset (h₁.targets hx), h₂.targets⟩

/-- A stretch that adds the same in other words. -/
theorem Adds.congr {c c' : Comp} {g g' : List Name → List Instr} {k k' : Nat} {s s' : List Nat}
    {t t' : List Name} (h : Adds c c' g k s t) (hg : ∀ V, c'.names <+: V → g V = g' V)
    (hk : k = k') (hs : s = s') (ht : t = t') : Adds c c' g' k' s' t' := by
  subst hk hs ht
  exact { h with code := fun V hV => hg V hV ▸ h.code V hV }

/-- Emitted instructions, with what they leave alone. -/
theorem adds_emitBytes {c : Comp} {is : List Instr} (h : (c.emitBytes (bytes is)).err = 0)
    (hready : c.Ready) :
    Adds c (c.emitBytes (bytes is)) (fun _ => is) (len is) [] [] ∧
      (c.emitBytes (bytes is)).toScan = c.toScan := by
  obtain ⟨hlen, heq⟩ := emitBytes_ok h hready.room
  have hgood := (c.follows_emitBytes (bytes is)).good hready.good
  refine ⟨⟨emitBytes_err h, ⟨hgood, ?_⟩, ?_, ?_, ?_, fun V _ => ?_, ?_, List.nil_subset _⟩, ?_⟩
  · rw [heq, ← Nat.add_assoc]
    exact hlen
  · rw [heq]
  · rw [heq]
    exact List.prefix_refl _
  · rw [heq]
    rfl
  · rw [heq]
    change slice (blit c.elf (codeOff + c.clen) (bytes is)) codeOff (c.clen + (bytes is).length) = _
    rw [slice_append, slice_blit_same, slice_blit_disjoint _ _ _ _ _ (Or.inl (Nat.le_refl _))]
    rfl
  · rw [heq]
    exact (List.append_nil _).symm
  · rw [heq]

/-- A patch of a jump that a stretch has added before `post`. -/
theorem Adds.patch {c c' : Comp} {gen gen' : List Name → List Instr} {size : Nat}
    {sites : List Nat} {targets : List Name} (h : Adds c c' gen size sites targets)
    {site target : Nat}
    (hsplit : ∀ V, ∃ a hole b : List UInt8, bytes (gen V) = a ++ (hole ++ b) ∧ hole.length = 4 ∧
      site = c.clen + a.length ∧
      bytes (gen' V) = a ++ (le32 ((target : Int) - (site + 4)) ++ b)) :
    Adds c (c'.patchTo site target) gen' size sites targets where
  err := h.err
  ready := ⟨(c'.follows_patchTo site target).good h.ready.good, h.ready.room⟩
  src := h.src
  names := h.names
  clen := h.clen
  breaks := h.breaks
  targets := h.targets
  code V hV := by
    obtain ⟨a, hole, b, hbytes, hhole, hsite, hbytes'⟩ := hsplit V
    have hcode : c'.code = (c.code ++ a) ++ (hole ++ b) := by
      rw [h.code V hV, hbytes, List.append_assoc]
    rw [code_patchTo hcode hhole h.ready.room (by rw [List.length_append, length_code, hsite]), hbytes',
      List.append_assoc]

/-! ## The emitters -/

theorem movRaxImm_eq (c : Comp) (imm : Word) :
    c.movRaxImm imm = c.emitBytes (bytes [.movRaxImm imm]) := by
  rw [movRaxImm, emitU64, emitBytes_append]
  rfl

theorem pushRax_eq (c : Comp) : c.pushRax = c.emitBytes (bytes [.pushRax]) := by
  rw [pushRax, emit_eq]
  rfl

theorem popOperands_eq (c : Comp) :
    c.movRcxRax.popRax = c.emitBytes (bytes [.movRcxRax, .popRax]) := by
  rw [movRcxRax, popRax, emit_eq, emitBytes_append]
  rfl

theorem loadLocal_eq (c : Comp) (slot : Nat) :
    c.loadLocal slot = c.emitBytes (bytes [.loadRbp (rel (slotDisp slot))]) := by
  rw [loadLocal, emitU32, emitBytes_append]
  rfl

theorem storeLocal_eq (c : Comp) (slot : Nat) :
    c.storeLocal slot = c.emitBytes (bytes [.storeRbp (rel (slotDisp slot))]) := by
  rw [storeLocal, emitU32, emitBytes_append]
  rfl

theorem opNeg_eq (c : Comp) : c.opNeg = c.emitBytes (bytes [.negRax]) := rfl

theorem opCmpSet_eq (c : Comp) (cond : Cond) :
    c.opCmpSet cond.code = c.emitBytes (bytes (compareCode cond)) := by
  rw [opCmpSet, emitBytes_append, emitBytes_append]
  rfl

theorem emitBranch_eq (c : Comp) :
    c.emitBranch.2 = c.emitBytes (bytes (branchCode 0)) := by
  rw [emitBranch]
  dsimp only
  rw [emitU32, emitBytes_append, emitBytes_append]
  rfl

theorem emitJump_eq (c : Comp) : c.emitJump.2 = c.emitBytes (bytes [.jmp (rel 0)]) := by
  rw [emitJump]
  dsimp only
  rw [emitU32, emitBytes_append]
  rfl

theorem emitPrint_eq (c : Comp) (newline : Bool) :
    c.emitPrint newline = c.emitBytes (bytes (printCode newline)) := by
  rw [emitPrint]
  cases newline with
  | true =>
      rw [if_pos rfl, emitBytes_append, emitBytes_append, emitBytes_append]
      rfl
  | false =>
      rw [if_neg Bool.false_ne_true, emitBytes_append, emitBytes_append, emitBytes_append]
      rfl

theorem emitPrologue_eq (c : Comp) : c.emitPrologue = c.emitBytes (bytes prologueCode) := by
  rw [emitPrologue, emitU32, emit_eq, emitBytes_append, emitBytes_append, emitBytes_append]
  rfl

theorem emitExit_eq (c : Comp) : c.emitExit = c.emitBytes (bytes exitCode) := by
  rw [emitExit, emitBytes_append, emitBytes_append]
  rfl

end Comp

end PureOS.Barrel
