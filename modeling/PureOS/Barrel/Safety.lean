import PureOS.Barrel.Compiler
import PureOS.Barrel.Progress

set_option autoImplicit false

/-!
# Barrel: the compiler stays inside its tables and stops

One statement for every function of the compiler: it never panics, it keeps the
tables well formed, it writes to the code buffer alone, and it comes to an end
when its fuel is enough for what is left to read.  The exception is the loop over
the top-level statements, which stands still at a closing brace.
-/

namespace PureOS.Barrel

open PureOS.Foundation

namespace Comp

/-! ## What every step keeps -/

/-- What is left to read. -/
abbrev work (c : Comp) : Nat := c.toScan.work

/-- The tables are filled within their sizes, and names lie inside the source. -/
structure Good (c : Comp) : Prop where
  vars_length : c.vars.length ≤ maxLocals
  vars_inside : ∀ v ∈ c.vars, v.1 + v.2 ≤ c.src.length
  breaks_length : c.breaks.length ≤ maxBreaks
  name_inside : c.nameOff + c.nameLen ≤ c.src.length

/-- `c'` may come after `c`: nothing is unread, the first error stays, the tables
stay well formed, and nothing outside the code buffer is written. -/
structure Follows (c c' : Comp) : Prop where
  src : c'.src = c.src
  work : c'.work ≤ c.work
  err : c.err ≠ 0 → c'.err = c.err
  good : c.Good → c'.Good
  frame : ∀ a, a < codeOff ∨ elfBufSize ≤ a → c'.elf a = c.elf a

theorem Follows.refl (c : Comp) : Follows c c :=
  ⟨rfl, Nat.le_refl _, fun _ => rfl, id, fun _ _ => rfl⟩

theorem Follows.trans {c c' c'' : Comp} (h : Follows c c') (h' : Follows c' c'') :
    Follows c c'' where
  src := h'.src.trans h.src
  work := Nat.le_trans h'.work h.work
  err herr := (h'.err (h.err herr ▸ herr)).trans (h.err herr)
  good hg := h'.good (h.good hg)
  frame a ha := (h'.frame a ha).trans (h.frame a ha)

/-- A step of the scanner. -/
theorem Follows.of_reads {c : Comp} {s : Scan} (h : Scan.Reads c.toScan s) :
    Follows c { c with toScan := s } where
  src := h.src
  work := h.work
  err := h.err
  good hg := by
    refine ⟨hg.vars_length, fun v hv => ?_, hg.breaks_length, h.name hg.name_inside⟩
    rw [h.src]
    exact hg.vars_inside v hv
  frame _ _ := rfl

theorem follows_fail (c : Comp) (code : Int) : Follows c (c.fail code) :=
  .of_reads (c.toScan.reads_fail code)

theorem fail_err_ne {c : Comp} {code : Int} (h : code ≠ 0) : (c.fail code).err ≠ 0 :=
  Scan.fail_err_ne h

theorem next_follows (c : Comp) :
    ∃ c', c.next = .ok c' ∧ Follows c c' ∧ (c.tok ≠ .eof → c'.work < c.work) := by
  obtain ⟨s, hnext, hreads, hwork⟩ := c.toScan.next_reads
  refine ⟨{ c with toScan := s }, ?_, .of_reads hreads, hwork⟩
  rw [next, hnext]
  rfl

theorem eat_follows (c : Comp) (t : Tk) : ∃ c', c.eat t = .ok c' ∧ Follows c c' := by
  obtain ⟨s, heat, hreads⟩ := c.toScan.eat_reads t
  refine ⟨{ c with toScan := s }, ?_, .of_reads hreads⟩
  rw [eat, heat]
  rfl

/-! ## Emitters -/

theorem follows_emit (c : Comp) (b : UInt8) : Follows c (c.emit b) := by
  unfold emit
  dsimp only
  split
  · exact c.follows_fail eOverflow
  · rename_i hidx
    refine ⟨rfl, Nat.le_refl _, fun _ => rfl, fun hg => ⟨hg.1, hg.2, hg.3, hg.4⟩, fun a ha => ?_⟩
    exact Function.update_of_ne (by omega) _ _

theorem follows_emitBytes (c : Comp) (bs : List UInt8) : Follows c (c.emitBytes bs) := by
  induction bs generalizing c with
  | nil =>
      rw [emitBytes]
      exact .refl c
  | cons b bs ih =>
      rw [emitBytes]
      exact (c.follows_emit b).trans (ih _)

/-- A patch writes between the beginning of the code and the end of the buffer. -/
theorem patchBytes_frame (elf : Nat → UInt8) {idx : Nat} (bs : List UInt8) (h : codeOff ≤ idx)
    {a : Nat} (ha : a < codeOff ∨ elfBufSize ≤ a) : patchBytes elf idx bs a = elf a := by
  induction bs generalizing elf idx with
  | nil => rw [patchBytes]
  | cons b bs ih =>
      rw [patchBytes, ih _ (by omega)]
      split
      · exact Function.update_of_ne (by omega) _ _
      · rfl

theorem follows_patchTo (c : Comp) (site target : Nat) : Follows c (c.patchTo site target) :=
  ⟨rfl, Nat.le_refl _, fun _ => rfl, fun hg => ⟨hg.1, hg.2, hg.3, hg.4⟩,
    fun _ ha => patchBytes_frame c.elf _ (Nat.le_add_right _ _) ha⟩

theorem follows_emitU32 (c : Comp) (v : Int) : Follows c (c.emitU32 v) := c.follows_emitBytes _

theorem follows_movRaxImm (c : Comp) (imm : BitVec 64) : Follows c (c.movRaxImm imm) := by
  unfold movRaxImm emitU64
  exact (c.follows_emitBytes _).trans (follows_emitBytes _ _)

theorem follows_loadLocal (c : Comp) (slot : Nat) : Follows c (c.loadLocal slot) := by
  unfold loadLocal
  exact (c.follows_emitBytes _).trans (follows_emitU32 _ _)

theorem follows_storeLocal (c : Comp) (slot : Nat) : Follows c (c.storeLocal slot) := by
  unfold storeLocal
  exact (c.follows_emitBytes _).trans (follows_emitU32 _ _)

theorem follows_popOperands (c : Comp) : Follows c c.movRcxRax.popRax := by
  unfold movRcxRax popRax
  exact (c.follows_emitBytes _).trans (follows_emit _ _)

theorem follows_opCmpSet (c : Comp) (set2 : UInt8) : Follows c (c.opCmpSet set2) := by
  unfold opCmpSet
  exact ((c.follows_emitBytes _).trans (follows_emitBytes _ _)).trans (follows_emitBytes _ _)

theorem follows_opDiv (c : Comp) : Follows c c.opDiv := by
  unfold opDiv
  dsimp only
  refine Follows.trans ?_ (follows_patchTo _ _ _)
  refine Follows.trans ?_ (follows_patchTo _ _ _)
  refine Follows.trans ?_ (follows_emitBytes _ _)
  refine Follows.trans ?_ (follows_emitU32 _ _)
  refine Follows.trans ?_ (follows_emitBytes _ _)
  refine Follows.trans ?_ (follows_emitBytes _ _)
  refine Follows.trans ?_ (follows_emitBytes _ _)
  refine Follows.trans ?_ (follows_emitU32 _ _)
  exact (c.follows_emitBytes _).trans (follows_emitBytes _ _)

theorem follows_additive {t : Tk} {op : Comp → Comp} (h : additive t = some op) (c : Comp) :
    Follows c (op c) := by
  unfold additive at h
  split at h
  · cases h
    exact c.follows_emitBytes _
  · cases h
    exact c.follows_emitBytes _
  · cases h

theorem follows_multiplicative {t : Tk} {op : Comp → Comp} (h : multiplicative t = some op)
    (c : Comp) : Follows c (op c) := by
  unfold multiplicative at h
  split at h
  · cases h
    exact c.follows_emitBytes _
  · cases h
    exact c.follows_opDiv
  · cases h

theorem follows_emitBranch (c : Comp) : Follows c c.emitBranch.2 := by
  unfold emitBranch
  dsimp only
  exact ((c.follows_emitBytes _).trans (follows_emitBytes _ _)).trans (follows_emitU32 _ _)

theorem follows_emitJump (c : Comp) : Follows c c.emitJump.2 := by
  unfold emitJump
  dsimp only
  exact (c.follows_emitBytes _).trans (follows_emitU32 _ _)

theorem follows_emitPrologue (c : Comp) : Follows c c.emitPrologue := by
  unfold emitPrologue
  refine Follows.trans ?_ (follows_emitU32 _ _)
  exact ((c.follows_emit _).trans (follows_emitBytes _ _)).trans (follows_emitBytes _ _)

theorem follows_emitPrint (c : Comp) (newline : Bool) : Follows c (c.emitPrint newline) := by
  unfold emitPrint
  dsimp only
  refine Follows.trans ?_ (follows_emitBytes _ _)
  refine Follows.trans ?_ (follows_emitBytes _ _)
  cases newline with
  | true => exact (c.follows_emitBytes _).trans (follows_emitBytes _ _)
  | false => exact (c.follows_emitBytes _).trans (follows_emitBytes _ _)

theorem follows_emitExit (c : Comp) : Follows c c.emitExit := by
  unfold emitExit
  exact ((c.follows_emitBytes _).trans (follows_emitBytes _ _)).trans (follows_emitBytes _ _)

/-! ## Tables -/

/-- The search never leaves the table or the source. -/
theorem findSlot_ok {c : Comp} {off len : Nat} (hname : off + len ≤ c.src.length)
    (i : Nat) (rest : List (Nat × Nat)) (hrest : i + rest.length ≤ maxLocals)
    (hin : ∀ v ∈ rest, v.1 + v.2 ≤ c.src.length) : ∃ r, c.findSlot off len i rest = .ok r := by
  induction rest generalizing i with
  | nil => exact ⟨none, rfl⟩
  | cons v rest ih =>
      obtain ⟨o, l⟩ := v
      rw [List.length_cons] at hrest
      have hnext := ih (i + 1) (by omega) fun v hv => hin v (List.mem_cons_of_mem _ hv)
      have hv : o + l ≤ c.src.length := hin (o, l) List.mem_cons_self
      rw [findSlot, if_pos (by omega)]
      split
      · rw [Scan.slice_eq_ok (Nat.le_add_right o l) hv,
          Scan.slice_eq_ok (Nat.le_add_right off len) hname]
        rw [bind_ok, bind_ok]
        split
        · exact ⟨some i, rfl⟩
        · exact hnext
      · exact hnext

/-- `var_slot` finds or makes a slot, or fails. -/
theorem varSlot_follows {c : Comp} (hg : c.Good) :
    ∃ slot c', c.varSlot c.nameOff c.nameLen = .ok (slot, c') ∧ Follows c c' := by
  obtain ⟨r, hr⟩ := findSlot_ok hg.name_inside 0 c.vars (by have := hg.vars_length; omega)
    hg.vars_inside
  unfold varSlot
  rw [hr]
  cases r with
  | some i => exact ⟨i, c, rfl, .refl c⟩
  | none =>
      rw [bind_ok]
      dsimp only
      split
      · exact ⟨0, _, rfl, c.follows_fail eTooManyVars⟩
      · rename_i hlen
        refine ⟨c.vars.length, _, rfl, rfl, Nat.le_refl _, fun _ => rfl, fun hg => ?_, fun _ _ => rfl⟩
        refine ⟨?_, fun v hv => ?_, hg.breaks_length, hg.name_inside⟩
        · rw [List.length_append, List.length_singleton]
          omega
        · rcases List.mem_append.mp hv with hold | hnew
          · exact hg.vars_inside v hold
          · rw [List.mem_singleton.mp hnew]
            exact hg.name_inside

theorem closeLoop_follows (c : Comp) (target i : Nat) (sites : List Nat)
    (h : i + sites.length ≤ maxBreaks) :
    ∃ c', c.closeLoop target i sites = .ok c' ∧ Follows c c' := by
  induction sites generalizing c i with
  | nil => exact ⟨c, rfl, .refl c⟩
  | cons site rest ih =>
      rw [List.length_cons] at h
      obtain ⟨c', hclose, hfollows⟩ := ih (c.patchTo site target) (i + 1) (by omega)
      rw [closeLoop, if_pos (by omega)]
      exact ⟨c', hclose, (c.follows_patchTo site target).trans hfollows⟩

theorem closeBreaks_follows {c : Comp} (hg : c.Good) (bbase target : Nat)
    (h : bbase ≤ maxBreaks) : ∃ c', c.closeBreaks bbase target = .ok c' ∧ Follows c c' := by
  have hlen := hg.breaks_length
  obtain ⟨c', hclose, hfollows⟩ := c.closeLoop_follows target bbase (c.breaks.drop bbase)
    (by rw [List.length_drop]; omega)
  refine ⟨{ c' with breaks := c'.breaks.take bbase }, ?_, hfollows.src, hfollows.work,
    hfollows.err, fun hg => ?_, hfollows.frame⟩
  · rw [closeBreaks, hclose]
    rfl
  · obtain ⟨h₁, h₂, h₃, h₄⟩ := hfollows.good hg
    refine ⟨h₁, h₂, ?_, h₄⟩
    rw [List.length_take]
    exact Nat.le_trans (Nat.min_le_right _ _) h₃

/-! ## How a function ends -/

/-- A function that is called in `c` follows it, never panics, and with enough fuel
comes to an end. -/
structure Ends (c : Comp) (enough : Prop) (r : Except Fault Comp) : Prop where
  follows : ∀ c', r = .ok c' → Follows c c'
  no_panic : r ≠ .error .panic
  ends : enough → ∃ c', r = .ok c'

namespace Ends

variable {c : Comp} {w : Prop} {r : Except Fault Comp}

theorem ok {c' : Comp} (h : Follows c c') : Ends c w (.ok c') where
  follows c'' heq := by
    cases heq
    exact h
  no_panic := by simp
  ends _ := ⟨c', rfl⟩

theorem fuel (h : ¬w) : Ends c w (.error .fuel) where
  follows c' heq := by cases heq
  no_panic := by simp
  ends hw := absurd hw h

theorem mono {w' : Prop} (h : Ends c w r) (hw : w' → w) : Ends c w' r :=
  ⟨h.follows, h.no_panic, fun hw' => h.ends (hw hw')⟩

theorem after {c' : Comp} (h : Follows c c') (hr : Ends c' w r) : Ends c w r :=
  ⟨fun c'' heq => h.trans (hr.follows c'' heq), hr.no_panic, hr.ends⟩

theorem bind {g : Comp → Except Fault Comp} (h : Ends c w r)
    (hg : ∀ c', r = .ok c' → Follows c c' → Ends c' w (g c')) : Ends c w (r >>= g) := by
  cases r with
  | error fault =>
      cases fault with
      | fuel =>
          refine fuel fun hw => ?_
          obtain ⟨c', hc'⟩ := h.ends hw
          cases hc'
      | panic => exact absurd rfl h.no_panic
  | ok c' =>
      have hfollows := h.follows c' rfl
      exact after hfollows (hg c' rfl hfollows)

end Ends

/-! ## Expressions -/

/-- How the functions for expressions end with fuel `n`. -/
structure ExprEnds (n : Nat) : Prop where
  expr : ∀ c : Comp, c.Good → Ends c (8 * c.work + 5 ≤ n) (expr n c)
  cmp : ∀ c : Comp, c.Good → Ends c (8 * c.work + 4 ≤ n) (cmp n c)
  cmpLoop : ∀ c : Comp, c.Good → Ends c (8 * c.work + 1 ≤ n) (cmpLoop n c)
  add : ∀ c : Comp, c.Good → Ends c (8 * c.work + 3 ≤ n) (add n c)
  addLoop : ∀ c : Comp, c.Good → Ends c (8 * c.work + 1 ≤ n) (addLoop n c)
  mul : ∀ c : Comp, c.Good → Ends c (8 * c.work + 2 ≤ n) (mul n c)
  mulLoop : ∀ c : Comp, c.Good → Ends c (8 * c.work + 1 ≤ n) (mulLoop n c)
  atom : ∀ c : Comp, c.Good → Ends c (8 * c.work + 1 ≤ n) (atom n c)

theorem tok_ne_eof_of_setcc {t : Tk} {set2 : UInt8} (h : setcc t = some set2) : t ≠ .eof := by
  rintro rfl
  cases h

theorem tok_ne_eof_of_additive {t : Tk} {op : Comp → Comp} (h : additive t = some op) :
    t ≠ .eof := by
  rintro rfl
  cases h

theorem tok_ne_eof_of_multiplicative {t : Tk} {op : Comp → Comp}
    (h : multiplicative t = some op) : t ≠ .eof := by
  rintro rfl
  cases h

section

variable {n : Nat} {c : Comp}

/-- One turn of a loop over operators of a level. -/
theorem ends_operator {operand loop : Comp → Except Fault Comp} {op : Comp → Comp} {k : Nat}
    (hk : k ≤ 8) (hoperand : ∀ c : Comp, c.Good → Ends c (8 * c.work + k ≤ n) (operand c))
    (hloop : ∀ c : Comp, c.Good → Ends c (8 * c.work + 1 ≤ n) (loop c))
    (hop : ∀ c, Follows c (op c)) (hg : c.Good) (htok : c.tok ≠ .eof) :
    Ends c (8 * c.work + 1 ≤ n + 1) (do
      let c ← c.next
      let c := c.pushRax
      let c ← operand c
      let c := op c.movRcxRax.popRax
      if c.err ≠ 0 then return c else loop c) := by
  obtain ⟨c₁, hnext, hf₁, hwork⟩ := c.next_follows
  have hlt := hwork htok
  rw [hnext, bind_ok]
  have hf₂ : Follows c c₁.pushRax := hf₁.trans (c₁.follows_emit 0x50)
  have hle : c₁.pushRax.work ≤ c₁.work := (c₁.follows_emit 0x50).work
  refine .after hf₂ (.bind ((hoperand _ (hf₂.good hg)).mono fun hn => by omega) ?_)
  intro c₃ _ hf₃
  have hf₄ : Follows c₃ (op c₃.movRcxRax.popRax) := c₃.follows_popOperands.trans (hop _)
  dsimp only
  split
  · exact .ok hf₄
  · refine .after hf₄ ((hloop _ (hf₄.good (hf₃.good (hf₂.good hg)))).mono fun hn => ?_)
    have hle₃ := hf₃.work
    have hle₄ := hf₄.work
    omega

theorem ends_cmpLoop (ih : ExprEnds n) (hg : c.Good) :
    Ends c (8 * c.work + 1 ≤ n + 1) (cmpLoop (n + 1) c) := by
  rw [cmpLoop]
  cases htok : setcc c.tok with
  | none => exact .ok (.refl c)
  | some set2 =>
      exact ends_operator (by decide) ih.add ih.cmpLoop (fun c => c.follows_opCmpSet set2) hg
        (tok_ne_eof_of_setcc htok)

theorem ends_addLoop (ih : ExprEnds n) (hg : c.Good) :
    Ends c (8 * c.work + 1 ≤ n + 1) (addLoop (n + 1) c) := by
  rw [addLoop]
  cases htok : additive c.tok with
  | none => exact .ok (.refl c)
  | some op =>
      exact ends_operator (by decide) ih.mul ih.addLoop (follows_additive htok) hg
        (tok_ne_eof_of_additive htok)

theorem ends_mulLoop (ih : ExprEnds n) (hg : c.Good) :
    Ends c (8 * c.work + 1 ≤ n + 1) (mulLoop (n + 1) c) := by
  rw [mulLoop]
  cases htok : multiplicative c.tok with
  | none => exact .ok (.refl c)
  | some op =>
      exact ends_operator (by decide) ih.atom ih.mulLoop (follows_multiplicative htok) hg
        (tok_ne_eof_of_multiplicative htok)

/-- A level: one operand and the loop over the rest. -/
theorem ends_level {operand loop : Comp → Except Fault Comp} {k : Nat} (hk : 1 ≤ k)
    (hoperand : ∀ c : Comp, c.Good → Ends c (8 * c.work + k ≤ n) (operand c))
    (hloop : ∀ c : Comp, c.Good → Ends c (8 * c.work + 1 ≤ n) (loop c)) (hg : c.Good) :
    Ends c (8 * c.work + (k + 1) ≤ n + 1) (operand c >>= loop) := by
  refine .bind ((hoperand c hg).mono fun hn => by omega) fun c' _ hf => ?_
  refine (hloop c' (hf.good hg)).mono fun hn => ?_
  have hle := hf.work
  omega

theorem ends_atom (ih : ExprEnds n) (hg : c.Good) :
    Ends c (8 * c.work + 1 ≤ n + 1) (atom (n + 1) c) := by
  obtain ⟨c₁, hnext, hf₁, hwork⟩ := c.next_follows
  have hg₁ := hf₁.good hg
  rw [atom]
  split
  · -- A number.
    rw [hnext, bind_ok]
    exact .ok (hf₁.trans (c₁.follows_movRaxImm c.num))
  · -- A variable.
    obtain ⟨slot, c₂, hslot, hf₂⟩ := varSlot_follows hg
    obtain ⟨c₃, hnext₃, hf₃, _⟩ := c₂.next_follows
    rw [hslot, bind_ok]
    dsimp only
    rw [hnext₃, bind_ok]
    exact .ok ((hf₂.trans hf₃).trans (c₃.follows_loadLocal slot))
  · -- A parenthesis.
    rename_i htok
    have hlt := hwork (by rw [htok]; decide)
    rw [hnext, bind_ok]
    refine .after hf₁ (.bind ((ih.expr c₁ hg₁).mono fun hn => by omega) fun c₂ _ _ => ?_)
    obtain ⟨c₃, heat, hf₃⟩ := c₂.eat_follows .rParen
    rw [heat]
    exact .ok hf₃
  · -- A sign.
    rename_i htok
    have hlt := hwork (by rw [htok]; decide)
    rw [hnext, bind_ok]
    refine .after hf₁ (.bind ((ih.atom c₁ hg₁).mono fun hn => by omega) fun c₂ _ _ => ?_)
    exact .ok (c₂.follows_emitBytes _)
  · exact .ok (c.follows_fail eParse)

end

theorem exprEnds (n : Nat) : ExprEnds n := by
  induction n with
  | zero =>
      refine ⟨?_, ?_, ?_, ?_, ?_, ?_, ?_, ?_⟩
      · exact fun c _ => by rw [expr]; exact .fuel (by omega)
      · exact fun c _ => by rw [cmp]; exact .fuel (by omega)
      · exact fun c _ => by rw [cmpLoop]; exact .fuel (by omega)
      · exact fun c _ => by rw [add]; exact .fuel (by omega)
      · exact fun c _ => by rw [addLoop]; exact .fuel (by omega)
      · exact fun c _ => by rw [mul]; exact .fuel (by omega)
      · exact fun c _ => by rw [mulLoop]; exact .fuel (by omega)
      · exact fun c _ => by rw [atom]; exact .fuel (by omega)
  | succ n ih =>
      refine ⟨?_, ?_, ?_, ?_, ?_, ?_, ?_, ?_⟩
      · exact fun c hg => by rw [expr]; exact (ih.cmp c hg).mono fun hn => by omega
      · exact fun c hg => by rw [cmp]; exact ends_level (by decide) ih.add ih.cmpLoop hg
      · exact fun c hg => ends_cmpLoop ih hg
      · exact fun c hg => by rw [add]; exact ends_level (by decide) ih.mul ih.addLoop hg
      · exact fun c hg => ends_addLoop ih hg
      · exact fun c hg => by rw [mul]; exact ends_level (by decide) ih.atom ih.mulLoop hg
      · exact fun c hg => ends_mulLoop ih hg
      · exact fun c hg => ends_atom ih hg

/-! ## Statements -/

/-- The result of a statement in `c`: it reads on, or it fails. -/
def Consumes (c : Comp) (r : Except Fault Comp) : Prop :=
  ∀ c', r = .ok c' → c'.work < c.work ∨ c'.err ≠ 0

/-- How the functions for statements end with fuel `n`. -/
structure StmtEnds (n : Nat) : Prop where
  stmt : ∀ c : Comp, c.Good → Ends c (8 * c.work + 1 ≤ n) (stmt n c) ∧
    (c.tok ≠ .rBrace → c.tok ≠ .eof → Consumes c (Comp.stmt n c))
  blockLoop : ∀ c : Comp, c.Good → Ends c (8 * c.work + 2 ≤ n) (blockLoop n c)
  block : ∀ c : Comp, c.Good → Ends c (8 * c.work + 3 ≤ n) (block n c)

section

variable {n : Nat} {c : Comp}

/-- What begins with reading a token reads on. -/
theorem ends_next {w : Prop} {g : Comp → Except Fault Comp} (htok : c.tok ≠ .eof)
    (h : ∀ c₁, Follows c c₁ → c₁.work < c.work → Ends c₁ w (g c₁)) :
    Ends c w (c.next >>= g) ∧ (c.tok ≠ .rBrace → c.tok ≠ .eof → Consumes c (c.next >>= g)) := by
  obtain ⟨c₁, hnext, hf, hwork⟩ := c.next_follows
  have hends := h c₁ hf (hwork htok)
  rw [hnext, bind_ok]
  refine ⟨.after hf hends, fun _ _ c' heq => Or.inl ?_⟩
  exact Nat.lt_of_le_of_lt (hends.follows c' heq).work (hwork htok)

/-- The right-hand side of a `let`. -/
theorem ends_let {w : Prop} (hg : c.Good)
    (hexpr : ∀ c' : Comp, c'.Good → c'.work ≤ c.work → Ends c' w (expr n c')) :
    Ends c w (do
      let (slot, c) ← c.varSlot c.nameOff c.nameLen
      let c ← c.next
      let c ← c.eat .eq
      let c ← expr n c
      let c ← c.eat .semi
      return c.storeLocal slot) := by
  obtain ⟨slot, c₁, hslot, hf₁⟩ := varSlot_follows hg
  obtain ⟨c₂, hnext, hf₂, _⟩ := c₁.next_follows
  obtain ⟨c₃, heq, hf₃⟩ := c₂.eat_follows .eq
  have hf := (hf₁.trans hf₂).trans hf₃
  rw [hslot, bind_ok]
  dsimp only
  rw [hnext, bind_ok, heq, bind_ok]
  refine .after hf (.bind (hexpr c₃ (hf.good hg) hf.work) fun c₄ _ hf₄ => ?_)
  obtain ⟨c₅, hsemi, hf₅⟩ := c₄.eat_follows .semi
  rw [hsemi, bind_ok]
  exact .ok (hf₅.trans (c₅.follows_storeLocal slot))

/-- An expression, the `;` after it, and code for its value. -/
theorem ends_print {w : Prop} (hexpr : Ends c w (expr n c)) (newline : Bool) :
    Ends c w (do
      let c ← expr n c
      let c ← c.eat .semi
      return c.emitPrint newline) := by
  refine .bind hexpr fun c₁ _ _ => ?_
  obtain ⟨c₂, hsemi, hf₂⟩ := c₁.eat_follows .semi
  rw [hsemi, bind_ok]
  exact .ok (hf₂.trans (c₂.follows_emitPrint newline))

/-- The branches of an `if`. -/
theorem ends_branches {w : Prop} (siteElse : Nat) (hg : c.Good)
    (hblock : ∀ c' : Comp, c'.Good → c'.work ≤ c.work → Ends c' w (block n c')) :
    Ends c w (do
      let c ← block n c
      if c.tok = .else then
        let c ← c.next
        let (siteEnd, c) := c.emitJump
        let c := c.patchTo siteElse c.clen
        let c ← block n c
        return c.patchTo siteEnd c.clen
      else return c.patchTo siteElse c.clen) := by
  refine .bind (hblock c hg (Nat.le_refl _)) fun c₁ _ hf₁ => ?_
  split
  · obtain ⟨c₂, hnext, hf₂, _⟩ := c₁.next_follows
    have hf₃ := c₂.follows_emitJump
    rw [hnext, bind_ok]
    generalize c₂.emitJump = jump at hf₃ ⊢
    obtain ⟨siteEnd, c₃⟩ := jump
    have hf := ((hf₁.trans hf₂).trans hf₃).trans (c₃.follows_patchTo siteElse c₃.clen)
    refine .after ((hf₂.trans hf₃).trans (c₃.follows_patchTo siteElse c₃.clen)) ?_
    refine .bind (hblock _ (hf.good hg) hf.work) fun c₄ _ _ => ?_
    exact .ok (c₄.follows_patchTo siteEnd c₄.clen)
  · exact .ok (c₁.follows_patchTo siteElse c₁.clen)

/-- The body of a loop, its jump back, and the end that its exits are patched to. -/
theorem ends_loopBody {w : Prop} (top : Nat) (site : Option Nat) (hg : c.Good)
    (hblock : Ends c w (block n c)) :
    Ends c w (do
      let c' ← block n c
      let (siteBack, c') := c'.emitJump
      let c' := c'.patchTo siteBack top
      let endTarget := c'.clen
      let c' := match site with
        | some siteEnd => c'.patchTo siteEnd endTarget
        | none => c'
      c'.closeBreaks c.breaks.length endTarget) := by
  refine .bind hblock fun c₁ _ hf₁ => ?_
  have hf₂ := c₁.follows_emitJump
  generalize c₁.emitJump = jump at hf₂ ⊢
  obtain ⟨siteBack, c₂⟩ := jump
  have hf₃ := hf₂.trans (c₂.follows_patchTo siteBack top)
  have hf₄ : Follows c₁ (match site with
      | some siteEnd => (c₂.patchTo siteBack top).patchTo siteEnd (c₂.patchTo siteBack top).clen
      | none => c₂.patchTo siteBack top) := by
    cases site with
    | some siteEnd => exact hf₃.trans (follows_patchTo _ _ _)
    | none => exact hf₃
  dsimp only
  obtain ⟨c₅, hclose, hf₅⟩ := closeBreaks_follows (hf₄.good (hf₁.good hg)) c.breaks.length
    (c₂.patchTo siteBack top).clen hg.breaks_length
  rw [hclose]
  exact .ok (hf₄.trans hf₅)

theorem ends_break {w : Prop} : Ends c w (do
      let c ← c.eat .semi
      let (site, c) := c.emitJump
      if c.breaks.length < maxBreaks then return { c with breaks := c.breaks ++ [site] }
      else return c.fail eOverflow) := by
  obtain ⟨c₁, hsemi, hf₁⟩ := c.eat_follows .semi
  have hf₂ := c₁.follows_emitJump
  rw [hsemi, bind_ok]
  generalize c₁.emitJump = jump at hf₂ ⊢
  obtain ⟨site, c₂⟩ := jump
  dsimp only
  split
  · rename_i hlen
    have hf₃ : Follows c₂ { c₂ with breaks := c₂.breaks ++ [site] } := by
      refine ⟨rfl, Nat.le_refl _, fun _ => rfl, fun hg => ⟨hg.1, hg.2, ?_, hg.4⟩, fun _ _ => rfl⟩
      rw [List.length_append, List.length_singleton]
      omega
    exact .ok ((hf₁.trans hf₂).trans hf₃)
  · exact .ok ((hf₁.trans hf₂).trans (c₂.follows_fail eOverflow))

theorem ends_stmt (ih : StmtEnds n) (hg : c.Good) :
    Ends c (8 * c.work + 1 ≤ n + 1) (stmt (n + 1) c) ∧
      (c.tok ≠ .rBrace → c.tok ≠ .eof → Consumes c (stmt (n + 1) c)) := by
  -- Enough fuel for an expression or a block that begins after the first token.
  have hexpr : ∀ c' : Comp, c'.Good → c'.work < c.work →
      Ends c' (8 * c.work + 1 ≤ n + 1) (expr n c') := by
    intro c' hg' hlt
    exact ((exprEnds n).expr c' hg').mono fun hn => by omega
  have hblock : ∀ c' : Comp, c'.Good → c'.work < c.work →
      Ends c' (8 * c.work + 1 ≤ n + 1) (block n c') := by
    intro c' hg' hlt
    exact (ih.block c' hg').mono fun hn => by omega
  have hneof : ∀ {t : Tk}, c.tok = t → t ≠ .eof → c.tok ≠ .eof := fun htok ht => htok ▸ ht
  rw [stmt]
  split
  · rename_i htok
    have h := ends_next (w := 8 * c.work + 1 ≤ n + 1) (g := Except.ok) (hneof htok (by decide))
      fun c₁ _ _ => .ok (.refl c₁)
    have hpure : (c.next >>= Except.ok) = c.next := by cases c.next <;> rfl
    rwa [hpure] at h
  · rename_i htok
    refine ends_next (hneof htok (by decide)) fun c₁ hf₁ hlt => ?_
    split
    · exact .ok (c₁.follows_fail eParse)
    · exact ends_let (hf₁.good hg) fun c' hg' hle => hexpr c' hg' (Nat.lt_of_le_of_lt hle hlt)
  · rename_i htok
    refine ends_next (hneof htok (by decide)) fun c₁ hf₁ hlt => ?_
    exact ends_print (hexpr c₁ (hf₁.good hg) hlt) _
  · rename_i htok
    refine ends_next (hneof htok (by decide)) fun c₁ hf₁ hlt => ?_
    exact ends_print (hexpr c₁ (hf₁.good hg) hlt) _
  · rename_i htok
    refine ends_next (hneof htok (by decide)) fun c₁ hf₁ hlt => ?_
    refine .bind (hexpr c₁ (hf₁.good hg) hlt) fun c₂ _ hf₂ => ?_
    have hf₃ := c₂.follows_emitBranch
    generalize c₂.emitBranch = branch at hf₃ ⊢
    obtain ⟨siteElse, c₃⟩ := branch
    have hf := (hf₁.trans hf₂).trans hf₃
    refine .after hf₃ (ends_branches siteElse (hf.good hg) fun c' hg' hle => hblock c' hg' ?_)
    exact Nat.lt_of_le_of_lt (Nat.le_trans hle (hf₂.trans hf₃).work) hlt
  · rename_i htok
    refine ends_next (hneof htok (by decide)) fun c₁ hf₁ hlt => ?_
    refine .bind (hexpr c₁ (hf₁.good hg) hlt) fun c₂ _ hf₂ => ?_
    have hf₃ := c₂.follows_emitBranch
    generalize c₂.emitBranch = branch at hf₃ ⊢
    obtain ⟨siteEnd, c₃⟩ := branch
    have hf := (hf₁.trans hf₂).trans hf₃
    refine .after hf₃ (ends_loopBody c₁.clen (some siteEnd) (hf.good hg) (hblock c₃ (hf.good hg) ?_))
    exact Nat.lt_of_le_of_lt (hf₂.trans hf₃).work hlt
  · rename_i htok
    refine ends_next (hneof htok (by decide)) fun c₁ hf₁ hlt => ?_
    exact ends_loopBody c₁.clen none (hf₁.good hg) (hblock c₁ (hf₁.good hg) hlt)
  · rename_i htok
    exact ends_next (hneof htok (by decide)) fun c₁ _ _ => ends_break
  · rename_i htok
    exact ⟨.ok (.refl c), fun _ hne => absurd htok hne⟩
  · rename_i htok
    exact ⟨.ok (.refl c), fun hne => absurd htok hne⟩
  · refine ⟨.ok (c.follows_fail eParse), fun _ _ c' heq => Or.inr ?_⟩
    cases heq
    exact fail_err_ne (by decide)

theorem ends_blockLoop (ih : StmtEnds n) (hg : c.Good) :
    Ends c (8 * c.work + 2 ≤ n + 1) (blockLoop (n + 1) c) := by
  rw [blockLoop]
  split
  · rename_i hcond
    obtain ⟨hbrace, heof, _⟩ := hcond
    obtain ⟨hstmt, hconsumes⟩ := ih.stmt c hg
    refine .bind (hstmt.mono fun hn => by omega) fun c₁ heq hf₁ => ?_
    rcases hconsumes hbrace heof c₁ heq with hlt | herr
    · exact (ih.blockLoop c₁ (hf₁.good hg)).mono fun hn => by omega
    · -- After an error the loop ends at once.
      cases n with
      | zero =>
          rw [blockLoop]
          exact .fuel (by omega)
      | succ n =>
          rw [blockLoop, if_neg fun h => herr h.2.2]
          exact .ok (.refl c₁)
  · exact .ok (.refl c)

theorem ends_block (ih : StmtEnds n) (hg : c.Good) :
    Ends c (8 * c.work + 3 ≤ n + 1) (block (n + 1) c) := by
  obtain ⟨c₁, hopen, hf₁⟩ := c.eat_follows .lBrace
  rw [block, hopen, bind_ok]
  have hle := hf₁.work
  refine .after hf₁ (.bind ((ih.blockLoop c₁ (hf₁.good hg)).mono fun hn => by omega) ?_)
  intro c₂ _ _
  obtain ⟨c₃, hclose, hf₃⟩ := c₂.eat_follows .rBrace
  rw [hclose]
  exact .ok hf₃

end

theorem stmtEnds (n : Nat) : StmtEnds n := by
  induction n with
  | zero =>
      refine ⟨fun c _ => ⟨?_, fun _ _ c' heq => ?_⟩, fun c _ => ?_, fun c _ => ?_⟩
      · rw [stmt]
        exact .fuel (by omega)
      · rw [stmt] at heq
        cases heq
      · rw [blockLoop]
        exact .fuel (by omega)
      · rw [block]
        exact .fuel (by omega)
  | succ n ih =>
      exact ⟨fun c hg => ends_stmt ih hg, fun c hg => ends_blockLoop ih hg,
        fun c hg => ends_block ih hg⟩

end Comp

end PureOS.Barrel
