import PureOS.Interp.Repetition

set_option autoImplicit false

/-!
# Interp: which statements are run as they should be (`barrel.rs`)

A run is clean when no `if` whose last block is skipped and no `while` stands in front of a
closing brace, no condition of a `while` reads a line, no `while` is left by a `break`, and
there is no `loop`.  The statements of a run are all run as they should be exactly if the
run is clean.
-/

namespace PureOS.Interp

open PureOS.Foundation

variable {c : Code} {ip : Nat} {s t : Stmt} {e : Expr} {σ σ' σ₁ σ₂ : Store} {v : Value}
variable {sig : Signal}

/-- The number of lines that the condition of a `while` reads. -/
def Stmt.condInputs : Stmt → Nat
  | .while e _ => e.inputs
  | _ => 0

/-- A statement for which the handlers of the source agree on who takes a closing brace. -/
def Clean (c : Code) : Way → Nat → Stmt → Store → Store → Prop
  | .ran, _, _, _, _ => True
  | .turned, _, _, _, _ => True
  | .skipped, ip, s, _, _ => c.tok (ip + s.len) ≠ .rBrace
  | .tested, ip, s, _, _ => c.tok (ip + s.len) ≠ .rBrace ∧ s.condInputs = 0
  | .passed, _, _, _, _ => False
  | .left, _, _, _, _ => False

/-- Where a statement other than an empty block begins, `exec_block` goes on. -/
theorem Placed.begins (h : Placed c ip s) (hskip : s ≠ .skip) (hseq : ∀ a b, s ≠ .seq a b) :
    ip < c.tcount ∧ c.tok ip ≠ .eof ∧ c.tok ip ≠ .rBrace := by
  refine ⟨Nat.lt_of_le_of_lt (Nat.le_add_right _ _) h.fits, ?_⟩
  have hhas := h.has
  cases s with
  | skip => exact absurd rfl hskip
  | seq a b => exact absurd rfl (hseq a b)
  | print newline e =>
      rw [hhas.1.1]
      cases newline <;> exact ⟨Token.noConfusion, Token.noConfusion⟩
  | draw kind args =>
      rw [hhas.1.1]
      cases kind <;> exact ⟨Token.noConfusion, Token.noConfusion⟩
  | _ =>
      rw [hhas.1.1]
      exact ⟨Token.noConfusion, Token.noConfusion⟩

theorem Placed.reaches {w : Way} (h : Placed c ip s) (hskip : s ≠ .skip)
    (hseq : ∀ a b, s ≠ .seq a b) (hright : Right c w ip s σ σ') : Reaches c ip s σ σ' := by
  obtain ⟨hip, heof, hbrace⟩ := h.begins hskip hseq
  exact hright.reaches hip heof hbrace

theorem Reaches.seq (h : Reaches c ip s σ σ₁) (h' : Reaches c (ip + s.len) t σ₁ σ₂) :
    Reaches c ip (.seq s t) σ σ₂ := by
  obtain ⟨k, N, hrun⟩ := h
  obtain ⟨k', N', hrun'⟩ := h'
  refine ⟨k' + k, max N N', fun n hn => ?_⟩
  rw [← Nat.add_assoc, hrun (n + k') (by omega), hrun' n (by omega), Stmt.len, Stmt.len, Stmt.len,
    Stmt.toks, List.length_append, Nat.add_assoc]

/-- When all statements of a run are run as they should be, its end is reached. -/
theorem Runs.reaches (run : Runs (Right c) ip s σ sig σ') (h : Placed c ip s)
    (hsig : sig = .normal) : Reaches c ip s σ σ' := by
  induction run with
  | skip => exact ⟨0, 0, fun _ _ => rfl⟩
  | seq _ _ ih₁ ih₂ => exact (ih₁ h.seqLeft rfl).seq (ih₂ h.seqRight hsig)
  | seqBreak _ _ => cases hsig
  | empty ok => exact h.reaches Stmt.noConfusion (fun _ _ => Stmt.noConfusion) ok
  | print _ ok => exact h.reaches Stmt.noConfusion (fun _ _ => Stmt.noConfusion) ok
  | assign _ ok => exact h.reaches Stmt.noConfusion (fun _ _ => Stmt.noConfusion) ok
  | input _ ok => exact h.reaches Stmt.noConfusion (fun _ _ => Stmt.noConfusion) ok
  | draw _ ok => exact h.reaches Stmt.noConfusion (fun _ _ => Stmt.noConfusion) ok
  | thenTaken _ _ _ ok _ =>
      exact h.reaches Stmt.noConfusion (fun _ _ => Stmt.noConfusion) (ok hsig)
  | thenSkipped _ _ ok => exact h.reaches Stmt.noConfusion (fun _ _ => Stmt.noConfusion) ok
  | elseSkipped _ _ _ ok _ =>
      exact h.reaches Stmt.noConfusion (fun _ _ => Stmt.noConfusion) (ok hsig)
  | elseTaken _ _ _ ok _ =>
      exact h.reaches Stmt.noConfusion (fun _ _ => Stmt.noConfusion) (ok hsig)
  | whileStop _ _ ok => exact h.reaches Stmt.noConfusion (fun _ _ => Stmt.noConfusion) ok
  | whileTurn _ _ _ _ ok _ _ => exact h.reaches Stmt.noConfusion (fun _ _ => Stmt.noConfusion) ok
  | whileBreak _ _ _ ok _ => exact h.reaches Stmt.noConfusion (fun _ _ => Stmt.noConfusion) ok
  | loopPass _ _ ok _ _ => exact h.reaches Stmt.noConfusion (fun _ _ => Stmt.noConfusion) ok
  | loopBreak _ ok _ => exact h.reaches Stmt.noConfusion (fun _ _ => Stmt.noConfusion) ok
  | «break» => cases hsig

/-- The turns of a `while` in such a run. -/
theorem Runs.whileTurns (run : Runs (Right c) ip t σ sig σ') (h : Placed c ip t)
    (ht : t = .while e s) : WhileTurns c ip e s σ σ' := by
  induction run with
  | whileStop val fails _ =>
      cases ht
      exact whileTurns_stop h val fails
  | whileTurn val holds body _ _ _ ih =>
      cases ht
      exact whileTurns_turn h val holds (body.reaches h.while.2.2.1.placed rfl) (ih h rfl)
  | whileBreak val _ body ok _ =>
      cases ht
      exact absurd ok (not_right_whileBreak h val body)
  | _ => cases ht

/-- What is clean about the last turn of a `while` does not depend on the turn. -/
theorem Runs.while_clean (run : Runs (Clean c) ip t σ sig σ') (ht : t = .while e s) :
    c.tok (ip + (Stmt.while e s).len) ≠ .rBrace ∧ e.inputs = 0 := by
  induction run with
  | whileStop _ _ ok =>
      cases ht
      exact ok
  | whileTurn _ _ _ _ _ _ ih => exact ih ht
  | whileBreak _ _ _ ok _ => exact ok.elim
  | _ => cases ht

/-- One step for each kind of statement: in a clean run it is run as it should be. -/
theorem Runs.right_of_clean (run : Runs (Clean c) ip s σ sig σ') (h : Placed c ip s) :
    Runs (Right c) ip s σ sig σ' := by
  induction run with
  | skip => exact .skip
  | seq _ _ ih₁ ih₂ => exact .seq (ih₁ h.seqLeft) (ih₂ h.seqRight)
  | seqBreak _ ih => exact .seqBreak (ih h.seqLeft)
  | empty _ => exact .empty (right_empty h)
  | print val _ => exact .print val (right_print h val)
  | assign val _ => exact .assign val (right_assign h val)
  | input line _ => exact .input line (right_input h line)
  | draw vals _ => exact .draw vals (right_draw h vals)
  | thenTaken val holds _ _ ih =>
      have hblock := h.ifThen.2.2.1
      have body := ih hblock.placed
      exact .thenTaken val holds body fun hsig =>
        right_thenTaken h val holds (body.reaches hblock.placed hsig)
  | thenSkipped val fails ok =>
      exact .thenSkipped val fails ((right_thenSkipped_iff h val fails).mpr ok)
  | elseSkipped val holds _ ok ih =>
      have hblock := h.ifElse.2.2.1
      have body := ih hblock.placed
      exact .elseSkipped val holds body fun hsig =>
        (right_elseSkipped_iff h val holds (body.reaches hblock.placed hsig)).mpr (ok hsig)
  | elseTaken val fails _ _ ih =>
      have hblock := h.ifElse.2.2.2.2.2.1
      have body := ih hblock.placed
      exact .elseTaken val fails body fun hsig =>
        right_elseTaken h val fails (body.reaches hblock.placed hsig)
  | whileStop val fails ok => exact .whileStop val fails ((right_tested_iff h val fails).mpr ok)
  | whileTurn val holds _ rest _ ih₁ ih₂ =>
      have hblock := h.while.2.2.1
      have body := ih₁ hblock.placed
      have hrest := ih₂ h
      obtain ⟨hbrace, hin⟩ := rest.while_clean rfl
      have hturns := whileTurns_turn h val holds (body.reaches hblock.placed rfl)
        (hrest.whileTurns h rfl)
      exact .whileTurn val holds body hrest ((right_while_iff_of_turns h hin hturns).mpr hbrace)
  | whileBreak _ _ _ ok _ => exact ok.elim
  | loopPass _ _ ok _ _ => exact ok.elim
  | loopBreak _ ok _ => exact ok.elim
  | «break» => exact .break

/-- Where a statement of a run is not clean, it is not run as it should be. -/
theorem Runs.clean_of_right (run : Runs (Right c) ip s σ sig σ') (h : Placed c ip s) :
    Runs (Clean c) ip s σ sig σ' := by
  induction run with
  | skip => exact .skip
  | seq _ _ ih₁ ih₂ => exact .seq (ih₁ h.seqLeft) (ih₂ h.seqRight)
  | seqBreak _ ih => exact .seqBreak (ih h.seqLeft)
  | empty _ => exact .empty trivial
  | print val _ => exact .print val trivial
  | assign val _ => exact .assign val trivial
  | input line _ => exact .input line trivial
  | draw vals _ => exact .draw vals trivial
  | thenTaken val holds _ _ ih =>
      exact .thenTaken val holds (ih h.ifThen.2.2.1.placed) fun _ => trivial
  | thenSkipped val fails ok =>
      exact .thenSkipped val fails ((right_thenSkipped_iff h val fails).mp ok)
  | elseSkipped val holds body ok ih =>
      have hplaced := h.ifElse.2.2.1.placed
      exact .elseSkipped val holds (ih hplaced) fun hsig =>
        (right_elseSkipped_iff h val holds (body.reaches hplaced hsig)).mp (ok hsig)
  | elseTaken val fails _ _ ih =>
      exact .elseTaken val fails (ih h.ifElse.2.2.2.2.2.1.placed) fun _ => trivial
  | whileStop val fails ok => exact .whileStop val fails ((right_tested_iff h val fails).mp ok)
  | whileTurn val holds _ _ _ ih₁ ih₂ =>
      exact .whileTurn val holds (ih₁ h.while.2.2.1.placed) (ih₂ h) trivial
  | whileBreak val _ body ok _ => exact absurd ok (not_right_whileBreak h val body)
  | loopPass body rest ok _ _ =>
      exact absurd ok (not_right_loopPass h (body.reaches h.loop.2.2.1.placed rfl) rest)
  | loopBreak body ok _ => exact absurd ok (not_right_loopBreak h body)
  | «break» => exact .break

/-- The statements that a run of a script ends are all run as they should be exactly if the
run is clean. -/
theorem runs_right_iff (h : Placed c ip s) :
    Runs (Right c) ip s σ sig σ' ↔ Runs (Clean c) ip s σ sig σ' :=
  ⟨fun run => run.clean_of_right h, fun run => run.right_of_clean h⟩

theorem placed_ofToks (hs : s.WellFormed) (hlen : s.len < maxTokens) :
    Placed (.ofToks s.toks) 0 s where
  has := Code.has_ofToks hlen.le
  wellFormed := hs
  fits := by
    rw [Nat.zero_add]
    exact Nat.lt_succ_self _
  table := hlen
  next := by
    rw [Nat.zero_add]
    simp [Code.tok, Code.ofToks, hlen]

/-- The store in front of a script. -/
def Store.start : Store := ⟨⟨[], []⟩, [], Vector.replicate _ 0, [], []⟩

/-- A taken block. -/
def taken : Stmt := .ifThen (.num 1) (.print true (.num 2))

/-- `break` where it belongs. -/
def breaking : Stmt := .loop .break

/-- A block that is taken is run as it should be. -/
theorem runs_right_iff_taken :
    ∃ σ', Runs (Right (.ofToks taken.toks)) 0 taken .start .normal σ' := by
  have h : Placed (.ofToks taken.toks) 0 taken :=
    placed_ofToks ⟨trivial, trivial⟩ (by decide)
  exact ⟨_, (runs_right_iff h).mpr (.thenTaken rfl rfl (.print rfl trivial) fun _ => trivial)⟩

/-- A `loop` that is left by `break` is not. -/
theorem not_runs_right_breaking :
    ¬∀ (c : Code) (ip : Nat) (s : Stmt) (σ : Store) (sig : Signal) (σ' : Store),
      Placed c ip s → Meaning ip s σ sig σ' → Runs (Right c) ip s σ sig σ' := by
  intro hall
  have h : Placed (.ofToks breaking.toks) 0 breaking := placed_ofToks trivial (by decide)
  have run := hall _ _ _ .start _ _ h (.loopBreak .break trivial)
  cases run with
  | loopPass body _ _ => cases body
  | loopBreak body ok => exact not_right_loopBreak h body ok

/-- A script with a clean run is executed to its end. -/
theorem execBlock_of_clean (run : Runs (Clean c) ip s σ .normal σ') (h : Placed c ip s)
    (hend : c.tok (ip + s.len) = .eof) :
    ∃ N, ∀ n ≥ N, c.execBlock n ⟨ip, σ⟩ = .ok ⟨ip + s.len, σ'⟩ := by
  obtain ⟨k, N, hrun⟩ := (run.right_of_clean h).reaches h rfl
  refine ⟨N + k + 1, fun n hn => ?_⟩
  obtain ⟨m, rfl⟩ : ∃ m, n = m + 1 + k := ⟨n - k - 1, by omega⟩
  rw [hrun (m + 1) (by omega), Code.execBlock, if_neg (Nat.not_le_of_lt h.fits),
    if_pos (Or.inl hend)]

end PureOS.Interp
