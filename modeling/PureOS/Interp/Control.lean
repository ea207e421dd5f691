import PureOS.Interp.Forward

set_option autoImplicit false

/-!
# Interp: where the pointer ends up (`barrel.rs`)

A statement is run as it should be when its arm of `exec_block` ends just behind its last
token, with the store that the meaning says and with the record of the meaning's run.  The
handlers of `if` and `while` take a closing brace that `skip_block` has taken already, a
`loop` ends with its first pass, and a `break` leaves a block: the runs that meet none of
this are run as they should be, and all others are not.
-/

namespace PureOS.Interp

open PureOS.Foundation

variable {c : Code} {ip : Nat} {s t : Stmt} {e : Expr} {σ σ' σ₁ σ₂ : Store} {v : Value}

/-! ## Blocks and conditions -/

theorem Code.closeBrace_of {m : Machine} (h : c.atTok m.ip .rBrace) : c.closeBrace m = m.step :=
  if_pos h

theorem Code.closeBrace_of_ne {m : Machine} (h : c.tok m.ip ≠ .rBrace) : c.closeBrace m = m :=
  if_neg fun hat => h hat.2

/-- From the beginning of a statement the loop of `exec_block` comes to its end. -/
def Reaches (c : Code) (ip : Nat) (s : Stmt) (σ σ' : Store) : Prop :=
  ∃ k N, ∀ n ≥ N, c.execBlock (n + k) ⟨ip, σ⟩ = c.execBlock n ⟨ip + s.len, σ'⟩

/-- A block ends at its closing brace. -/
theorem Block.runs (h : Block c ip s) (hreach : Reaches c ip s σ σ') :
    ∃ N, ∀ n ≥ N, c.execBlock n ⟨ip, σ⟩ = .ok ⟨ip + s.len, σ'⟩ := by
  obtain ⟨k, N, hrun⟩ := hreach
  refine ⟨N + k + 1, fun n hn => ?_⟩
  obtain ⟨m, rfl⟩ : ∃ m, n = m + 1 + k := ⟨n - k - 1, by omega⟩
  rw [hrun (m + 1) (by omega), Code.execBlock, if_neg (Nat.not_le_of_lt h.inside),
    if_pos (Or.inr h.close)]

theorem Block.at_close (h : Block c ip s) : c.atTok (ip + s.len) .rBrace := ⟨h.inside, h.close⟩

/-- A condition and the opening brace behind it. -/
structure CondAt (c : Code) (ip : Nat) (e : Expr) : Prop where
  conventional : e.Conventional
  has : c.Has ip e.toks
  brace : c.atTok (ip + e.toks.length) .lBrace

theorem CondAt.eval (h : CondAt c ip e) (hv : σ.value e = .ok (v, σ')) :
    c.eval ⟨ip, σ⟩ = .ok (v, ⟨ip + e.toks.length, σ'⟩) :=
  Code.eval_ok h.conventional h.has (Code.stops_of_binOp 0 h.brace.2 rfl) hv

/-- The condition of a `while`, which is evaluated without the pointer. -/
theorem CondAt.evalExpr (h : CondAt c ip e) (hv : σ.value e = .ok (v, σ')) :
    ∃ con, evalExpr c σ.env ⟨ip, σ.con⟩ = .ok (v, ⟨ip + e.toks.length, con⟩) ∧
      σ' = { σ with con := con } := by
  obtain ⟨⟨w, p⟩, hr, heq⟩ := bind_eq_ok (h.eval hv)
  obtain ⟨hw, hm⟩ := Prod.mk.inj (Except.ok.inj heq)
  obtain ⟨hip, hstore⟩ := Machine.mk.inj hm
  exact ⟨p.con, by rw [hr, ← hw, ← hip], hstore.symm⟩

/-- A condition, its block and what is behind it. -/
theorem condAt_of_has {rest : List (Token × BitVec 64)}
    (has : c.Has ip (e.toks ++ (.lBrace, 0) :: (s.toks ++ (.rBrace, 0) :: rest)))
    (he : e.Conventional) (hs : s.WellFormed)
    (fits : ip + e.toks.length + 1 + s.len + 1 + rest.length < c.tcount)
    (table : c.tcount ≤ maxTokens) :
    CondAt c ip e ∧ Block c (ip + e.toks.length + 1) s ∧
      c.Has (ip + e.toks.length + 1 + s.len + 1) rest := by
  obtain ⟨hhas, ⟨hopen, -⟩, hblock⟩ := Code.has_append.mp has
  exact ⟨⟨he, hhas, by omega, hopen⟩, block_of_has hblock hs fits table,
    (Code.has_append.mp hblock).2.2⟩

theorem Placed.ifThen (h : Placed c ip (.ifThen e s)) :
    c.tok ip = .if ∧ CondAt c (ip + 1) e ∧ Block c (ip + 1 + e.toks.length + 1) s ∧
      ip + (Stmt.ifThen e s).len = ip + 1 + e.toks.length + 1 + s.len + 1 := by
  have hlen : ip + (Stmt.ifThen e s).len = ip + 1 + e.toks.length + 1 + s.len + 1 := by
    simp only [Stmt.len, Stmt.toks, List.length_cons, List.length_append, List.length_nil]
    omega
  have hfits := h.fits
  rw [hlen] at hfits
  obtain ⟨hcond, hblock, -⟩ := condAt_of_has h.has.2 h.wellFormed.1 h.wellFormed.2 hfits h.table
  exact ⟨h.has.1.1, hcond, hblock, hlen⟩

theorem Placed.while (h : Placed c ip (.while e s)) :
    c.tok ip = .while ∧ CondAt c (ip + 1) e ∧ Block c (ip + 1 + e.toks.length + 1) s ∧
      ip + (Stmt.while e s).len = ip + 1 + e.toks.length + 1 + s.len + 1 := by
  have hlen : ip + (Stmt.while e s).len = ip + 1 + e.toks.length + 1 + s.len + 1 := by
    simp only [Stmt.len, Stmt.toks, List.length_cons, List.length_append, List.length_nil]
    omega
  have hfits := h.fits
  rw [hlen] at hfits
  obtain ⟨hcond, hblock, -⟩ := condAt_of_has h.has.2 h.wellFormed.1 h.wellFormed.2 hfits h.table
  exact ⟨h.has.1.1, hcond, hblock, hlen⟩

theorem Placed.ifElse (h : Placed c ip (.ifElse e s t)) :
    c.tok ip = .if ∧ CondAt c (ip + 1) e ∧ Block c (ip + 1 + e.toks.length + 1) s ∧
      c.atTok (ip + 1 + e.toks.length + 1 + s.len + 1) .else ∧
      c.atTok (ip + 1 + e.toks.length + 1 + s.len + 2) .lBrace ∧
      Block c (ip + 1 + e.toks.length + 1 + s.len + 3) t ∧
      ip + (Stmt.ifElse e s t).len = ip + 1 + e.toks.length + 1 + s.len + 3 + t.len + 1 := by
  have hlen : ip + (Stmt.ifElse e s t).len =
      ip + 1 + e.toks.length + 1 + s.len + 3 + t.len + 1 := by
    simp only [Stmt.len, Stmt.toks, List.length_cons, List.length_append, List.length_nil]
    omega
  have hfits := h.fits
  rw [hlen] at hfits
  obtain ⟨he, hs, ht⟩ := h.wellFormed
  have hhas : c.Has (ip + 1) (e.toks ++ (.lBrace, 0) :: (s.toks ++ (.rBrace, 0) ::
      ((.else, 0) :: (.lBrace, 0) :: (t.toks ++ [(.rBrace, 0)])))) := h.has.2
  obtain ⟨hcond, hblock, ⟨helse, -⟩, ⟨hopen, -⟩, hrest⟩ :=
    condAt_of_has hhas he hs
      (by simp only [List.length_cons, List.length_append, List.length_nil, Stmt.len] at *; omega)
      h.table
  refine ⟨h.has.1.1, hcond, hblock, ⟨by omega, helse⟩, ⟨by omega, hopen⟩, ?_, hlen⟩
  exact block_of_has hrest ht (by rw [List.length_nil]; omega) h.table

theorem Placed.loop (h : Placed c ip (.loop s)) :
    c.tok ip = .loop ∧ c.atTok (ip + 1) .lBrace ∧ Block c (ip + 2) s ∧
      ip + (Stmt.loop s).len = ip + 2 + s.len + 1 := by
  have hlen : ip + (Stmt.loop s).len = ip + 2 + s.len + 1 := by
    simp only [Stmt.len, Stmt.toks, List.length_cons, List.length_append, List.length_nil]
    omega
  have hfits := h.fits
  rw [hlen] at hfits
  obtain ⟨⟨hloop, -⟩, ⟨hopen, -⟩, hrest⟩ := h.has
  refine ⟨hloop, ⟨by omega, hopen⟩, ?_, hlen⟩
  exact block_of_has hrest h.wellFormed (by rw [List.length_nil]; omega) h.table

/-! ## Statements that are run as they should be -/

/-- The arm of a statement ends just behind its last token, with the store of the meaning. -/
def Right (c : Code) (_ : Way) (ip : Nat) (s : Stmt) (σ σ' : Store) : Prop :=
  ∃ N, ∀ n ≥ N, c.execArm (c.execBlock n) n ⟨ip, σ⟩ = .ok (true, ⟨ip + s.len, σ'⟩)

theorem Right.reaches {w : Way} (h : Right c w ip s σ σ') (hip : ip < c.tcount)
    (heof : c.tok ip ≠ .eof) (hbrace : c.tok ip ≠ .rBrace) : Reaches c ip s σ σ' := by
  obtain ⟨N, hN⟩ := h
  refine ⟨1, N, fun n hn => ?_⟩
  rw [Code.execBlock, if_neg (Nat.not_le_of_lt hip), if_neg (not_or.mpr ⟨heof, hbrace⟩), hN n hn]
  rfl

theorem Code.expectSemicolon_of {m : Machine} (h : c.tok m.ip = .semicolon) :
    c.expectSemicolon m = m.step := if_pos h

theorem right_empty {w : Way} (h : Placed c ip .empty) : Right c w ip .empty σ (σ.note ip) := by
  refine ⟨0, fun n _ => ?_⟩
  unfold Code.execArm
  rw [h.has.1.1]
  rfl

theorem right_print {w : Way} {newline : Bool} (h : Placed c ip (.print newline e))
    (hv : (σ.note ip).value e = .ok (v, σ₁)) :
    Right c w ip (.print newline e) σ (σ₁.print newline v) := by
  obtain ⟨⟨htok, -⟩, hrest⟩ := h.has
  obtain ⟨hhas, ⟨hsemi, -⟩, -⟩ := Code.has_append.mp hrest
  have heval := Code.eval_ok h.wellFormed hhas (Code.stops_of_binOp 0 hsemi rfl) hv
  have hprint : c.execPrint newline ⟨ip, σ.note ip⟩ =
      .ok ⟨ip + (Stmt.print newline e).len, σ₁.print newline v⟩ := by
    unfold Code.execPrint
    rw [Machine.step, heval, bind_ok]
    dsimp only
    rw [Code.expectSemicolon_of hsemi]
    simp only [Machine.step, Stmt.len, Stmt.toks, List.length_cons, List.length_append,
      List.length_nil]
    congr 2
    omega
  refine ⟨0, fun n _ => ?_⟩
  unfold Code.execArm
  rw [htok]
  cases newline with
  | true =>
      dsimp only [if_true]
      rw [hprint]
      rfl
  | false =>
      dsimp only
      rw [hprint]
      rfl

theorem right_assign {w : Way} {x : BitVec 64} (h : Placed c ip (.assign x e))
    (hv : (σ.note ip).value e = .ok (v, σ₁)) :
    Right c w ip (.assign x e) σ (σ₁.assign x v) := by
  obtain ⟨⟨htok, -⟩, ⟨hident, hname⟩, ⟨heq, -⟩, hrest⟩ := h.has
  obtain ⟨hhas, ⟨hsemi, -⟩, -⟩ := Code.has_append.mp hrest
  have hfits := h.fits
  have hlen : (Stmt.assign x e).len = e.toks.length + 4 := by
    simp only [Stmt.len, Stmt.toks, List.length_cons, List.length_append, List.length_nil]
  rw [hlen] at hfits
  have heval := Code.eval_ok h.wellFormed hhas (Code.stops_of_binOp 0 hsemi rfl) hv
  have hat₁ : c.atTok (ip + 1) .ident := ⟨by omega, hident⟩
  have hat₂ : c.atTok (ip + 1 + 1) .eq := ⟨by omega, heq⟩
  have hlet : c.execLet ⟨ip, σ.note ip⟩ =
      .ok ⟨ip + (Stmt.assign x e).len, σ₁.assign x v⟩ := by
    unfold Code.execLet
    refine (if_pos hat₁).trans ((if_pos hat₂).trans ?_)
    simp only [Machine.step]
    rw [heval, bind_ok, Code.expectSemicolon_of hsemi, hname rfl, hlen]
    simp only [Machine.step]
    congr 2
    omega
  refine ⟨0, fun n _ => ?_⟩
  unfold Code.execArm
  rw [htok]
  dsimp only
  rw [hlet]
  rfl

theorem right_input {w : Way} {x : BitVec 64} (h : Placed c ip (.input x))
    (hline : (σ.note ip).input x = .ok σ₁) : Right c w ip (.input x) σ σ₁ := by
  obtain ⟨⟨htok, -⟩, ⟨hident, hname⟩, ⟨hsemi, -⟩, -⟩ := h.has
  have hfits : ip + 3 < c.tcount := h.fits
  have hat : c.atTok (ip + 1) .ident := ⟨by omega, hident⟩
  have hinput : c.execInput ⟨ip, σ.note ip⟩ = .ok ⟨ip + (Stmt.input x).len, σ₁⟩ := by
    unfold Code.execInput
    refine (if_pos hat).trans ?_
    simp only [Machine.step]
    rw [hname rfl, hline, bind_ok, Code.expectSemicolon_of hsemi]
    rfl
  refine ⟨0, fun n _ => ?_⟩
  unfold Code.execArm
  rw [htok]
  dsimp only
  rw [hinput]
  rfl

theorem right_draw {w : Way} {kind : DrawKind} {args : List Expr} {vs : List Value}
    (h : Placed c ip (.draw kind args)) (hvals : (σ.note ip).values args = .ok (vs, σ₁)) :
    Right c w ip (.draw kind args) σ (σ₁.draw kind vs) := by
  obtain ⟨⟨htok, -⟩, hrest⟩ := h.has
  obtain ⟨harity, hargs⟩ := h.wellFormed
  obtain ⟨-, ⟨hsemi, -⟩, -⟩ := Code.has_append.mp hrest
  have heval := Code.evalArgs_ok hargs hrest hvals
  have hdraw : c.execDraw kind ⟨ip, σ.note ip⟩ =
      .ok ⟨ip + (Stmt.draw kind args).len, σ₁.draw kind vs⟩ := by
    unfold Code.execDraw
    rw [Machine.step, ← harity, heval, bind_ok]
    dsimp only
    rw [Code.expectSemicolon_of hsemi]
    simp only [Machine.step, Stmt.len, Stmt.toks, List.length_cons, List.length_append,
      List.length_nil]
    congr 2
    omega
  refine ⟨0, fun n _ => ?_⟩
  unfold Code.execArm
  rw [htok]
  cases kind with
  | _ =>
      dsimp only [DrawKind.token]
      rw [hdraw]
      rfl

/-! ## `if` -/

variable {block : Machine → Except Fault Machine}

/-- A taken block and its closing brace. -/
theorem Block.branch_taken (h : Block c (ip + 1) s) (hopen : c.atTok ip .lBrace)
    (hrun : block ⟨ip + 1, σ⟩ = .ok ⟨ip + 1 + s.len, σ'⟩) :
    c.execBranch block true ⟨ip, σ⟩ = .ok ⟨ip + 1 + s.len + 1, σ'⟩ := by
  unfold Code.execBranch
  rw [if_pos hopen]
  simp only [Machine.step, if_true]
  rw [hrun, bind_ok, Code.closeBrace_of h.at_close]
  rfl

/-- Behind a skipped block, one more closing brace is taken. -/
theorem Block.branch_skipped (h : Block c (ip + 1) s) (hopen : c.atTok ip .lBrace) :
    c.execBranch block false ⟨ip, σ⟩ = .ok (c.closeBrace ⟨ip + 1 + s.len + 1, σ⟩) := by
  unfold Code.execBranch
  rw [if_pos hopen]
  simp only [Machine.step, Bool.false_eq_true, if_false]
  rw [h.skipBlock, bind_ok]

/-- The condition of an `if` decides which block is taken. -/
theorem CondAt.execIf (h : CondAt c (ip + 1) e) (hv : σ.value e = .ok (v, σ')) :
    c.execIf block ⟨ip, σ⟩ = (do
      let m ← c.execBranch block v.truthy ⟨ip + 1 + e.toks.length, σ'⟩
      if c.atTok m.ip .else then c.execBranch block (!v.truthy) m.step else .ok m) := by
  unfold Code.execIf
  rw [Machine.step, h.eval hv, bind_ok]

theorem Code.execArm_if {n : Nat} (htok : c.tok ip = .if) :
    c.execArm block n ⟨ip, σ⟩ = (c.execIf block ⟨ip, σ.note ip⟩).map fun m => (true, m) := by
  unfold Code.execArm
  rw [htok]

theorem right_thenTaken {w : Way} (h : Placed c ip (.ifThen e s))
    (hv : (σ.note ip).value e = .ok (v, σ₁)) (holds : v.truthy = true)
    (body : Reaches c (ip + 1 + e.toks.length + 1) s σ₁ σ₂) : Right c w ip (.ifThen e s) σ σ₂ := by
  obtain ⟨htok, hcond, hblock, hlen⟩ := h.ifThen
  obtain ⟨N, hN⟩ := hblock.runs body
  refine ⟨N, fun n hn => ?_⟩
  have helse : ¬c.atTok (ip + 1 + e.toks.length + 1 + s.len + 1) .else := fun hat =>
    h.next (hlen ▸ hat.2)
  rw [Code.execArm_if htok, hcond.execIf hv, holds, hblock.branch_taken hcond.brace (hN n hn),
    bind_ok, if_neg helse, hlen]
  rfl

theorem right_elseTaken {w : Way} (h : Placed c ip (.ifElse e s t))
    (hv : (σ.note ip).value e = .ok (v, σ₁)) (fails : v.truthy = false)
    (body : Reaches c (ip + 1 + e.toks.length + 1 + s.len + 3) t σ₁ σ₂) :
    Right c w ip (.ifElse e s t) σ σ₂ := by
  obtain ⟨htok, hcond, hblock, helse, hopen, hblock', hlen⟩ := h.ifElse
  obtain ⟨N, hN⟩ := hblock'.runs body
  refine ⟨N, fun n hn => ?_⟩
  have hbrace : c.tok (ip + 1 + e.toks.length + 1 + s.len + 1) ≠ .rBrace := by
    rw [helse.2]
    exact Token.noConfusion
  rw [Code.execArm_if htok, hcond.execIf hv, fails, hblock.branch_skipped hcond.brace, bind_ok,
    Code.closeBrace_of_ne hbrace, if_pos helse, Bool.not_false, Machine.step,
    hblock'.branch_taken hopen (hN n hn), hlen]
  rfl

/-- An arm that takes one more closing brace where its statement ends, before it goes on to
something that is not there. -/
theorem right_iff_of_closeBrace {w : Way} {N : Nat} {k : Nat → Machine → Except Fault Machine}
    (hfits : ip + s.len < c.tcount)
    (harm : ∀ n ≥ N, c.execArm (c.execBlock n) n ⟨ip, σ⟩ =
      (k n (c.closeBrace ⟨ip + s.len, σ'⟩)).map fun m => (true, m))
    (hrest : ∀ n, k n ⟨ip + s.len, σ'⟩ = .ok ⟨ip + s.len, σ'⟩)
    (hlater : ∀ n m m', k n m = .ok m' → Later m m') :
    Right c w ip s σ σ' ↔ c.tok (ip + s.len) ≠ .rBrace := by
  constructor
  · rintro ⟨N', hN'⟩ hbrace
    have hrun := hN' (max N N') (Nat.le_max_right _ _)
    rw [harm _ (Nat.le_max_left _ _), Code.closeBrace_of ⟨hfits, hbrace⟩] at hrun
    cases hk : k (max N N') (Machine.step ⟨ip + s.len, σ'⟩) with
    | error fault =>
        rw [hk] at hrun
        cases hrun
    | ok m =>
        rw [hk] at hrun
        cases hrun
        exact Nat.not_succ_le_self _ (hlater _ _ _ hk).ip
  · intro hbrace
    refine ⟨N, fun n hn => ?_⟩
    rw [harm n hn, Code.closeBrace_of_ne hbrace, hrest n]
    rfl

/-- After the last block of an `if` was skipped, the pointer is right unless a closing brace
follows. -/
theorem right_thenSkipped_iff {w : Way} (h : Placed c ip (.ifThen e s))
    (hv : (σ.note ip).value e = .ok (v, σ₁)) (fails : v.truthy = false) :
    Right c w ip (.ifThen e s) σ σ₁ ↔ c.tok (ip + (Stmt.ifThen e s).len) ≠ .rBrace := by
  obtain ⟨htok, hcond, hblock, hlen⟩ := h.ifThen
  refine right_iff_of_closeBrace (N := 0) (k := fun n m =>
    if c.atTok m.ip .else then c.execBranch (c.execBlock n) true m.step else .ok m) h.fits ?_ ?_ ?_
  · intro n _
    rw [Code.execArm_if htok, hcond.execIf hv, fails, hblock.branch_skipped hcond.brace, hlen]
    rfl
  · intro n
    exact if_neg fun hat => h.next hat.2
  · intro n m m' heq
    split at heq
    · exact (Later.step m).trans (.branch (fun _ _ => .execBlock) heq)
    · cases heq
      exact .refl m

theorem right_elseSkipped_iff {w : Way} (h : Placed c ip (.ifElse e s t))
    (hv : (σ.note ip).value e = .ok (v, σ₁)) (holds : v.truthy = true)
    (body : Reaches c (ip + 1 + e.toks.length + 1) s σ₁ σ₂) :
    Right c w ip (.ifElse e s t) σ σ₂ ↔ c.tok (ip + (Stmt.ifElse e s t).len) ≠ .rBrace := by
  obtain ⟨htok, hcond, hblock, helse, hopen, hblock', hlen⟩ := h.ifElse
  obtain ⟨N, hN⟩ := hblock.runs body
  refine right_iff_of_closeBrace (N := N) (k := fun _ m => .ok m) h.fits ?_ (fun _ => rfl) ?_
  · intro n hn
    rw [Code.execArm_if htok, hcond.execIf hv, holds, hblock.branch_taken hcond.brace (hN n hn),
      bind_ok, if_pos helse, Bool.not_true, Machine.step, hblock'.branch_skipped hopen, hlen]
  · intro n m m' heq
    cases heq
    exact .refl m

end PureOS.Interp
