import PureOS.Interp.Control

set_option autoImplicit false

/-!
# Interp: loops (`barrel.rs`)

A `while` whose condition reads no line turns as its meaning does, and then takes one more
closing brace.  A `loop` is over when its first pass reaches the closing brace, and what a
`break` leaves is a block and not a loop: the record of a run tells the difference.
-/

namespace PureOS.Interp

open PureOS.Foundation

variable {c : Code} {ip q b : Nat} {s t : Stmt} {e : Expr} {σ σ' σ₁ σ₂ : Store} {v : Value}
variable {block : Machine → Except Fault Machine} {n : Nat}

/-! ## Conditions -/

/-- A condition that reads no line changes nothing. -/
theorem Store.value_of_inputs (σ : Store) (h : e.inputs = 0) : ∃ v, σ.value e = .ok (v, σ) := by
  obtain ⟨v, hv⟩ := Expr.value_of_inputs_eq_zero σ.env (e.inputs_leftToRight.trans h)
  refine ⟨v, ?_⟩
  unfold Store.value
  rw [hv σ.con]
  rfl

theorem Store.inputs_add_keys_le (h : σ.value e = .ok (v, σ')) :
    e.inputs + σ'.con.keys.length ≤ σ.con.keys.length := by
  obtain ⟨con, hcon, rfl⟩ := Store.value_ok h
  rw [← e.inputs_leftToRight]
  exact Expr.inputs_add_keys_le hcon

theorem CondAt.value_of_evalExpr (h : CondAt c ip e) {p : Point}
    (heval : PureOS.Interp.evalExpr c σ.env ⟨ip, σ.con⟩ = .ok (v, p)) :
    σ.value e = .ok (v, { σ with con := p.con }) := by
  have hmachine : c.eval ⟨ip, σ⟩ = .ok (v, ⟨p.ip, { σ with con := p.con }⟩) := by
    unfold Code.eval
    rw [heval, bind_ok]
  rw [Code.eval_eq h.conventional h.has (Code.stops_of_binOp 0 h.brace.2 rfl)] at hmachine
  obtain ⟨r, hr, heq⟩ := bind_eq_ok hmachine
  obtain ⟨hv, hm⟩ := Prod.mk.inj (Except.ok.inj heq)
  obtain ⟨-, hstore⟩ := Machine.mk.inj hm
  rw [hr, ← hv, ← hstore]

/-! ## `while` -/

theorem whileTurn_stop (h : CondAt c ip e) (hv : σ.value e = .ok (v, σ₁))
    (fails : v.truthy = false) :
    c.whileTurn block ip b ⟨q, σ⟩ = .ok (false, ⟨q, σ₁.note ip⟩) := by
  obtain ⟨con, heval, rfl⟩ := h.evalExpr hv
  unfold Code.whileTurn
  rw [heval, bind_ok]
  dsimp only
  rw [if_pos (by rw [fails]; exact Bool.false_ne_true)]

theorem whileTurn_again (h : CondAt c ip e) (hv : σ.value e = .ok (v, σ₁))
    (holds : v.truthy = true) {m : Machine} (hrun : block ⟨b + 1, σ₁.note ip⟩ = .ok m) :
    c.whileTurn block ip b ⟨q, σ⟩ = .ok (true, m) := by
  obtain ⟨con, heval, rfl⟩ := h.evalExpr hv
  unfold Code.whileTurn
  rw [heval, bind_ok]
  dsimp only
  rw [if_neg (not_not_intro holds), hrun, bind_ok]

/-- The turns of a `while` lead to what its meaning says, and to where `skip_block` finds the
end of the block. -/
def WhileTurns (c : Code) (ip : Nat) (e : Expr) (s : Stmt) (σ σ' : Store) : Prop :=
  ∃ N, ∀ n ≥ N, ∀ m ≥ N, ∀ q, c.skipBlock q = ip + (Stmt.while e s).len →
    ∃ q', c.skipBlock q' = ip + (Stmt.while e s).len ∧
      turns (c.whileTurn (c.execBlock n) (ip + 1) (ip + 1 + e.toks.length)) m ⟨q, σ⟩ =
        .ok ⟨q', σ'⟩

theorem whileTurns_stop (h : Placed c ip (.while e s)) (hv : σ.value e = .ok (v, σ₁))
    (fails : v.truthy = false) : WhileTurns c ip e s σ (σ₁.note (ip + 1)) := by
  obtain ⟨-, hcond, -, -⟩ := h.while
  refine ⟨1, fun n _ m hm q hq => ⟨q, hq, ?_⟩⟩
  obtain ⟨m, rfl⟩ := Nat.exists_eq_add_of_le' hm
  exact turns_last (whileTurn_stop hcond hv fails)

theorem whileTurns_turn (h : Placed c ip (.while e s)) (hv : σ.value e = .ok (v, σ₁))
    (holds : v.truthy = true)
    (body : Reaches c (ip + 1 + e.toks.length + 1) s (σ₁.note (ip + 1)) σ₂)
    (rest : WhileTurns c ip e s σ₂ σ') : WhileTurns c ip e s σ σ' := by
  obtain ⟨-, hcond, hblock, hlen⟩ := h.while
  obtain ⟨N, hN⟩ := hblock.runs body
  obtain ⟨N', hN'⟩ := rest
  refine ⟨max N (N' + 1), fun n hn m hm q _ => ?_⟩
  obtain ⟨m, rfl⟩ : ∃ m', m = m' + 1 := ⟨m - 1, by omega⟩
  rw [turns_again (whileTurn_again hcond hv holds (hN n (by omega)))]
  exact hN' n (by omega) m (by omega) _ (hblock.skipBlock_close.trans hlen.symm)

theorem Code.execArm_while (htok : c.tok ip = .while) :
    c.execArm block n ⟨ip, σ⟩ = (c.execWhile block n ⟨ip, σ⟩).map fun m => (true, m) := by
  unfold Code.execArm
  rw [htok]

theorem CondAt.execWhile (h : CondAt c (ip + 1) e) (hv : σ.value e = .ok (v, σ₁)) :
    c.execWhile block n ⟨ip, σ⟩ = (do
      let m ← turns (c.whileTurn block (ip + 1) (ip + 1 + e.toks.length)) n
        ⟨ip + 1 + e.toks.length + 1, σ₁⟩
      .ok (c.closeBrace { m with ip := c.skipBlock m.ip })) := by
  unfold Code.execWhile
  simp only [Machine.step]
  rw [h.eval hv, bind_ok]
  exact if_pos h.brace

/-- A `while` whose turns are those of its meaning is right unless a closing brace follows. -/
theorem right_while_iff_of_turns {w : Way} (h : Placed c ip (.while e s)) (hin : e.inputs = 0)
    (hturns : WhileTurns c ip e s σ σ') :
    Right c w ip (.while e s) σ σ' ↔ c.tok (ip + (Stmt.while e s).len) ≠ .rBrace := by
  obtain ⟨htok, hcond, hblock, hlen⟩ := h.while
  obtain ⟨N, hN⟩ := hturns
  obtain ⟨v, hv⟩ := σ.value_of_inputs hin
  refine right_iff_of_closeBrace (N := N) (k := fun _ m => .ok m) h.fits ?_ (fun _ => rfl) ?_
  · intro n hn
    obtain ⟨q', hq', hrun⟩ := hN n hn n hn _ (hblock.skipBlock.trans hlen.symm)
    rw [Code.execArm_while htok, hcond.execWhile hv, hrun, bind_ok, hq']
  · intro n m m' heq
    cases heq
    exact .refl m

/-- A turn of a `while` reads the lines of its condition. -/
theorem whileTurn_keys (h : CondAt c ip e) {m m' : Machine} {again : Bool}
    (hturn : c.whileTurn (c.execBlock n) ip b m = .ok (again, m')) :
    e.inputs + m'.σ.con.keys.length ≤ m.σ.con.keys.length := by
  obtain ⟨⟨v, p⟩, hr, hturn⟩ := bind_eq_ok hturn
  have hkeys := Store.inputs_add_keys_le (h.value_of_evalExpr hr)
  dsimp only at hturn hkeys
  split at hturn
  · cases hturn
    exact hkeys
  · obtain ⟨m₁, hm₁, heq⟩ := bind_eq_ok hturn
    cases heq
    have hlater := (Later.execBlock hm₁).keys
    dsimp only [Store.note] at hlater
    omega

theorem whileTurns_keys (h : CondAt c ip e) {m m' : Machine} {k : Nat}
    (hturns : turns (c.whileTurn (c.execBlock n) ip b) k m = .ok m') :
    e.inputs + m'.σ.con.keys.length ≤ m.σ.con.keys.length := by
  obtain ⟨m'', hleads, hlast⟩ := leads_of_turns hturns
  have hstart : m''.σ.con.keys.length ≤ m.σ.con.keys.length := by
    refine hleads.keeps (P := fun m' => m'.σ.con.keys.length ≤ m.σ.con.keys.length)
      (Nat.le_refl _) ?_
    intro s s' hs hturn
    have hkeys := whileTurn_keys h hturn
    omega
  have hkeys := whileTurn_keys h hlast
  omega

@[simp] theorem Code.closeBrace_store (c : Code) (m : Machine) : (c.closeBrace m).σ = m.σ := by
  unfold Code.closeBrace
  split <;> rfl

/-- What is behind a `while` that is right: its turns lead to the store. -/
theorem Right.while {w : Way} (hright : Right c w ip (.while e s) σ σ')
    (h : Placed c ip (.while e s)) (hv : σ.value e = .ok (v, σ₁)) :
    ∃ n m, turns (c.whileTurn (c.execBlock n) (ip + 1) (ip + 1 + e.toks.length)) n
      ⟨ip + 1 + e.toks.length + 1, σ₁⟩ = .ok m ∧ m.σ = σ' := by
  obtain ⟨htok, hcond, -, -⟩ := h.while
  obtain ⟨N, hN⟩ := hright
  have hrun := hN N (Nat.le_refl N)
  rw [Code.execArm_while htok, hcond.execWhile hv] at hrun
  cases hm : turns (c.whileTurn (c.execBlock N) (ip + 1) (ip + 1 + e.toks.length)) N
      ⟨ip + 1 + e.toks.length + 1, σ₁⟩ with
  | error fault =>
      rw [hm] at hrun
      cases hrun
  | ok m =>
      rw [hm, bind_ok] at hrun
      obtain ⟨-, hmachine⟩ := Prod.mk.inj (Except.ok.inj hrun)
      have hstore := congrArg Machine.σ hmachine
      rw [Code.closeBrace_store] at hstore
      exact ⟨N, m, hm, hstore⟩

/-- A `while` whose condition does not hold at first is right unless the condition reads a
line, which it does twice, or a closing brace follows. -/
theorem right_tested_iff {w : Way} (h : Placed c ip (.while e s)) (hv : σ.value e = .ok (v, σ₁))
    (fails : v.truthy = false) :
    Right c w ip (.while e s) σ (σ₁.note (ip + 1)) ↔
      c.tok (ip + (Stmt.while e s).len) ≠ .rBrace ∧ e.inputs = 0 := by
  have hturns := whileTurns_stop h hv fails
  constructor
  · intro hright
    have hin : e.inputs = 0 := by
      obtain ⟨n, m, hm, hstore⟩ := hright.while h hv
      have hkeys := whileTurns_keys h.while.2.1 hm
      rw [hstore] at hkeys
      dsimp only [Store.note] at hkeys
      omega
    exact ⟨(right_while_iff_of_turns h hin hturns).mp hright, hin⟩
  · rintro ⟨hbrace, hin⟩
    exact (right_while_iff_of_turns h hin hturns).mpr hbrace

/-! ## The record of a run -/

namespace Store

theorem value_ran (h : σ.value e = .ok (v, σ')) : σ'.ran = σ.ran := by
  obtain ⟨con, -, rfl⟩ := Store.value_ok h
  rfl

theorem values_ran {args : List Expr} {vs : List Value} (h : σ.values args = .ok (vs, σ')) :
    σ'.ran = σ.ran := by
  induction args generalizing σ vs with
  | nil =>
      cases h
      rfl
  | cons e es ih =>
      obtain ⟨r, hr, h⟩ := bind_eq_ok h
      obtain ⟨r', hr', heq⟩ := bind_eq_ok h
      cases heq
      exact (ih hr').trans (value_ran hr)

theorem input_ran {x : BitVec 64} (h : σ.input x = .ok σ') : σ'.ran = σ.ran := by
  obtain ⟨r, -, heq⟩ := bind_eq_ok h
  cases heq
  rfl

theorem draw_ran (σ : Store) (kind : DrawKind) (vs : List Value) : (σ.draw kind vs).ran = σ.ran := by
  unfold Store.draw
  split <;> rfl

theorem note_length (σ : Store) (i : Nat) : (σ.note i).ran.length = σ.ran.length + 1 := by
  unfold Store.note
  rw [List.length_append, List.length_singleton]

end Store

namespace Runs

variable {P : Way → Nat → Stmt → Store → Store → Prop} {sig : Signal}

/-- A run adds to the record. -/
theorem ran_le (run : Runs P ip s σ sig σ') : σ.ran.length ≤ σ'.ran.length := by
  induction run with
  | skip => exact Nat.le_refl _
  | seq _ _ ih₁ ih₂ => exact ih₁.trans ih₂
  | seqBreak _ ih => exact ih
  | empty _ =>
      rw [Store.note_length]
      exact Nat.le_succ _
  | @print ip newline e σ σ₁ v val _ =>
      have hran : (σ₁.print newline v).ran = (σ.note ip).ran := (Store.value_ran val :)
      rw [hran, Store.note_length]
      exact Nat.le_succ _
  | @assign ip x e σ σ₁ v val _ =>
      have hran : (σ₁.assign x v).ran = (σ.note ip).ran := (Store.value_ran val :)
      rw [hran, Store.note_length]
      exact Nat.le_succ _
  | input line _ =>
      rw [Store.input_ran line, Store.note_length]
      exact Nat.le_succ _
  | draw vals _ =>
      rw [Store.draw_ran, Store.values_ran vals, Store.note_length]
      exact Nat.le_succ _
  | thenTaken val _ _ _ ih =>
      rw [Store.value_ran val, Store.note_length] at ih
      exact (Nat.le_succ _).trans ih
  | thenSkipped val _ _ =>
      rw [Store.value_ran val, Store.note_length]
      exact Nat.le_succ _
  | elseSkipped val _ _ _ ih =>
      rw [Store.value_ran val, Store.note_length] at ih
      exact (Nat.le_succ _).trans ih
  | elseTaken val _ _ _ ih =>
      rw [Store.value_ran val, Store.note_length] at ih
      exact (Nat.le_succ _).trans ih
  | whileStop val _ _ =>
      rw [Store.note_length, Store.value_ran val]
      exact Nat.le_succ _
  | whileTurn val _ _ _ _ ih₁ ih₂ =>
      rw [Store.note_length, Store.value_ran val] at ih₁
      exact ((Nat.le_succ _).trans ih₁).trans ih₂
  | whileBreak val _ _ _ ih =>
      rw [Store.note_length, Store.value_ran val] at ih
      exact (Nat.le_succ _).trans ih
  | loopPass _ _ _ ih₁ ih₂ =>
      rw [Store.note_length] at ih₁ ih₂
      omega
  | loopBreak _ _ ih =>
      rw [Store.note_length] at ih
      exact (Nat.le_succ _).trans ih
  | «break» =>
      rw [Store.note_length]
      exact Nat.le_succ _

/-- A `loop` begins a pass at least. -/
theorem loop_ran_lt (run : Runs P ip (.loop s) σ sig σ') : σ.ran.length < σ'.ran.length := by
  cases run with
  | loopPass body rest _ =>
      have hbody := body.ran_le
      have hrest := rest.ran_le
      rw [Store.note_length] at hbody hrest
      omega
  | loopBreak body _ =>
      have hbody := body.ran_le
      rw [Store.note_length] at hbody
      exact hbody

/-- The last line of the record of a run that is broken off is where the `break` stands. -/
theorem break_last (run : Runs P ip s σ sig σ') (h : Placed c ip s) (hsig : sig = .break) :
    ∃ l b, σ'.ran = l ++ [b] ∧ c.tok b = .break := by
  induction run with
  | seq _ _ _ ih => exact ih h.seqRight hsig
  | seqBreak _ ih => exact ih h.seqLeft hsig
  | thenTaken _ _ _ _ ih => exact ih h.ifThen.2.2.1.placed hsig
  | elseSkipped _ _ _ _ ih => exact ih h.ifElse.2.2.1.placed hsig
  | elseTaken _ _ _ _ ih => exact ih h.ifElse.2.2.2.2.2.1.placed hsig
  | @«break» ip σ => exact ⟨σ.ran, ip, rfl, h.has.1.1⟩
  | _ => exact Signal.noConfusion hsig

end Runs

/-! ## What `break` and `loop` do -/

/-- No expression begins with `break`. -/
theorem CondAt.tok_ne (h : CondAt c ip e) : c.tok ip ≠ .break := by
  obtain ⟨tok, ts, hts⟩ : ∃ tok ts, e.toks = tok :: ts :=
    List.exists_cons_of_ne_nil (List.ne_nil_of_length_pos (Nat.zero_lt_of_lt (e.spine_lt 0)))
  have hhas := h.has
  rw [hts] at hhas
  rw [hhas.1.1]
  exact Expr.toks_ne rfl tok (hts ▸ List.mem_cons_self)

/-- A record does not end with two things. -/
theorem last_unique {l l' : List Nat} {a b : Nat} (h : l ++ [a] = l' ++ [b]) : a = b :=
  List.singleton_inj.mp (List.append_inj' h rfl).2

/-- The last thing that a `while` of the code does is to test its condition. -/
theorem not_right_whileBreak {w : Way} {P : Way → Nat → Stmt → Store → Store → Prop}
    (h : Placed c ip (.while e s)) (hv : σ.value e = .ok (v, σ₁))
    (body : Runs P (ip + 1 + e.toks.length + 1) s (σ₁.note (ip + 1)) .break σ₂) :
    ¬Right c w ip (.while e s) σ σ₂ := by
  intro hright
  obtain ⟨-, hcond, hblock, -⟩ := h.while
  obtain ⟨n, m, hm, hstore⟩ := hright.while h hv
  obtain ⟨l, b, hran, hbreak⟩ := body.break_last hblock.placed rfl
  obtain ⟨m', -, hlast⟩ := leads_of_turns hm
  obtain ⟨⟨w, p⟩, -, hlast⟩ := bind_eq_ok hlast
  dsimp only at hlast
  split at hlast
  · cases hlast
    subst hstore
    have hb : ip + 1 = b := last_unique hran
    exact hcond.tok_ne (hb ▸ hbreak)
  · obtain ⟨m₁, -, heq⟩ := bind_eq_ok hlast
    cases heq

theorem Code.execArm_loop (htok : c.tok ip = .loop) (hopen : c.atTok (ip + 1) .lBrace) :
    c.execArm block n ⟨ip, σ⟩ = (do
      let m ← turns (c.loopTurn block (ip + 2)) n ⟨ip + 2, σ⟩
      .ok (c.closeBrace m) : Except Fault Machine).map fun m => (true, m) := by
  have hloop : c.execLoop block n ⟨ip, σ⟩ = (do
      let m ← turns (c.loopTurn block (ip + 2)) n ⟨ip + 2, σ⟩
      .ok (c.closeBrace m)) := by
    unfold Code.execLoop
    exact if_pos hopen
  unfold Code.execArm
  rw [htok, ← hloop]

/-- A `loop` of the code ends with its first pass. -/
theorem not_right_loopPass {w : Way} {P : Way → Nat → Stmt → Store → Store → Prop}
    (h : Placed c ip (.loop s)) (body : Reaches c (ip + 2) s (σ.note (ip + 2)) σ₁)
    (rest : Runs P ip (.loop s) (σ₁.note (ip + 2 + s.len)) .normal σ₂) :
    ¬Right c w ip (.loop s) σ σ₂ := by
  rintro ⟨N', hN'⟩
  obtain ⟨htok, hopen, hblock, hlen⟩ := h.loop
  obtain ⟨N, hN⟩ := hblock.runs body
  obtain ⟨n, hn, hn'⟩ : ∃ n, N ≤ n + 1 ∧ N' ≤ n + 1 := ⟨max N N', by omega, by omega⟩
  have hturn : c.loopTurn (c.execBlock (n + 1)) (ip + 2) ⟨ip + 2, σ⟩ =
      .ok (false, ⟨ip + 2 + s.len + 1, σ₁.note (ip + 2 + s.len)⟩) := by
    unfold Code.loopTurn
    rw [hN _ hn, bind_ok, if_neg (Nat.not_le_of_lt hblock.inside), if_pos hblock.close]
  have hrun := hN' _ hn'
  rw [Code.execArm_loop htok hopen, turns_last hturn, bind_ok] at hrun
  obtain ⟨-, hmachine⟩ := Prod.mk.inj (Except.ok.inj hrun)
  have hstore := congrArg Machine.σ hmachine
  rw [Code.closeBrace_store] at hstore
  have hlt := rest.loop_ran_lt
  dsimp only at hstore
  rw [hstore] at hlt
  exact Nat.lt_irrefl _ hlt

/-- The last thing that a `loop` of the code does is to take a closing brace. -/
theorem not_right_loopBreak {w : Way} {P : Way → Nat → Stmt → Store → Store → Prop}
    (h : Placed c ip (.loop s)) (body : Runs P (ip + 2) s (σ.note (ip + 2)) .break σ₁) :
    ¬Right c w ip (.loop s) σ σ₁ := by
  rintro ⟨N, hN⟩
  obtain ⟨htok, hopen, hblock, hlen⟩ := h.loop
  obtain ⟨l, b, hran, hbreak⟩ := body.break_last hblock.placed rfl
  have hfits := h.fits
  have hrun := hN N (Nat.le_refl N)
  rw [Code.execArm_loop htok hopen] at hrun
  cases hm : turns (c.loopTurn (c.execBlock N) (ip + 2)) N ⟨ip + 2, σ⟩ with
  | error fault =>
      rw [hm] at hrun
      cases hrun
  | ok m =>
      rw [hm, bind_ok] at hrun
      obtain ⟨-, hmachine⟩ := Prod.mk.inj (Except.ok.inj hrun)
      have hip := congrArg Machine.ip hmachine
      have hstore := congrArg Machine.σ hmachine
      rw [Code.closeBrace_store] at hstore
      obtain ⟨m', -, hlast⟩ := leads_of_turns hm
      obtain ⟨m₁, -, hlast⟩ := bind_eq_ok hlast
      split at hlast
      · cases hlast
        have hlater := (Later.closeBrace c m).ip
        dsimp only at hip
        omega
      · split at hlast
        · next hclose =>
            cases hlast
            dsimp only at hstore
            subst hstore
            have hb : m₁.ip = b := last_unique hran
            rw [← hb, hclose] at hbreak
            cases hbreak
        · cases hlast

end PureOS.Interp
