import PureOS.Interp.Walk

set_option autoImplicit false

/-!
# Interp: nothing goes back (`barrel.rs`)

Whatever the tokens are, the pointer is not in front of where it was when a block of
statements is over, and keys that were read are gone.
-/

namespace PureOS.Interp

open PureOS.Foundation

/-! ## Keys -/

theorem readLoop_keys_lt {keys buf out line : List UInt8} {con : Console}
    (h : Console.readLoop keys buf out = .ok (line, con)) : con.keys.length < keys.length := by
  induction keys generalizing buf out with
  | nil => cases h
  | cons k keys ih =>
      rw [Console.readLoop] at h
      split_ifs at h
      · cases h
        exact Nat.lt_succ_self _
      · exact (ih h).trans (Nat.lt_succ_self _)
      · exact (ih h).trans (Nat.lt_succ_self _)
      · exact (ih h).trans (Nat.lt_succ_self _)
      · exact (ih h).trans (Nat.lt_succ_self _)
      · exact (ih h).trans (Nat.lt_succ_self _)

theorem readLine_keys_lt {con con' : Console} {line : List UInt8}
    (h : con.readLine = .ok (line, con')) : con'.keys.length < con.keys.length :=
  readLoop_keys_lt h

namespace Expr

/-- How many lines the evaluation of an expression reads. -/
def inputs (e : Expr) : Nat := e.toks.countP fun t => t.1 = .input

/-- Each of these lines takes a key at least. -/
theorem inputs_add_keys_le {env : Env} {e : Expr} {con con' : Console} {v : Value}
    (h : e.value env con = .ok (v, con')) : e.inputs + con'.keys.length ≤ con.keys.length := by
  induction e generalizing con con' v with
  | num n =>
      cases h
      exact (Nat.zero_add _).le
  | var s =>
      cases h
      exact (Nat.zero_add _).le
  | str s =>
      cases h
      exact (Nat.zero_add _).le
  | input =>
      obtain ⟨r, hr, heq⟩ := bind_eq_ok h
      cases heq
      have hlt := readLine_keys_lt hr
      have hone : Expr.input.inputs = 1 := rfl
      omega
  | paren e ih =>
      have hle := ih h
      have hsame : (Expr.paren e).inputs = e.inputs := by simp [inputs, toks]
      omega
  | neg e ih =>
      obtain ⟨r, hr, heq⟩ := bind_eq_ok h
      cases heq
      have hle := ih hr
      have hsame : (Expr.neg e).inputs = e.inputs := by simp [inputs, toks]
      omega
  | not e ih =>
      obtain ⟨r, hr, heq⟩ := bind_eq_ok h
      cases heq
      have hle := ih hr
      have hsame : (Expr.not e).inputs = e.inputs := by simp [inputs, toks]
      omega
  | bin op a b iha ihb =>
      obtain ⟨r, hr, h⟩ := bind_eq_ok h
      obtain ⟨r', hr', heq⟩ := bind_eq_ok h
      cases heq
      have hlea := iha hr
      have hleb := ihb hr'
      have hop : op.token ≠ .input := by cases op <;> exact Token.noConfusion
      have hsum : (Expr.bin op a b).inputs = a.inputs + b.inputs := by simp [inputs, toks, hop]
      omega

/-- An expression that reads no line has a value of its own. -/
theorem value_of_inputs_eq_zero (env : Env) {e : Expr} (h : e.inputs = 0) :
    ∃ v, ∀ con, e.value env con = .ok (v, con) := by
  induction e with
  | num n => exact ⟨.num n, fun _ => rfl⟩
  | var s => exact ⟨env.get s, fun _ => rfl⟩
  | str s => exact ⟨.str s, fun _ => rfl⟩
  | input => cases h
  | paren e ih =>
      have hsame : (Expr.paren e).inputs = e.inputs := by simp [inputs, toks]
      exact ih (hsame ▸ h)
  | neg e ih =>
      have hsame : (Expr.neg e).inputs = e.inputs := by simp [inputs, toks]
      obtain ⟨v, hv⟩ := ih (hsame ▸ h)
      exact ⟨v.neg, fun con => by rw [value, hv con]; rfl⟩
  | not e ih =>
      have hsame : (Expr.not e).inputs = e.inputs := by simp [inputs, toks]
      obtain ⟨v, hv⟩ := ih (hsame ▸ h)
      exact ⟨v.not, fun con => by rw [value, hv con]; rfl⟩
  | bin op a b iha ihb =>
      have hsum : (Expr.bin op a b).inputs ≥ a.inputs + b.inputs := by
        simp only [inputs, toks, List.countP_append, List.countP_cons]
        omega
      obtain ⟨v, hv⟩ := iha (by omega)
      obtain ⟨w, hw⟩ := ihb (by omega)
      refine ⟨op.on v w, fun con => ?_⟩
      rw [value, hv con, bind_ok]
      dsimp only
      rw [hw con]
      rfl

theorem inputs_leftToRight (e : Expr) : e.leftToRight.inputs = e.inputs := by
  unfold inputs leftToRight
  rw [toks_regroup]
  rfl

end Expr

/-! ## Evaluators -/

/-- An evaluator that does not go back. -/
def Forward (ev : Evaluation) : Prop :=
  ∀ p v p', ev p = .ok (v, p') → p.ip ≤ p'.ip ∧ p'.con.keys.length ≤ p.con.keys.length

theorem levelLoop_forward {c : Code} {operand : Evaluation} (h : Forward operand)
    (op : Token → Option (BitVec 64 → BitVec 64 → BitVec 64)) (n : Nat) (v : Value) :
    Forward (levelLoop c op operand n v) := by
  induction n generalizing v with
  | zero =>
      intro p w p' heq
      cases heq
  | succ n ih =>
      intro p w p' heq
      rw [levelLoop] at heq
      cases hop : op (c.tok p.ip) with
      | none =>
          rw [hop] at heq
          cases heq
          exact ⟨Nat.le_refl _, Nat.le_refl _⟩
      | some f =>
          rw [hop] at heq
          obtain ⟨r, hr, hloop⟩ := bind_eq_ok heq
          obtain ⟨hip, hkeys⟩ := h _ _ _ hr
          obtain ⟨hip', hkeys'⟩ := ih _ _ _ _ hloop
          dsimp only at hip hkeys
          exact ⟨by omega, hkeys'.trans hkeys⟩

theorem level_forward {c : Code} {operand : Evaluation} (h : Forward operand)
    (op : Token → Option (BitVec 64 → BitVec 64 → BitVec 64)) (n : Nat) :
    Forward (level c op operand n) := by
  intro p v p' heq
  obtain ⟨r, hr, hloop⟩ := bind_eq_ok heq
  obtain ⟨hip, hkeys⟩ := h _ _ _ hr
  obtain ⟨hip', hkeys'⟩ := levelLoop_forward h op n _ _ _ _ hloop
  exact ⟨hip.trans hip', hkeys'.trans hkeys⟩

theorem evalCmp_forward {c : Code} {atom : Evaluation} (h : Forward atom) (n : Nat) :
    Forward (evalCmp c atom n) :=
  level_forward (level_forward (level_forward h mulOp n) addOp n) cmpOp n

theorem evalAtom_forward (c : Code) (env : Env) (n : Nat) : Forward (evalAtom c env n) := by
  induction n with
  | zero =>
      intro p v p' heq
      cases heq
  | succ n ih =>
      intro p v p' heq
      rw [evalAtom] at heq
      split at heq
      · cases heq
        exact ⟨Nat.le_refl _, Nat.le_refl _⟩
      · dsimp only at heq
        split at heq
        · cases heq
          exact ⟨Nat.le_succ _, Nat.le_refl _⟩
        · cases heq
          exact ⟨Nat.le_succ _, Nat.le_refl _⟩
        · cases heq
          exact ⟨Nat.le_succ _, Nat.le_refl _⟩
        · obtain ⟨r, hr, hclose⟩ := bind_eq_ok heq
          obtain ⟨hip, hkeys⟩ := evalCmp_forward ih n _ _ _ hr
          dsimp only at hip hkeys hclose
          cases hclose
          split
          · exact ⟨by dsimp only; omega, hkeys⟩
          · exact ⟨by omega, hkeys⟩
        · obtain ⟨r, hr, hneg⟩ := bind_eq_ok heq
          obtain ⟨hip, hkeys⟩ := ih _ _ _ hr
          dsimp only at hip hkeys hneg
          split at hneg <;> cases hneg <;> exact ⟨by omega, hkeys⟩
        · obtain ⟨r, hr, hnot⟩ := bind_eq_ok heq
          obtain ⟨hip, hkeys⟩ := ih _ _ _ hr
          dsimp only at hip hkeys hnot
          split at hnot <;> cases hnot <;> exact ⟨by omega, hkeys⟩
        · obtain ⟨r, hr, hline⟩ := bind_eq_ok heq
          cases hline
          exact ⟨Nat.le_succ _, (readLine_keys_lt hr).le⟩
        · cases heq
          exact ⟨Nat.le_succ _, Nat.le_refl _⟩

theorem evalExpr_forward (c : Code) (env : Env) : Forward (evalExpr c env) :=
  evalCmp_forward (evalAtom_forward c env _) _

/-! ## Statements -/

/-- The pointer has not gone back, and no key has come back. -/
structure Later (m m' : Machine) : Prop where
  ip : m.ip ≤ m'.ip
  keys : m'.σ.con.keys.length ≤ m.σ.con.keys.length

namespace Later

variable {c : Code} {m m' m'' : Machine}

theorem refl (m : Machine) : Later m m := ⟨Nat.le_refl _, Nat.le_refl _⟩

theorem trans (h : Later m m') (h' : Later m' m'') : Later m m'' :=
  ⟨h.ip.trans h'.ip, h'.keys.trans h.keys⟩

theorem step (m : Machine) : Later m m.step := ⟨Nat.le_succ _, Nat.le_refl _⟩

theorem expectSemicolon (c : Code) (m : Machine) : Later m (c.expectSemicolon m) := by
  unfold Code.expectSemicolon
  split
  · exact step m
  · exact refl m

theorem closeBrace (c : Code) (m : Machine) : Later m (c.closeBrace m) := by
  unfold Code.closeBrace
  split
  · exact step m
  · exact refl m

theorem eval {v : Value} (h : c.eval m = .ok (v, m')) : Later m m' := by
  obtain ⟨r, hr, heq⟩ := bind_eq_ok h
  obtain ⟨hip, hkeys⟩ := evalExpr_forward c _ _ _ _ hr
  cases heq
  exact ⟨hip, hkeys⟩

theorem evalArgs {n : Nat} {vs : List Value} (h : c.evalArgs n m = .ok (vs, m')) : Later m m' := by
  induction n generalizing m vs with
  | zero =>
      cases h
      exact refl _
  | succ n ih =>
      obtain ⟨r, hr, h⟩ := bind_eq_ok h
      obtain ⟨r', hr', heq⟩ := bind_eq_ok h
      cases heq
      exact (eval hr).trans (ih hr')

theorem skipLoop (c : Code) (n d ip : Nat) : ip ≤ c.skipLoop n d ip := by
  induction n generalizing d ip with
  | zero => exact Nat.le_refl _
  | succ n ih =>
      rw [Code.skipLoop]
      split
      · exact Nat.le_refl _
      · split
        · exact (Nat.le_succ ip).trans (ih _ _)
        · exact (Nat.le_succ ip).trans (ih _ _)
        · exact (Nat.le_succ ip).trans (ih _ _)

theorem store {σ : Store} (h : σ.con.keys.length ≤ m.σ.con.keys.length) : Later m ⟨m.ip, σ⟩ :=
  ⟨Nat.le_refl _, h⟩

theorem note (m : Machine) (i : Nat) : Later m { m with σ := m.σ.note i } :=
  store (Nat.le_refl _)

theorem print {newline : Bool} (h : c.execPrint newline m = .ok m') : Later m m' := by
  obtain ⟨r, hr, heq⟩ := bind_eq_ok h
  cases heq
  have hstore : Later r.2 ⟨r.2.ip, r.2.σ.print newline r.1⟩ := store (Nat.le_refl _)
  exact (((step m).trans (eval hr)).trans hstore).trans (expectSemicolon c _)

theorem «let» (h : c.execLet m = .ok m') : Later m m' := by
  unfold Code.execLet at h
  dsimp only at h
  split at h
  · split at h
    · obtain ⟨r, hr, heq⟩ := bind_eq_ok h
      cases heq
      have hstore : Later r.2 ⟨r.2.ip, r.2.σ.assign (c.val m.step.ip) r.1⟩ := store (Nat.le_refl _)
      exact (((((step m).trans (step _)).trans (step _)).trans (eval hr)).trans hstore).trans
        (expectSemicolon c _)
    · cases h
      exact ((step m).trans (step _)).trans (expectSemicolon c _)
  · cases h
    exact (step m).trans (expectSemicolon c _)

theorem input (h : c.execInput m = .ok m') : Later m m' := by
  unfold Code.execInput at h
  dsimp only at h
  split at h
  · obtain ⟨σ, hσ, heq⟩ := bind_eq_ok h
    cases heq
    obtain ⟨r, hr, hline⟩ := bind_eq_ok hσ
    have hkeys := (readLine_keys_lt hr).le
    cases hline
    exact (((step m).trans (step _)).trans (store hkeys)).trans (expectSemicolon c _)
  · cases h
    exact (step m).trans (expectSemicolon c _)

theorem draw {kind : DrawKind} (h : c.execDraw kind m = .ok m') : Later m m' := by
  obtain ⟨r, hr, heq⟩ := bind_eq_ok h
  cases heq
  have hstore : Later r.2 ⟨r.2.ip, r.2.σ.draw kind r.1⟩ := by
    refine store ?_
    unfold Store.draw
    split <;> exact Nat.le_refl _
  exact (((step m).trans (evalArgs hr)).trans hstore).trans (expectSemicolon c _)

variable {block : Machine → Except Fault Machine} {n : Nat}

theorem branch (hblock : ∀ m m', block m = .ok m' → Later m m') {taken : Bool}
    (h : c.execBranch block taken m = .ok m') : Later m m' := by
  unfold Code.execBranch at h
  split at h
  · dsimp only at h
    split at h
    · obtain ⟨m₁, hm₁, heq⟩ := bind_eq_ok h
      cases heq
      exact ((step m).trans (hblock _ _ hm₁)).trans (closeBrace c m₁)
    · cases h
      have hskip : Later m.step ⟨c.skipBlock m.step.ip, m.step.σ⟩ :=
        ⟨skipLoop c _ _ _, Nat.le_refl _⟩
      exact ((step m).trans hskip).trans (closeBrace c _)
  · cases h
    exact refl m

theorem «if» (hblock : ∀ m m', block m = .ok m' → Later m m')
    (h : c.execIf block m = .ok m') : Later m m' := by
  obtain ⟨r, hr, h⟩ := bind_eq_ok h
  obtain ⟨m₁, hm₁, h⟩ := bind_eq_ok h
  refine ((step m).trans (eval hr)).trans ((branch hblock hm₁).trans ?_)
  split at h
  · exact (step m₁).trans (branch hblock h)
  · cases h
    exact refl _

/-- A pass of a `loop` stays behind its beginning. -/
theorem loopTurn (hblock : ∀ m m', block m = .ok m' → Later m m') {start : Nat} {again : Bool}
    (h : c.loopTurn block start m = .ok (again, m')) : Later ⟨start, m.σ⟩ m' := by
  obtain ⟨m₁, hm₁, h⟩ := bind_eq_ok h
  have hlater : Later ⟨start, m.σ⟩ m₁ := (note ⟨start, m.σ⟩ start).trans (hblock _ _ hm₁)
  split at h
  · cases h
    exact hlater
  · split at h
    · cases h
      exact hlater.trans ((step m₁).trans (note _ _))
    · cases h
      exact hlater

theorem loop (hblock : ∀ m m', block m = .ok m' → Later m m')
    (h : c.execLoop block n m = .ok m') : Later m m' := by
  unfold Code.execLoop at h
  dsimp only at h
  split at h
  · obtain ⟨m₁, hm₁, heq⟩ := bind_eq_ok h
    cases heq
    have hstart : Later m m.step.step := (step m).trans (step _)
    have hkeep : Later m.step.step m₁ := by
      refine turns_keeps (P := fun m' => Later m.step.step m') hm₁ (refl _) ?_
      intro s again s' hs hturn
      have hlater := loopTurn hblock hturn
      exact ⟨hlater.ip, hlater.keys.trans hs.keys⟩
    exact (hstart.trans hkeep).trans (closeBrace c m₁)
  · cases h
    exact (step m).trans (closeBrace c _)

theorem whileTurn (hblock : ∀ m m', block m = .ok m' → Later m m') {condStart bodyStart : Nat}
    {again : Bool} (h : c.whileTurn block condStart bodyStart m = .ok (again, m'))
    (hip : bodyStart + 1 ≤ m.ip) :
    bodyStart + 1 ≤ m'.ip ∧ m'.σ.con.keys.length ≤ m.σ.con.keys.length := by
  obtain ⟨r, hr, h⟩ := bind_eq_ok h
  obtain ⟨-, hkeys⟩ := evalExpr_forward c _ _ _ _ hr
  dsimp only at h hkeys
  split at h
  · cases h
    exact ⟨hip, hkeys⟩
  · obtain ⟨m₁, hm₁, heq⟩ := bind_eq_ok h
    cases heq
    have hlater := hblock _ _ hm₁
    exact ⟨hlater.ip, hlater.keys.trans hkeys⟩

theorem «while» (hblock : ∀ m m', block m = .ok m' → Later m m')
    (h : c.execWhile block n m = .ok m') : Later m m' := by
  unfold Code.execWhile at h
  obtain ⟨r, hr, h⟩ := bind_eq_ok h
  have hcond : Later m r.2 := (step m).trans (eval hr)
  dsimp only at h
  split at h
  · obtain ⟨m₁, hm₁, heq⟩ := bind_eq_ok h
    cases heq
    have hkeep : r.2.ip + 1 ≤ m₁.ip ∧ m₁.σ.con.keys.length ≤ r.2.σ.con.keys.length := by
      refine turns_keeps (P := fun m' => r.2.ip + 1 ≤ m'.ip ∧
        m'.σ.con.keys.length ≤ r.2.σ.con.keys.length) hm₁ ⟨Nat.le_refl _, Nat.le_refl _⟩ ?_
      intro s again s' hs hturn
      obtain ⟨hip, hkeys⟩ := whileTurn hblock hturn hs.1
      exact ⟨hip, hkeys.trans hs.2⟩
    have hskip : Later r.2 ⟨c.skipBlock m₁.ip, m₁.σ⟩ :=
      ⟨((Nat.le_succ _).trans hkeep.1).trans (skipLoop c _ _ _), hkeep.2⟩
    exact (hcond.trans hskip).trans (closeBrace c _)
  · cases h
    exact hcond

theorem arm (hblock : ∀ m m', block m = .ok m' → Later m m') {again : Bool}
    (h : c.execArm block n m = .ok (again, m')) : Later m m' := by
  have hmap : ∀ {r : Except Fault Machine} {again : Bool} {m' : Machine},
      (r.map fun m => (true, m)) = .ok (again, m') → r = .ok m' := by
    intro r again m' hr
    cases r with
    | error fault => cases hr
    | ok m =>
        cases hr
        rfl
  unfold Code.execArm at h
  dsimp only at h
  split at h
  · cases h
    exact ⟨Nat.le_succ _, Nat.le_refl _⟩
  · exact (note m m.ip).trans (print (hmap h))
  · exact (note m m.ip).trans (print (hmap h))
  · exact (note m m.ip).trans («let» (hmap h))
  · exact (note m m.ip).trans (input (hmap h))
  · exact (note m m.ip).trans (draw (hmap h))
  · exact (note m m.ip).trans (draw (hmap h))
  · exact (note m m.ip).trans (draw (hmap h))
  · exact (note m m.ip).trans (draw (hmap h))
  · exact (note m m.ip).trans (draw (hmap h))
  · exact (note m m.ip).trans («if» hblock (hmap h))
  · exact loop hblock (hmap h)
  · exact «while» hblock (hmap h)
  · cases h
    exact ⟨(Nat.le_succ _).trans (skipLoop c _ _ _), Nat.le_refl _⟩
  · cases h
    exact ⟨Nat.le_succ _, Nat.le_refl _⟩

theorem execBlock (h : c.execBlock n m = .ok m') : Later m m' := by
  induction n generalizing m m' with
  | zero => cases h
  | succ n ih =>
      rw [Code.execBlock] at h
      split at h
      · cases h
        exact refl m
      · split at h
        · cases h
          exact refl m
        · obtain ⟨⟨again, m₁⟩, hr, h⟩ := bind_eq_ok h
          have harm := arm (fun _ _ => ih) hr
          dsimp only at h
          split at h
          · exact harm.trans (ih h)
          · cases h
            exact harm

end Later

end PureOS.Interp
