import PureOS.Barrel.Compiler

set_option autoImplicit false

/-!
# Barrel: more fuel does not change what the compiler does

The bound of a function decides only whether it comes to an end, so one speaks of
the result of a statement without saying how much fuel it was given.
-/

namespace PureOS.Barrel

open PureOS.Foundation

namespace Comp

/-- What the functions for expressions do with fuel `n` they do with fuel `m`. -/
structure ExprBelow (n m : Nat) : Prop where
  expr : ∀ c, Below (expr n c) (expr m c)
  cmp : ∀ c, Below (cmp n c) (cmp m c)
  cmpLoop : ∀ c, Below (cmpLoop n c) (cmpLoop m c)
  add : ∀ c, Below (add n c) (add m c)
  addLoop : ∀ c, Below (addLoop n c) (addLoop m c)
  mul : ∀ c, Below (mul n c) (mul m c)
  mulLoop : ∀ c, Below (mulLoop n c) (mulLoop m c)
  atom : ∀ c, Below (atom n c) (atom m c)

/-- One turn of a loop over operators. -/
theorem below_operator {operand operand' loop loop' : Comp → Except Fault Comp}
    (op : Comp → Comp) (hoperand : ∀ c, Below (operand c) (operand' c))
    (hloop : ∀ c, Below (loop c) (loop' c)) (c : Comp) :
    Below
      (do
        let c ← c.next
        let c := c.pushRax
        let c ← operand c
        let c := op c.movRcxRax.popRax
        if c.err ≠ 0 then return c else loop c)
      (do
        let c ← c.next
        let c := c.pushRax
        let c ← operand' c
        let c := op c.movRcxRax.popRax
        if c.err ≠ 0 then return c else loop' c) := by
  refine .bind (.refl _) fun c₁ => .bind (hoperand _) fun c₂ => ?_
  dsimp only
  split
  · exact .refl _
  · exact hloop _

theorem exprBelow {n m : Nat} (h : n ≤ m) : ExprBelow n m := by
  induction n generalizing m with
  | zero =>
      refine ⟨?_, ?_, ?_, ?_, ?_, ?_, ?_, ?_⟩
      · exact fun c => by rw [expr]; exact .fuel _
      · exact fun c => by rw [cmp]; exact .fuel _
      · exact fun c => by rw [cmpLoop]; exact .fuel _
      · exact fun c => by rw [add]; exact .fuel _
      · exact fun c => by rw [addLoop]; exact .fuel _
      · exact fun c => by rw [mul]; exact .fuel _
      · exact fun c => by rw [mulLoop]; exact .fuel _
      · exact fun c => by rw [atom]; exact .fuel _
  | succ n ih =>
      obtain ⟨m, rfl⟩ : ∃ k, m = k + 1 := ⟨m - 1, by omega⟩
      have ih := ih (Nat.le_of_succ_le_succ h)
      refine ⟨?_, ?_, ?_, ?_, ?_, ?_, ?_, ?_⟩
      · intro c
        simp only [expr]
        exact ih.cmp c
      · intro c
        simp only [cmp]
        exact .bind (ih.add c) ih.cmpLoop
      · intro c
        simp only [cmpLoop]
        cases setcc c.tok with
        | none => exact .refl _
        | some set2 => exact below_operator (fun c => c.opCmpSet set2) ih.add ih.cmpLoop c
      · intro c
        simp only [add]
        exact .bind (ih.mul c) ih.addLoop
      · intro c
        simp only [addLoop]
        cases additive c.tok with
        | none => exact .refl _
        | some op => exact below_operator op ih.mul ih.addLoop c
      · intro c
        simp only [mul]
        exact .bind (ih.atom c) ih.mulLoop
      · intro c
        simp only [mulLoop]
        cases multiplicative c.tok with
        | none => exact .refl _
        | some op => exact below_operator op ih.atom ih.mulLoop c
      · intro c
        simp only [atom]
        split
        · exact .refl _
        · exact .refl _
        · exact .bind (.refl _) fun c₁ => .bind (ih.expr c₁) fun _ => .refl _
        · exact .bind (.refl _) fun c₁ => .bind (ih.atom c₁) fun _ => .refl _
        · exact .refl _

/-- What the functions for statements do with fuel `n` they do with fuel `m`. -/
structure StmtBelow (n m : Nat) : Prop where
  stmt : ∀ c, Below (stmt n c) (stmt m c)
  blockLoop : ∀ c, Below (blockLoop n c) (blockLoop m c)
  block : ∀ c, Below (block n c) (block m c)

theorem stmtBelow {n m : Nat} (h : n ≤ m) : StmtBelow n m := by
  induction n generalizing m with
  | zero =>
      refine ⟨?_, ?_, ?_⟩
      · exact fun c => by rw [stmt]; exact .fuel _
      · exact fun c => by rw [blockLoop]; exact .fuel _
      · exact fun c => by rw [block]; exact .fuel _
  | succ n ih =>
      obtain ⟨m, rfl⟩ : ∃ k, m = k + 1 := ⟨m - 1, by omega⟩
      have hexpr := (exprBelow (Nat.le_of_succ_le_succ h)).expr
      have ih := ih (Nat.le_of_succ_le_succ h)
      refine ⟨?_, ?_, ?_⟩
      · intro c
        simp only [stmt]
        split
        · exact .refl _
        · refine .bind (.refl _) fun c₁ => ?_
          split
          · exact .refl _
          · refine .bind (.refl _) fun slot => .bind (.refl _) fun c₂ => .bind (.refl _) fun c₃ => ?_
            exact .bind (hexpr c₃) fun _ => .refl _
        · exact .bind (.refl _) fun c₁ => .bind (hexpr c₁) fun _ => .refl _
        · exact .bind (.refl _) fun c₁ => .bind (hexpr c₁) fun _ => .refl _
        · refine .bind (.refl _) fun c₁ => .bind (hexpr c₁) fun c₂ => .bind (ih.block _) fun c₃ => ?_
          split
          · exact .bind (.refl _) fun c₄ => .bind (ih.block _) fun _ => .refl _
          · exact .refl _
        · exact .bind (.refl _) fun c₁ => .bind (hexpr c₁) fun c₂ => .bind (ih.block _) fun _ => .refl _
        · exact .bind (.refl _) fun c₁ => .bind (ih.block _) fun _ => .refl _
        · exact .refl _
        · exact .refl _
        · exact .refl _
        · exact .refl _
      · intro c
        simp only [blockLoop]
        split
        · exact .bind (ih.stmt c) ih.blockLoop
        · exact .refl _
      · intro c
        simp only [block]
        exact .bind (.refl _) fun c₁ => .bind (ih.blockLoop c₁) fun _ => .refl _

/-- Two results of a statement are the same, whatever the fuel. -/
theorem stmt_unique {n m : Nat} {c c₁ c₂ : Comp} (h₁ : stmt n c = .ok c₁)
    (h₂ : stmt m c = .ok c₂) : c₁ = c₂ := by
  have h₁' := ((stmtBelow (Nat.le_max_left n m)).stmt c).eq_ok h₁
  have h₂' := ((stmtBelow (Nat.le_max_right n m)).stmt c).eq_ok h₂
  rw [h₁'] at h₂'
  exact Except.ok.inj h₂'

end Comp

end PureOS.Barrel
