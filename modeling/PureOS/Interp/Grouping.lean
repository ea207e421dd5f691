import PureOS.Interp.Expressions

set_option autoImplicit false

/-!
# Interp: how the evaluator groups an expression (`barrel.rs`)

The lowest loop of the source takes comparisons, `&&` and `||` from left to right.  What it
makes of a conventional expression is the tree that has the same tokens and is grouped in
that way.
-/

namespace PureOS.Interp

open PureOS.Foundation

/-- Above the lowest level the source ranks operators by the conventional precedence. -/
theorem BinOp.tier_eq (op : BinOp) : op.tier = op.prec - 3 := by
  cases op <;> rfl

namespace Expr

/-- The right operand of an operator that has its left one, if there is an operator. -/
def attach : Option (Expr × BinOp) → Expr → Expr
  | none, e => e
  | some (l, op), e => .bin op l e

/-- The expression with its operators of the lowest level taken from left to right, behind
what stands to its left. -/
def regroup : Expr → Option (Expr × BinOp) → Expr
  | .bin op a b, acc =>
      if op.tier = 0 then b.regroup (some (a.regroup acc, op))
      else attach acc (.bin op (a.regroup none) (b.regroup none))
  | .paren e, acc => attach acc (.paren (e.regroup none))
  | .neg e, acc => attach acc (.neg (e.regroup none))
  | .not e, acc => attach acc (.not (e.regroup none))
  | .num v, acc => attach acc (.num v)
  | .var s, acc => attach acc (.var s)
  | .str s, acc => attach acc (.str s)
  | .input, acc => attach acc .input

/-- The expression as the evaluator groups it. -/
def leftToRight (e : Expr) : Expr := e.regroup none

/-- The tokens of what stands to the left. -/
def leading : Option (Expr × BinOp) → List (Token × BitVec 64)
  | none => []
  | some (l, op) => l.toks ++ [(op.token, 0)]

theorem toks_attach (acc : Option (Expr × BinOp)) (e : Expr) :
    (attach acc e).toks = leading acc ++ e.toks := by
  cases acc with
  | none => rfl
  | some left =>
      rw [attach, toks, leading, List.append_assoc]
      rfl

/-- The tokens stay as they are. -/
theorem toks_regroup (e : Expr) (acc : Option (Expr × BinOp)) :
    (e.regroup acc).toks = leading acc ++ e.toks := by
  induction e generalizing acc with
  | bin op a b iha ihb =>
      rw [regroup]
      split
      · rw [ihb, leading, iha, toks, List.append_assoc, List.append_assoc]
        rfl
      · rw [toks_attach, toks, iha, ihb, toks]
        rfl
  | paren e ih =>
      rw [regroup, toks_attach, toks, ih, toks]
      rfl
  | neg e ih =>
      rw [regroup, toks_attach, toks, ih, toks]
      rfl
  | not e ih =>
      rw [regroup, toks_attach, toks, ih, toks]
      rfl
  | _ => exact toks_attach acc _

/-- An expression that no operator of the lowest level splits is attached as a whole. -/
theorem regroup_eq_attach {e : Expr} (h : 0 < e.rank BinOp.tier) (acc : Option (Expr × BinOp)) :
    e.regroup acc = attach acc (e.regroup none) := by
  cases e with
  | bin op a b =>
      have htier : op.tier ≠ 0 := Nat.ne_of_gt h
      rw [regroup, regroup, if_neg htier, if_neg htier]
      rfl
  | _ => rfl

theorem rank_regroup {e : Expr} (h : 0 < e.rank BinOp.tier) :
    (e.regroup none).rank BinOp.tier = e.rank BinOp.tier := by
  cases e with
  | bin op a b =>
      have htier : op.tier ≠ 0 := Nat.ne_of_gt h
      rw [regroup, if_neg htier]
      rfl
  | _ => rfl

theorem tier_le_rank {op : BinOp} {e : Expr} (h : op.prec ≤ e.rank BinOp.prec) : op.tier ≤ e.rank BinOp.tier := by
  cases e with
  | bin op' a b =>
      rw [rank] at h ⊢
      rw [op.tier_eq, op'.tier_eq]
      omega
  | _ => exact op.tier_le.trans (by decide : 2 ≤ 6)

theorem tier_lt_rank {op : BinOp} {e : Expr} (hop : op.tier ≠ 0)
    (h : op.prec < e.rank BinOp.prec) : op.tier < e.rank BinOp.tier := by
  cases e with
  | bin op' a b =>
      rw [op.tier_eq] at hop
      rw [rank] at h ⊢
      rw [op.tier_eq, op'.tier_eq]
      omega
  | _ => exact op.tier_le.trans_lt (by decide : 2 < 6)

theorem rank_tier_of_prec {e : Expr} (h : e.rank BinOp.prec = 6) : e.rank BinOp.tier = 6 := by
  cases e with
  | bin op a b => cases op <;> cases h
  | _ => rfl

/-- What stands to the left is grouped, and waits for an operand of the lowest level. -/
def Waiting (acc : Option (Expr × BinOp)) : Prop :=
  ∀ l op, acc = some (l, op) → l.Grouped BinOp.tier ∧ op.tier = 0

theorem waiting_none : Waiting none := fun _ _ h => by cases h

theorem grouped_attach {acc : Option (Expr × BinOp)} {e : Expr} (hacc : Waiting acc)
    (he : e.Grouped BinOp.tier) (hrank : 0 < e.rank BinOp.tier) :
    (attach acc e).Grouped BinOp.tier := by
  cases acc with
  | none => exact he
  | some left =>
      obtain ⟨l, op⟩ := left
      obtain ⟨hl, hop⟩ := hacc l op rfl
      refine ⟨hl, he, ?_, ?_⟩
      · rw [hop]
        exact Nat.zero_le _
      · rwa [hop]

/-- A conventional expression, grouped anew, is grouped by the levels of the source. -/
theorem grouped_regroup {e : Expr} (he : e.Conventional) {acc : Option (Expr × BinOp)}
    (hacc : Waiting acc) : (e.regroup acc).Grouped BinOp.tier := by
  induction e generalizing acc with
  | bin op a b iha ihb =>
      obtain ⟨ha, hb, hranka, hrankb⟩ := he
      rw [regroup]
      split
      · rename_i htier
        refine ihb hb ?_
        intro l op' heq
        cases heq
        exact ⟨iha ha hacc, htier⟩
      · rename_i htier
        have hleft := tier_le_rank hranka
        have hright := tier_lt_rank htier hrankb
        have hpos : 0 < op.tier := Nat.pos_of_ne_zero htier
        refine grouped_attach hacc ⟨iha ha waiting_none, ihb hb waiting_none, ?_, ?_⟩ hpos
        · rwa [rank_regroup (hpos.trans_le hleft)]
        · rwa [rank_regroup (hpos.trans hright)]
  | paren e ih => exact grouped_attach hacc (ih he waiting_none) (by decide : 0 < 6)
  | neg e ih =>
      have hrank := rank_tier_of_prec he.2
      refine grouped_attach hacc ⟨ih he.1 waiting_none, ?_⟩ (by decide : 0 < 6)
      rw [rank_regroup (by rw [hrank]; decide), hrank]
  | not e ih =>
      have hrank := rank_tier_of_prec he.2
      refine grouped_attach hacc ⟨ih he.1 waiting_none, ?_⟩ (by decide : 0 < 6)
      rw [rank_regroup (by rw [hrank]; decide), hrank]
  | _ => exact grouped_attach hacc trivial (by decide : 0 < 6)

/-- Where each operator of the lowest level has an operand above that level to its right,
nothing is grouped anew. -/
theorem leftToRight_of_grouped {e : Expr} (he : e.Grouped BinOp.tier) : e.leftToRight = e := by
  unfold leftToRight
  induction e with
  | bin op a b iha ihb =>
      obtain ⟨ha, hb, hranka, hrankb⟩ := he
      rw [regroup]
      split
      · rename_i htier
        rw [regroup_eq_attach (htier ▸ hrankb), iha ha, ihb hb]
        rfl
      · rw [iha ha, ihb hb]
        rfl
  | paren e ih => exact congrArg paren (ih he)
  | neg e ih => exact congrArg neg (ih he.1)
  | not e ih => exact congrArg not (ih he.1)
  | _ => rfl

end Expr

/-- Where an operand of `&&` or `||` is split by an operator that binds tighter, the two
groupings are worth different things for some operands. -/
theorem regrouping_differs {op op' : BinOp} (hop : op.tier = 0) (hop' : op'.tier = 0)
    (h : op.prec < op'.prec) :
    ∃ x y z, op.apply x (op'.apply y z) ≠ op'.apply (op.apply x y) z := by
  cases op with
  | andAnd =>
      cases op' with
      | eqEq => exact ⟨1, 2, 2, by decide⟩
      | ne => exact ⟨1, 2, 2, by decide⟩
      | lt => exact ⟨0, 0, 1, by decide⟩
      | gt => exact ⟨1, 2, 1, by decide⟩
      | le => exact ⟨0, 0, 0, by decide⟩
      | ge => exact ⟨0, 0, 0, by decide⟩
      | andAnd | orOr => exact absurd h (by decide)
      | star | slash | mod | plus | minus => exact absurd hop' (by decide)
  | orOr =>
      cases op' with
      | eqEq => exact ⟨1, 0, 2, by decide⟩
      | ne => exact ⟨1, 0, 1, by decide⟩
      | lt => exact ⟨1, 0, 0, by decide⟩
      | gt => exact ⟨1, 0, 1, by decide⟩
      | le => exact ⟨1, 0, 0, by decide⟩
      | ge => exact ⟨1, 0, 2, by decide⟩
      | andAnd => exact ⟨1, 0, 0, by decide⟩
      | orOr => exact absurd h (by decide)
      | star | slash | mod | plus | minus => exact absurd hop' (by decide)
  | star | slash | mod | plus | minus => exact absurd hop (by decide)
  | eqEq | ne | lt | gt | le | ge =>
      -- What binds tighter than a comparison is not of the lowest level.
      have hlow : 3 < op'.prec := h
      rw [BinOp.tier_eq] at hop'
      omega

namespace Code

/-- A table with these tokens at its beginning. -/
def ofToks (ts : List (Token × BitVec 64)) : Code where
  tokens := Vector.ofFn fun i => ((ts[i.val]?).map Prod.fst).getD .eof
  values := Vector.ofFn fun i => ((ts[i.val]?).map Prod.snd).getD 0
  tcount := ts.length + 1

theorem has_drop_ofToks {ts : List (Token × BitVec 64)} (h : ts.length ≤ maxTokens) (k : Nat) :
    (ofToks ts).Has (ts.length - k) (ts.drop (ts.length - k)) := by
  induction k with
  | zero =>
      rw [Nat.sub_zero, List.drop_length]
      trivial
  | succ k ih =>
      rcases Nat.lt_or_ge k ts.length with hlt | hge
      · have hi : ts.length - (k + 1) < ts.length := by omega
        have hnext : ts.length - (k + 1) + 1 = ts.length - k := by omega
        have hmax : ts.length - (k + 1) < maxTokens := by omega
        rw [List.drop_eq_getElem_cons hi, hnext]
        refine ⟨⟨?_, fun _ => ?_⟩, hnext ▸ ih⟩
        · simp [tok, ofToks, hmax, hi]
        · simp [val, ofToks, hmax, hi]
      · have hsame : ts.length - (k + 1) = ts.length - k := by omega
        rw [hsame]
        exact ih

theorem has_ofToks {ts : List (Token × BitVec 64)} (h : ts.length ≤ maxTokens) :
    (ofToks ts).Has 0 ts := by
  have hall := has_drop_ofToks h ts.length
  rwa [Nat.sub_self] at hall

end Code

/-! ## The value of an expression -/

/-- The evaluator gives a conventional expression the value of its regrouped tree, and goes on
behind its tokens. -/
theorem evalExpr_leftToRight {c : Code} {env : Env} {e : Expr} {ip : Nat} (he : e.Conventional)
    (hhas : c.Has ip e.toks) (hstop : c.Stops 0 (ip + e.toks.length)) (con : Console) :
    evalExpr c env ⟨ip, con⟩ = Reading env e.leftToRight ip con := by
  have htoks : e.leftToRight.toks = e.toks := e.toks_regroup none
  rw [← htoks] at hhas hstop
  exact evalExpr_reads (Expr.grouped_regroup he Expr.waiting_none) hhas hstop

/-- The pointer is always right. -/
theorem evalExpr_consumes {c : Code} {env : Env} {e : Expr} {ip : Nat} {con : Console} {v : Value}
    {p : Point} (he : e.Conventional) (hhas : c.Has ip e.toks)
    (hstop : c.Stops 0 (ip + e.toks.length)) (h : evalExpr c env ⟨ip, con⟩ = .ok (v, p)) :
    p.ip = ip + e.toks.length := by
  rw [evalExpr_leftToRight he hhas hstop] at h
  obtain ⟨r, -, hr⟩ := bind_eq_ok h
  cases hr
  rw [Expr.leftToRight, Expr.toks_regroup]
  rfl

/-- The value is right wherever no comparison, `&&` or `||` is split off to the right of `&&`
or `||` without parentheses. -/
theorem evalExpr_of_grouped {c : Code} {env : Env} {e : Expr} {ip : Nat} {con : Console}
    (he : e.Conventional) (hgrouped : e.Grouped BinOp.tier) (hhas : c.Has ip e.toks)
    (hstop : c.Stops 0 (ip + e.toks.length)) :
    evalExpr c env ⟨ip, con⟩ = Reading env e ip con := by
  rw [evalExpr_leftToRight he hhas hstop, Expr.leftToRight_of_grouped hgrouped]

end PureOS.Interp
