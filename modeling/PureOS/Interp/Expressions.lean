import PureOS.Interp.Eval

set_option autoImplicit false

/-!
# Interp: what an expression is worth (`barrel.rs`)

Expressions as trees, how they are written, and what they mean.  Which tree a row of tokens
stands for is a matter of grouping: by the conventional precedence, or by the three levels
of the source, of which the lowest takes the comparisons, `&&` and `||` alike.  The
evaluator reads any tree that is grouped by its own levels, so that a conventional tree is
worth what its tokens are worth when they are grouped anew.
-/

namespace PureOS.Interp

open PureOS.Foundation

/-! ## Trees -/

/-- The binary operators. -/
inductive BinOp where
  | star | slash | mod | plus | minus
  | eqEq | ne | lt | gt | le | ge | andAnd | orOr
  deriving DecidableEq, Repr

namespace BinOp

/-- The token of an operator. -/
def token : BinOp → Token
  | .star => .star
  | .slash => .slash
  | .mod => .mod
  | .plus => .plus
  | .minus => .minus
  | .eqEq => .eqEq
  | .ne => .ne
  | .lt => .lt
  | .gt => .gt
  | .le => .le
  | .ge => .ge
  | .andAnd => .andAnd
  | .orOr => .orOr

/-- The conventional precedence: multiplication, addition, comparison, `&&`, `||`. -/
def prec : BinOp → Nat
  | .star | .slash | .mod => 5
  | .plus | .minus => 4
  | .eqEq | .ne | .lt | .gt | .le | .ge => 3
  | .andAnd => 2
  | .orOr => 1

/-- The loop of the source that takes the operator: `eval_mul`, `eval_add` or `eval_cmp`. -/
def tier : BinOp → Nat
  | .star | .slash | .mod => 2
  | .plus | .minus => 1
  | _ => 0

/-- Arithmetic wraps around, a division by 0 and its rest are 0, and what is true is 1. -/
def apply : BinOp → BitVec 64 → BitVec 64 → BitVec 64
  | .star, l, r => l * r
  | .slash, l, r => if r = 0 then 0 else l / r
  | .mod, l, r => if r = 0 then 0 else l % r
  | .plus, l, r => l + r
  | .minus, l, r => l - r
  | .eqEq, l, r => if l = r then 1 else 0
  | .ne, l, r => if l = r then 0 else 1
  | .lt, l, r => if l < r then 1 else 0
  | .gt, l, r => if r < l then 1 else 0
  | .le, l, r => if l ≤ r then 1 else 0
  | .ge, l, r => if r ≤ l then 1 else 0
  | .andAnd, l, r => if l ≠ 0 ∧ r ≠ 0 then 1 else 0
  | .orOr, l, r => if l ≠ 0 ∨ r ≠ 0 then 1 else 0

/-- An operator on values: what is not a number counts as 0. -/
def on (op : BinOp) (l r : Value) : Value := .num (op.apply l.toNum r.toNum)

end BinOp

/-- The operator of a token. -/
def Token.binOp : Token → Option BinOp
  | .star => some .star
  | .slash => some .slash
  | .mod => some .mod
  | .plus => some .plus
  | .minus => some .minus
  | .eqEq => some .eqEq
  | .ne => some .ne
  | .lt => some .lt
  | .gt => some .gt
  | .le => some .le
  | .ge => some .ge
  | .andAnd => some .andAnd
  | .orOr => some .orOr
  | _ => none

@[simp] theorem BinOp.binOp_token (op : BinOp) : op.token.binOp = some op := by
  cases op <;> rfl

/-- `Value::Num(n) => Value::Num(n.wrapping_neg())`. -/
def Value.neg : Value → Value
  | .num v => .num (-v)
  | _ => .nil

/-- `Value::Num(n) => Value::Num(if n == 0 { 1 } else { 0 })`. -/
def Value.not : Value → Value
  | .num v => .num (if v = 0 then 1 else 0)
  | _ => .nil

/-- Expressions; a name or a string is the place of its text. -/
inductive Expr where
  | num (v : BitVec 64)
  | var (nameStart : BitVec 64)
  | str (start : BitVec 64)
  | input
  | paren (e : Expr)
  | neg (e : Expr)
  | not (e : Expr)
  | bin (op : BinOp) (a b : Expr)
  deriving DecidableEq, Repr

namespace Expr

/-- How an expression is written. -/
def toks : Expr → List (Token × BitVec 64)
  | .num v => [(.number, v)]
  | .var s => [(.ident, s)]
  | .str s => [(.string, s)]
  | .input => [(.input, 0)]
  | .paren e => (.lParen, 0) :: (e.toks ++ [(.rParen, 0)])
  | .neg e => (.minus, 0) :: e.toks
  | .not e => (.not, 0) :: e.toks
  | .bin op a b => a.toks ++ (op.token, 0) :: b.toks

/-- How tightly an expression holds together, when the operators rank as `r` says. -/
def rank (r : BinOp → Nat) : Expr → Nat
  | .bin op _ _ => r op
  | _ => 6

/-- The tree is the one its tokens stand for when operators of a higher rank bind tighter, and
those of the same rank associate to the left. -/
def Grouped (r : BinOp → Nat) : Expr → Prop
  | .bin op a b => a.Grouped r ∧ b.Grouped r ∧ r op ≤ a.rank r ∧ r op < b.rank r
  | .paren e => e.Grouped r
  | .neg e => e.Grouped r ∧ e.rank r = 6
  | .not e => e.Grouped r ∧ e.rank r = 6
  | _ => True

/-- The parse under conventional precedence. -/
abbrev Conventional (e : Expr) : Prop := e.Grouped BinOp.prec

/-- The value of an expression.  Only an `input` makes use of the console. -/
def value (env : Env) : Expr → Console → Except Fault (Value × Console)
  | .num v, con => .ok (.num v, con)
  | .var s, con => .ok (env.get s, con)
  | .str s, con => .ok (.str s, con)
  | .input, con => do
      let (line, con) ← con.readLine
      .ok (.num (lineNumber line), con)
  | .paren e, con => e.value env con
  | .neg e, con => do
      let (v, con) ← e.value env con
      .ok (v.neg, con)
  | .not e, con => do
      let (v, con) ← e.value env con
      .ok (v.not, con)
  | .bin op a b, con => do
      let (v, con) ← a.value env con
      let (w, con) ← b.value env con
      .ok (op.on v w, con)

end Expr

/-! ## Rows of tokens -/

/-- The tokens whose value counts. -/
def Token.hasValue : Token → Bool
  | .number | .ident | .string => true
  | _ => false

namespace Code

/-- From `ip` on the table holds these tokens. -/
def Has (c : Code) : Nat → List (Token × BitVec 64) → Prop
  | _, [] => True
  | ip, t :: ts => (c.tok ip = t.1 ∧ (t.1.hasValue = true → c.val ip = t.2)) ∧ c.Has (ip + 1) ts

/-- At `ip` stands no operator that a level from `t` on would take. -/
def Stops (c : Code) (t ip : Nat) : Prop := ∀ op, (c.tok ip).binOp = some op → op.tier < t

theorem has_append {c : Code} {ip : Nat} {ts us : List (Token × BitVec 64)} :
    c.Has ip (ts ++ us) ↔ c.Has ip ts ∧ c.Has (ip + ts.length) us := by
  induction ts generalizing ip with
  | nil => exact ⟨fun h => ⟨trivial, h⟩, fun h => h.2⟩
  | cons t ts ih =>
      rw [List.cons_append, Has, Has, ih, List.length_cons, Nat.add_right_comm, Nat.add_assoc]
      exact and_assoc.symm

theorem lt_of_tok {c : Code} {ip : Nat} (h : c.tok ip ≠ .eof) : ip < maxTokens := by
  by_contra hge
  refine h ?_
  rw [tok, Vector.getElem?_eq_none (Nat.le_of_not_lt hge)]
  rfl

/-- A row without `Eof` lies inside the table. -/
theorem Has.le {c : Code} {ip : Nat} {ts : List (Token × BitVec 64)} (h : c.Has ip ts)
    (hts : ∀ t ∈ ts, t.1 ≠ .eof) (hip : ip ≤ maxTokens) : ip + ts.length ≤ maxTokens := by
  induction ts generalizing ip with
  | nil => exact hip
  | cons t ts ih =>
      have hlt : ip < maxTokens := lt_of_tok (h.1.1 ▸ hts t List.mem_cons_self)
      have hrest := ih h.2 (fun t' ht' => hts t' (List.mem_cons_of_mem t ht')) hlt
      rw [List.length_cons]
      omega

end Code

/-- The tokens that occur in expressions. -/
def Token.inExpr : Token → Bool
  | .ident | .number | .string | .input | .not | .lParen | .rParen => true
  | tok => tok.binOp.isSome

theorem BinOp.inExpr_token (op : BinOp) : op.token.inExpr = true := by
  cases op <;> rfl

theorem Expr.toks_inExpr (e : Expr) : ∀ t ∈ e.toks, t.1.inExpr = true := by
  induction e with
  | num v => simp [toks, Token.inExpr]
  | var s => simp [toks, Token.inExpr]
  | str s => simp [toks, Token.inExpr]
  | input => simp [toks, Token.inExpr]
  | paren e ih =>
      simp only [toks, List.mem_cons, List.mem_append, List.not_mem_nil, or_false]
      rintro t (rfl | ht | rfl)
      · rfl
      · exact ih t ht
      · rfl
  | neg e ih =>
      simp only [toks, List.mem_cons]
      rintro t (rfl | ht)
      · rfl
      · exact ih t ht
  | not e ih =>
      simp only [toks, List.mem_cons]
      rintro t (rfl | ht)
      · rfl
      · exact ih t ht
  | bin op a b iha ihb =>
      simp only [toks, List.mem_cons, List.mem_append]
      rintro t (ht | rfl | ht)
      · exact iha t ht
      · exact op.inExpr_token
      · exact ihb t ht

theorem Expr.toks_ne {e : Expr} {tok : Token} (h : tok.inExpr = false) :
    ∀ t ∈ e.toks, t.1 ≠ tok := by
  rintro t ht rfl
  rw [e.toks_inExpr t ht] at h
  cases h

/-! ## The levels of the source -/

theorem mulOp_eq (tok : Token) :
    mulOp tok = tok.binOp.bind fun op => if op.tier = 2 then some op.apply else none := by
  cases tok with
  | slash => exact congrArg some (funext fun l => funext fun r => ite_not _ _ _)
  | mod => exact congrArg some (funext fun l => funext fun r => ite_not _ _ _)
  | _ => rfl

theorem addOp_eq (tok : Token) :
    addOp tok = tok.binOp.bind fun op => if op.tier = 1 then some op.apply else none := by
  cases tok <;> rfl

theorem cmpOp_eq (tok : Token) :
    cmpOp tok = tok.binOp.bind fun op => if op.tier = 0 then some op.apply else none := by
  cases tok with
  | ne => exact congrArg some (funext fun l => funext fun r => ite_not _ _ _)
  | andAnd =>
      refine congrArg some (funext fun l => funext fun r => ?_)
      by_cases hl : l = 0#64 <;> by_cases hr : r = 0#64 <;> simp [BinOp.apply, hl, hr]
  | orOr =>
      refine congrArg some (funext fun l => funext fun r => ?_)
      by_cases hl : l = 0#64 <;> by_cases hr : r = 0#64 <;> simp [BinOp.apply, hl, hr]
  | _ => rfl

section Levels

variable {c : Code} {env : Env} {operand : Evaluation} {t K n : Nat}
variable {opf : Token → Option (BitVec 64 → BitVec 64 → BitVec 64)}

/-- What an evaluator gives that reads exactly the tokens of `e`. -/
def Reading (env : Env) (e : Expr) (ip : Nat) (con : Console) : Except Fault (Value × Point) := do
  let (v, con) ← e.value env con
  .ok (v, ⟨ip + e.toks.length, con⟩)

/-- An evaluator reads `e`, wherever no operator follows that a level from `t` on would take. -/
def Reads (c : Code) (env : Env) (t : Nat) (operand : Evaluation) (e : Expr) : Prop :=
  ∀ ip con, c.Has ip e.toks → c.Stops t (ip + e.toks.length) →
    operand ⟨ip, con⟩ = Reading env e ip con

/-- How many operators of a level the loop meets in an expression. -/
def Expr.spine (t : Nat) : Expr → Nat
  | .bin op a _ => if op.tier = t then a.spine t + 1 else 0
  | _ => 0

theorem Expr.spine_lt (t : Nat) (e : Expr) : e.spine t < e.toks.length := by
  induction e with
  | bin op a b iha ihb =>
      rw [spine, toks, List.length_append, List.length_cons]
      split <;> omega
  | _ => exact Nat.succ_pos _

theorem levelLoop_stop {v : Value} {p : Point} (hop : ∀ tok, opf tok =
      tok.binOp.bind fun op => if op.tier = t then some op.apply else none)
    (hstop : c.Stops t p.ip) : levelLoop c opf operand (n + 1) v p = .ok (v, p) := by
  have hnone : opf (c.tok p.ip) = none := by
    rw [hop]
    cases hbin : (c.tok p.ip).binOp with
    | none => rfl
    | some op => exact if_neg (Nat.ne_of_lt (hstop op hbin))
  rw [levelLoop, hnone]

theorem levelLoop_again {v : Value} {p : Point} {op : BinOp} (hop : ∀ tok, opf tok =
      tok.binOp.bind fun op => if op.tier = t then some op.apply else none)
    (htok : c.tok p.ip = op.token) (ht : op.tier = t) :
    levelLoop c opf operand (n + 1) v p =
      (operand { p with ip := p.ip + 1 } >>= fun r =>
        levelLoop c opf operand n (op.on v r.1) r.2) := by
  have hsome : opf (c.tok p.ip) = some op.apply := by
    rw [hop, htok, BinOp.binOp_token]
    exact if_pos ht
  rw [levelLoop, hsome]
  rfl

/-- Reading the first operand and going on with the loop is reading all that belongs to the
level, on the spine of the tree from its foot to its top. -/
theorem levelLoop_reads (hlevel : t < 6) (hop : ∀ tok, opf tok =
      tok.binOp.bind fun op => if op.tier = t then some op.apply else none)
    (hoperand : ∀ e : Expr, e.Grouped BinOp.tier → t < e.rank BinOp.tier → e.toks.length ≤ K →
      Reads c env (t + 1) operand e)
    (e : Expr) (he : e.Grouped BinOp.tier) (ht : t ≤ e.rank BinOp.tier) (hK : e.toks.length ≤ K)
    (ip : Nat) (con : Console) (hhas : c.Has ip e.toks)
    (hstop : c.Stops (t + 1) (ip + e.toks.length)) :
    (operand ⟨ip, con⟩ >>= fun r => levelLoop c opf operand (n + e.spine t) r.1 r.2) =
      (Reading env e ip con >>= fun r => levelLoop c opf operand n r.1 r.2) := by
  induction e generalizing ip con n with
  | bin op a b iha _ =>
      by_cases htop : op.tier = t
      · obtain ⟨ha, hb, hranka, hrankb⟩ := he
        rw [Expr.toks, List.length_append, List.length_cons] at hK hstop
        rw [Expr.toks, Code.has_append] at hhas
        obtain ⟨hhasa, ⟨htok, -⟩, hhasb⟩ := hhas
        have hstopa : c.Stops (t + 1) (ip + a.toks.length) := by
          intro op' hop'
          rw [htok, BinOp.binOp_token] at hop'
          cases hop'
          omega
        have hspine : n + (Expr.bin op a b).spine t = n + 1 + a.spine t := by
          rw [Expr.spine, if_pos htop]
          omega
        rw [hspine, iha ha (htop ▸ hranka) (by omega) ip con hhasa hstopa]
        have hlen : ip + (a.toks.length + (b.toks.length + 1)) =
            ip + a.toks.length + 1 + b.toks.length := by omega
        rw [hlen] at hstop
        unfold Reading
        rw [Expr.value, Expr.toks, List.length_append, List.length_cons, hlen]
        simp only [bind_assoc, bind_ok]
        congr 1
        funext r
        rw [levelLoop_again hop htok htop,
          hoperand b hb (htop ▸ hrankb) (by omega) (ip + a.toks.length + 1) r.2 hhasb hstop]
        unfold Reading
        simp only [bind_assoc, bind_ok]
      · have hspine : (Expr.bin op a b).spine t = 0 := if_neg htop
        have hlt : t < (Expr.bin op a b).rank BinOp.tier := Nat.lt_of_le_of_ne ht (Ne.symm htop)
        rw [hspine, Nat.add_zero, hoperand _ he hlt hK ip con hhas hstop]
  | _ =>
      exact congrArg (· >>= fun r => levelLoop c opf operand n r.1 r.2)
        (hoperand _ he hlevel hK ip con hhas hstop)

/-- A level reads what belongs to it. -/
theorem level_reads (hlevel : t < 6) (hop : ∀ tok, opf tok =
      tok.binOp.bind fun op => if op.tier = t then some op.apply else none)
    (hoperand : ∀ e : Expr, e.Grouped BinOp.tier → t < e.rank BinOp.tier → e.toks.length ≤ K →
      Reads c env (t + 1) operand e)
    (hn : K < n) (e : Expr) (he : e.Grouped BinOp.tier) (ht : t ≤ e.rank BinOp.tier)
    (hK : e.toks.length ≤ K) : Reads c env t (level c opf operand n) e := by
  intro ip con hhas hstop
  have hspine := e.spine_lt t
  obtain ⟨m, hm⟩ : ∃ m, n = m + 1 + e.spine t := ⟨n - 1 - e.spine t, by omega⟩
  have hstop' : c.Stops (t + 1) (ip + e.toks.length) :=
    fun op hbin => (hstop op hbin).trans (Nat.lt_succ_self t)
  have hloop := levelLoop_reads (n := m + 1) hlevel hop hoperand e he ht hK ip con hhas hstop'
  rw [← hm] at hloop
  unfold level
  refine hloop.trans ?_
  unfold Reading
  rw [bind_assoc]
  congr 1
  funext r
  exact levelLoop_stop hop hstop

/-- The three levels, over an evaluator of atoms. -/
theorem evalCmp_reads {atom : Evaluation}
    (hatom : ∀ e : Expr, e.Grouped BinOp.tier → 2 < e.rank BinOp.tier → e.toks.length ≤ K →
      Reads c env 3 atom e)
    (hn : K < n) (e : Expr) (he : e.Grouped BinOp.tier) (hK : e.toks.length ≤ K) :
    Reads c env 0 (evalCmp c atom n) e :=
  level_reads (by decide) cmpOp_eq
    (fun e he ht hK => level_reads (by decide) addOp_eq
      (fun e he ht hK => level_reads (by decide) mulOp_eq hatom hn e he ht hK) hn e he ht hK)
    hn e he (Nat.zero_le _) hK

end Levels

theorem BinOp.tier_le (op : BinOp) : op.tier ≤ 2 := by
  cases op <;> decide

theorem Code.stops_of_binOp {c : Code} {ip : Nat} {tok : Token} (t : Nat) (htok : c.tok ip = tok)
    (h : tok.binOp = none) : c.Stops t ip := by
  intro op hop
  rw [htok, h] at hop
  cases hop

/-- The evaluator of atoms reads what is not an operation of two operands. -/
theorem evalAtom_reads {c : Code} {env : Env} (n : Nat) (e : Expr) (he : e.Grouped BinOp.tier)
    (ht : 2 < e.rank BinOp.tier) (hn : e.toks.length < n) :
    Reads c env 3 (evalAtom c env n) e := by
  induction n generalizing e with
  | zero => cases hn
  | succ n ih =>
      intro ip con hhas hstop
      have hlt : ∀ {tok : Token}, tok ≠ .eof → c.tok ip = tok → ¬maxTokens ≤ ip :=
        fun hne htok => Nat.not_le_of_lt (Code.lt_of_tok (htok ▸ hne))
      cases e with
      | num v =>
          obtain ⟨⟨htok, hval⟩, -⟩ := hhas
          rw [evalAtom, if_neg (hlt Token.noConfusion htok)]
          dsimp only
          rw [htok, hval rfl]
          rfl
      | var s =>
          obtain ⟨⟨htok, hval⟩, -⟩ := hhas
          rw [evalAtom, if_neg (hlt Token.noConfusion htok)]
          dsimp only
          rw [htok, hval rfl]
          rfl
      | str s =>
          obtain ⟨⟨htok, hval⟩, -⟩ := hhas
          rw [evalAtom, if_neg (hlt Token.noConfusion htok)]
          dsimp only
          rw [htok, hval rfl]
          rfl
      | input =>
          obtain ⟨⟨htok, -⟩, -⟩ := hhas
          rw [evalAtom, if_neg (hlt Token.noConfusion htok)]
          dsimp only
          rw [htok]
          unfold Reading
          rw [Expr.value, bind_assoc]
          rfl
      | paren e =>
          rw [Expr.toks, List.length_cons, List.length_append, List.length_singleton] at hn
          obtain ⟨⟨htok, -⟩, hinner⟩ := hhas
          obtain ⟨hhas, ⟨hclose, -⟩, -⟩ := Code.has_append.mp hinner
          have hcmp : Reads c env 0 (evalCmp c (evalAtom c env n) n) e :=
            evalCmp_reads (K := n - 1) (fun e he ht hK => ih e he ht (by omega)) (by omega) e he
              (by omega)
          have hread := hcmp (ip + 1) con hhas (Code.stops_of_binOp 0 hclose rfl)
          rw [evalAtom, if_neg (hlt Token.noConfusion htok)]
          dsimp only
          rw [htok]
          dsimp only
          rw [hread]
          unfold Reading
          rw [Expr.value, Expr.toks, bind_assoc]
          congr 1
          funext r
          rw [bind_ok]
          dsimp only
          rw [if_pos hclose, List.length_cons, List.length_append, List.length_singleton]
          congr 3
          omega
      | neg e =>
          obtain ⟨⟨htok, -⟩, hhas⟩ := hhas
          obtain ⟨he, hrank⟩ := he
          rw [Expr.toks, List.length_cons] at hn hstop
          have hlen : ip + (e.toks.length + 1) = ip + 1 + e.toks.length := by omega
          rw [hlen] at hstop
          have hread := ih e he (by rw [hrank]; decide) (by omega) (ip + 1) con hhas hstop
          rw [evalAtom, if_neg (hlt Token.noConfusion htok)]
          dsimp only
          rw [htok]
          dsimp only
          rw [hread]
          unfold Reading
          rw [Expr.value, Expr.toks, List.length_cons, hlen, bind_assoc, bind_assoc]
          congr 1
          funext r
          obtain ⟨v, con'⟩ := r
          cases v <;> rfl
      | not e =>
          obtain ⟨⟨htok, -⟩, hhas⟩ := hhas
          obtain ⟨he, hrank⟩ := he
          rw [Expr.toks, List.length_cons] at hn hstop
          have hlen : ip + (e.toks.length + 1) = ip + 1 + e.toks.length := by omega
          rw [hlen] at hstop
          have hread := ih e he (by rw [hrank]; decide) (by omega) (ip + 1) con hhas hstop
          rw [evalAtom, if_neg (hlt Token.noConfusion htok)]
          dsimp only
          rw [htok]
          dsimp only
          rw [hread]
          unfold Reading
          rw [Expr.value, Expr.toks, List.length_cons, hlen, bind_assoc, bind_assoc]
          congr 1
          funext r
          obtain ⟨v, con'⟩ := r
          cases v <;> rfl
      | bin op a b => exact absurd ht (Nat.not_lt_of_le op.tier_le)

/-- The evaluator reads every tree that is grouped by its own levels. -/
theorem evalExpr_reads {c : Code} {env : Env} {e : Expr} (he : e.Grouped BinOp.tier) {ip : Nat}
    {con : Console} (hhas : c.Has ip e.toks) (hstop : c.Stops 0 (ip + e.toks.length)) :
    evalExpr c env ⟨ip, con⟩ = Reading env e ip con := by
  have hne : e.toks ≠ [] := List.ne_nil_of_length_pos (Nat.zero_lt_of_lt (e.spine_lt 0))
  obtain ⟨t, ts, hts⟩ := List.exists_cons_of_ne_nil hne
  have hip : ip < maxTokens := by
    have hfirst := hhas
    rw [hts] at hfirst
    exact Code.lt_of_tok (hfirst.1.1 ▸ Expr.toks_ne rfl t (hts ▸ List.mem_cons_self))
  have hlen := hhas.le (Expr.toks_ne rfl) hip.le
  exact evalCmp_reads (K := maxTokens) (fun e he ht hK => evalAtom_reads _ e he ht (by omega))
    (Nat.lt_succ_self _) e he (by omega) ip con hhas hstop

end PureOS.Interp
