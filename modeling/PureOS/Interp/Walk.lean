import PureOS.Interp.Statements

set_option autoImplicit false

/-!
# Interp: the walk over a statement (`barrel.rs`)

What the interpreter finds where a statement stands: the braces of a block are found by
counting, the expressions are read to their end, and an arm of `exec_block` that knows what
the blocks do is known itself.
-/

namespace PureOS.Interp

open PureOS.Foundation

/-! ## Statements in the table -/

/-- A statement stands at `ip`: its tokens are in the table, in front of the `Eof` and of
something that does not belong to it. -/
structure Placed (c : Code) (ip : Nat) (s : Stmt) : Prop where
  has : c.Has ip s.toks
  wellFormed : s.WellFormed
  fits : ip + s.len < c.tcount
  table : c.tcount ≤ maxTokens
  next : c.tok (ip + s.len) ≠ .else

variable {c : Code} {ip : Nat} {s t : Stmt} {e : Expr}

/-- No statement begins with `else`. -/
theorem tok_ne_else (s : Stmt) (ip : Nat) (has : c.Has ip s.toks)
    (next : c.tok (ip + s.len) ≠ .else) : c.tok ip ≠ .else := by
  induction s generalizing ip with
  | skip => exact next
  | seq s t ihs iht =>
      obtain ⟨hs, ht⟩ := Code.has_append.mp has
      refine ihs ip hs (iht (ip + s.len) ht ?_)
      rwa [Stmt.len, Stmt.toks, List.length_append, ← Nat.add_assoc] at next
  | print newline e =>
      rw [has.1.1]
      cases newline <;> exact Token.noConfusion
  | draw kind args =>
      rw [has.1.1]
      cases kind <;> exact Token.noConfusion
  | _ =>
      rw [has.1.1]
      exact Token.noConfusion

theorem Placed.seqLeft (h : Placed c ip (.seq s t)) : Placed c ip s where
  has := (Code.has_append.mp h.has).1
  wellFormed := h.wellFormed.1
  fits := by
    have hfits := h.fits
    rw [Stmt.len, Stmt.toks, List.length_append] at hfits
    exact Nat.lt_of_le_of_lt (Nat.add_le_add_left (Nat.le_add_right _ _) ip) hfits
  table := h.table
  next := by
    have hnext := h.next
    rw [Stmt.len, Stmt.toks, List.length_append, ← Nat.add_assoc] at hnext
    exact tok_ne_else t _ (Code.has_append.mp h.has).2 hnext

theorem Placed.seqRight (h : Placed c ip (.seq s t)) : Placed c (ip + s.len) t where
  has := (Code.has_append.mp h.has).2
  wellFormed := h.wellFormed.2
  fits := by
    have hfits := h.fits
    rwa [Stmt.len, Stmt.toks, List.length_append, ← Nat.add_assoc] at hfits
  table := h.table
  next := by
    have hnext := h.next
    rwa [Stmt.len, Stmt.toks, List.length_append, ← Nat.add_assoc] at hnext

/-- A block: its statements and the closing brace behind them. -/
structure Block (c : Code) (ip : Nat) (s : Stmt) : Prop where
  placed : Placed c ip s
  close : c.tok (ip + s.len) = .rBrace
  inside : ip + s.len < c.tcount

/-- The tokens of a block in the table are a block. -/
theorem block_of_has {rest : List (Token × BitVec 64)}
    (has : c.Has ip (s.toks ++ (.rBrace, 0) :: rest)) (wellFormed : s.WellFormed)
    (fits : ip + s.len + 1 + rest.length < c.tcount) (table : c.tcount ≤ maxTokens) :
    Block c ip s := by
  obtain ⟨hs, ⟨hclose, -⟩, -⟩ := Code.has_append.mp has
  refine ⟨⟨hs, wellFormed, by omega, table, ?_⟩, hclose, by omega⟩
  rw [hclose]
  exact Token.noConfusion

/-! ## Counting braces -/

namespace Code

theorem skipLoop_zero (c : Code) (n ip : Nat) : c.skipLoop n 0 ip = ip := by
  cases n with
  | zero => rfl
  | succ n => exact if_pos rfl

theorem skipLoop_plain {n d : Nat} (hd : 0 < d) (hl : c.tok ip ≠ .lBrace)
    (hr : c.tok ip ≠ .rBrace) : c.skipLoop (n + 1) d ip = c.skipLoop n d (ip + 1) := by
  rw [skipLoop, if_neg (Nat.ne_of_gt hd)]
  split
  · exact absurd ‹_› hl
  · exact absurd ‹_› hr
  · rfl

theorem skipLoop_open {n d : Nat} (hd : 0 < d) (h : c.tok ip = .lBrace) :
    c.skipLoop (n + 1) d ip = c.skipLoop n (d + 1) (ip + 1) := by
  rw [skipLoop, if_neg (Nat.ne_of_gt hd), h]

theorem skipLoop_close {n d : Nat} (hd : 0 < d) (h : c.tok ip = .rBrace) :
    c.skipLoop (n + 1) d ip = c.skipLoop n (d - 1) (ip + 1) := by
  rw [skipLoop, if_neg (Nat.ne_of_gt hd), h]

/-- Tokens that leave the depth as it is. -/
def Balanced (ts : List (Token × BitVec 64)) : Prop :=
  ∀ (c : Code) (n d ip : Nat), 0 < d → c.Has ip ts →
    c.skipLoop (n + ts.length) d ip = c.skipLoop n d (ip + ts.length)

namespace Balanced

variable {ts us : List (Token × BitVec 64)} {tok : Token × BitVec 64}

theorem nil : Balanced [] := fun _ _ _ _ _ _ => rfl

theorem append (h : Balanced ts) (h' : Balanced us) : Balanced (ts ++ us) := by
  intro c n d ip hd has
  obtain ⟨hts, hus⟩ := has_append.mp has
  rw [List.length_append, Nat.add_comm ts.length, ← Nat.add_assoc, h c _ d ip hd hts,
    h' c n d _ hd hus, Nat.add_comm us.length, Nat.add_assoc]

theorem cons (hl : tok.1 ≠ .lBrace) (hr : tok.1 ≠ .rBrace) (h : Balanced ts) :
    Balanced (tok :: ts) := by
  intro c n d ip hd has
  obtain ⟨⟨htok, -⟩, hts⟩ := has
  rw [List.length_cons, ← Nat.add_assoc, skipLoop_plain hd (htok ▸ hl) (htok ▸ hr),
    h c n d _ hd hts, Nat.add_assoc, Nat.add_comm 1]

theorem of_plain (h : ∀ t ∈ ts, t.1 ≠ .lBrace ∧ t.1 ≠ .rBrace) : Balanced ts := by
  induction ts with
  | nil => exact nil
  | cons tok ts ih =>
      obtain ⟨hl, hr⟩ := h tok List.mem_cons_self
      exact cons hl hr (ih fun t ht => h t (List.mem_cons_of_mem tok ht))

theorem expr (e : Expr) : Balanced e.toks :=
  of_plain fun t ht => ⟨Expr.toks_ne rfl t ht, Expr.toks_ne rfl t ht⟩

/-- A block in its braces. -/
theorem block (h : Balanced ts) (h' : Balanced us) :
    Balanced ((.lBrace, 0) :: (ts ++ (.rBrace, 0) :: us)) := by
  intro c n d ip hd has
  obtain ⟨⟨hopen, -⟩, hinner⟩ := has
  obtain ⟨hts, ⟨hclose, -⟩, hus⟩ := has_append.mp hinner
  have hlen : n + ((.lBrace, 0) :: (ts ++ (.rBrace, 0) :: us) : List (Token × BitVec 64)).length =
      n + us.length + 1 + ts.length + 1 := by
    rw [List.length_cons, List.length_append, List.length_cons]
    omega
  rw [hlen, skipLoop_open hd hopen, h c _ (d + 1) _ (Nat.succ_pos d) hts,
    skipLoop_close (Nat.succ_pos d) hclose, Nat.succ_sub_one, h' c n d _ hd hus]
  congr 1
  rw [List.length_cons, List.length_append, List.length_cons]
  omega

/-- A statement is balanced. -/
theorem stmt (s : Stmt) : Balanced s.toks := by
  have hsemi : Balanced [(.semicolon, 0)] := cons Token.noConfusion Token.noConfusion nil
  induction s with
  | skip => exact nil
  | seq s t ihs iht => exact ihs.append iht
  | empty => exact hsemi
  | print newline e =>
      refine cons ?_ ?_ ((expr e).append hsemi)
      · cases newline <;> exact Token.noConfusion
      · cases newline <;> exact Token.noConfusion
  | assign x e =>
      exact cons Token.noConfusion Token.noConfusion (cons Token.noConfusion Token.noConfusion
        (cons Token.noConfusion Token.noConfusion ((expr e).append hsemi)))
  | input x =>
      exact cons Token.noConfusion Token.noConfusion
        (cons Token.noConfusion Token.noConfusion hsemi)
  | draw kind args =>
      have hargs : Balanced (args.flatMap Expr.toks) := by
        refine of_plain fun t ht => ?_
        obtain ⟨e, -, hte⟩ := List.mem_flatMap.mp ht
        exact ⟨Expr.toks_ne rfl t hte, Expr.toks_ne rfl t hte⟩
      refine cons ?_ ?_ (hargs.append hsemi)
      · cases kind <;> exact Token.noConfusion
      · cases kind <;> exact Token.noConfusion
  | ifThen e s ih =>
      exact cons Token.noConfusion Token.noConfusion ((expr e).append (block ih nil))
  | ifElse e s t ihs iht =>
      exact cons Token.noConfusion Token.noConfusion ((expr e).append
        (block ihs (cons Token.noConfusion Token.noConfusion (block iht nil))))
  | «while» e s ih =>
      exact cons Token.noConfusion Token.noConfusion ((expr e).append (block ih nil))
  | loop s ih => exact cons Token.noConfusion Token.noConfusion (block ih nil)
  | «break» => exact cons Token.noConfusion Token.noConfusion hsemi

end Balanced

end Code

/-- From the beginning of a block, and from its closing brace, `skip_block` leads behind it. -/
theorem Block.skipBlock (h : Block c ip s) : c.skipBlock ip = ip + s.len + 1 := by
  have hfits := h.inside
  have htable := h.placed.table
  obtain ⟨n, hn⟩ : ∃ n, maxTokens - ip = n + 1 + s.len := ⟨maxTokens - ip - s.len - 1, by omega⟩
  rw [Code.skipBlock, hn, Code.Balanced.stmt s c (n + 1) 1 ip Nat.one_pos h.placed.has,
    Code.skipLoop_close Nat.one_pos h.close, Code.skipLoop_zero]

theorem Block.skipBlock_close (h : Block c ip s) : c.skipBlock (ip + s.len) = ip + s.len + 1 := by
  have hfits := h.inside
  have htable := h.placed.table
  obtain ⟨n, hn⟩ : ∃ n, maxTokens - (ip + s.len) = n + 1 :=
    ⟨maxTokens - (ip + s.len) - 1, by omega⟩
  rw [Code.skipBlock, hn, Code.skipLoop_close Nat.one_pos h.close, Code.skipLoop_zero]

/-! ## Expressions where they stand -/

/-- The evaluator, where an expression stands. -/
theorem Code.eval_eq {σ : Store} (he : e.Conventional) (has : c.Has ip e.toks)
    (stops : c.Stops 0 (ip + e.toks.length)) :
    c.eval ⟨ip, σ⟩ = (σ.value e >>= fun r => .ok (r.1, ⟨ip + e.toks.length, r.2⟩)) := by
  have hlen : e.leftToRight.toks.length = e.toks.length :=
    congrArg List.length (e.toks_regroup none)
  unfold Code.eval Store.value
  rw [evalExpr_leftToRight he has stops]
  unfold Reading
  rw [hlen]
  simp only [bind_assoc, bind_ok]

theorem Code.eval_ok {σ σ' : Store} {v : Value} (he : e.Conventional) (has : c.Has ip e.toks)
    (stops : c.Stops 0 (ip + e.toks.length)) (h : σ.value e = .ok (v, σ')) :
    c.eval ⟨ip, σ⟩ = .ok (v, ⟨ip + e.toks.length, σ'⟩) := by
  rw [Code.eval_eq he has stops, h]
  rfl

/-- Only the console changes. -/
theorem Store.value_ok {σ σ' : Store} {v : Value} (h : σ.value e = .ok (v, σ')) :
    ∃ con, e.leftToRight.value σ.env σ.con = .ok (v, con) ∧ σ' = { σ with con := con } := by
  obtain ⟨r, hr, heq⟩ := bind_eq_ok h
  cases heq
  exact ⟨r.2, hr, rfl⟩

/-- The expressions behind a keyword that draws. -/
theorem Code.evalArgs_ok {args : List Expr} (hargs : Stmt.ArgsApart args) {σ σ' : Store}
    {vs : List Value} (has : c.Has ip (args.flatMap Expr.toks ++ [(.semicolon, 0)]))
    (h : σ.values args = .ok (vs, σ')) :
    c.evalArgs args.length ⟨ip, σ⟩ = .ok (vs, ⟨ip + (args.flatMap Expr.toks).length, σ'⟩) := by
  induction args generalizing ip σ vs with
  | nil =>
      cases h
      rfl
  | cons e es ih =>
      obtain ⟨he, hfirst, hes⟩ := hargs
      obtain ⟨r, hr, h⟩ := bind_eq_ok h
      obtain ⟨r', hr', heq⟩ := bind_eq_ok h
      cases heq
      rw [List.flatMap_cons, List.append_assoc] at has
      obtain ⟨hhas, hrest⟩ := Code.has_append.mp has
      have hstops : c.Stops 0 (ip + e.toks.length) := by
        cases es with
        | nil => exact Code.stops_of_binOp 0 hrest.1.1 rfl
        | cons e' es =>
            obtain ⟨tok, ts, hts⟩ : ∃ tok ts, e'.toks = tok :: ts :=
              List.exists_cons_of_ne_nil
                (List.ne_nil_of_length_pos (Nat.zero_lt_of_lt (e'.spine_lt 0)))
            rw [List.flatMap_cons, hts] at hrest
            refine Code.stops_of_binOp 0 hrest.1.1 (hfirst e' rfl tok ?_)
            rw [hts]
            rfl
      rw [List.length_cons, Code.evalArgs, Code.eval_ok he hhas hstops hr, bind_ok]
      dsimp only
      rw [ih hes hrest hr', bind_ok, List.flatMap_cons, List.length_append, Nat.add_assoc]

end PureOS.Interp
