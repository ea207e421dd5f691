import PureOS.Barrel.Simulation

set_option autoImplicit false

/-!
# Barrel: jumps and the stack

Every jump of the code goes to an instruction, and to one where the stack is as deep
as at the jump.  So wherever a run of the machine comes, the depth of the stack is
the one that belongs to the place, and between two statements it is 0.
-/

namespace PureOS.Barrel

open PureOS.Foundation PureOS.Foundation.X86

/-- How many words an instruction puts on the stack. -/
def growth : Instr → Int
  | .pushRax | .pushRbp => 1
  | .popRax => -1
  | _ => 0

/-- How many words are on the stack after some code without jumps. -/
def depth (code : List Instr) : Int := (code.map growth).sum

/-- The displacement of a jump. -/
def jumpDisp : Instr → Option (BitVec 32)
  | .je d | .jmp d => some d
  | _ => none

@[simp] theorem depth_nil : depth [] = 0 := rfl

@[simp] theorem depth_append (code code' : List Instr) :
    depth (code ++ code') = depth code + depth code' := by
  rw [depth, List.map_append, List.sum_append, depth, depth]

@[simp] theorem depth_cons (i : Instr) (code : List Instr) :
    depth (i :: code) = growth i + depth code := rfl

theorem depth_bounds (code : List Instr) : -(len code : Int) ≤ depth code ∧ depth code ≤ len code := by
  induction code with
  | nil => simp
  | cons i code ih =>
      have hgrowth : -1 ≤ growth i ∧ growth i ≤ 1 := by
        cases i <;> simp [growth]
      have hpos := size_pos i
      rw [depth_cons, len_cons]
      omega

/-- An instruction begins at byte `p`, where the stack is `d` words deep; it is not the
last one. -/
def Place (whole : List Instr) (p : Nat) (d : Int) : Prop :=
  ∃ pre i j post, whole = pre ++ (i :: j :: post) ∧ len pre = p ∧ depth pre = d

theorem Place.of_append {whole pre rest : List Instr} (h : whole = pre ++ rest)
    (hrest : 2 ≤ rest.length) : Place whole (len pre) (depth pre) := by
  match rest, hrest with
  | i :: j :: post, _ => exact ⟨pre, i, j, post, h, rfl, rfl⟩

theorem Place.cast {whole : List Instr} {p q : Nat} {d d' : Int} (h : Place whole p d)
    (hp : p = q) (hd : d = d') : Place whole q d' := by
  subst hp hd
  exact h

/-- If the instruction behind `pre` is a jump, it goes to an instruction where the stack
is as deep. -/
def Lands (whole pre : List Instr) (i : Instr) : Prop :=
  ∀ d, jumpDisp i = some d →
    ∃ q : Nat, (q : Int) = len pre + i.size + d.toInt ∧ Place whole q (depth pre)

/-- All jumps of a segment behind `pre` do. -/
def AllLand (whole : List Instr) : List Instr → List Instr → Prop
  | _, [] => True
  | pre, i :: rest => Lands whole pre i ∧ AllLand whole (pre ++ [i]) rest

variable {whole : List Instr}

theorem AllLand.append {pre a b : List Instr} (ha : AllLand whole pre a)
    (hb : AllLand whole (pre ++ a) b) : AllLand whole pre (a ++ b) := by
  induction a generalizing pre with
  | nil => rwa [List.append_nil] at hb
  | cons i a ih =>
      refine ⟨ha.1, ih ha.2 ?_⟩
      rwa [List.append_assoc]

theorem AllLand.of_no_jump {pre seg : List Instr} (h : ∀ i ∈ seg, jumpDisp i = none) :
    AllLand whole pre seg := by
  induction seg generalizing pre with
  | nil => trivial
  | cons i seg ih =>
      refine ⟨fun d hd => ?_, ih fun j hj => h j (List.mem_cons_of_mem _ hj)⟩
      rw [h i List.mem_cons_self] at hd
      cases hd

theorem AllLand.of_jump {pre : List Instr} {i : Instr} {d : Int} {q : Nat}
    (hi : jumpDisp i = some (rel d)) (hlo : -2 ^ 31 ≤ d) (hhi : d < 2 ^ 31)
    (hq : (q : Int) = len pre + i.size + d) (hplace : Place whole q (depth pre)) :
    AllLand whole pre [i] := by
  refine ⟨fun d' hd' => ⟨q, ?_, hplace⟩, trivial⟩
  rw [hi] at hd'
  cases hd'
  have htoInt : (rel d).toInt = d := by
    rw [rel, BitVec.toInt_ofInt]
    exact Int.bmod_eq_of_le (by omega) (by omega)
  rw [htoInt, hq]

theorem AllLand.get {pre seg a b : List Instr} {i : Instr} (h : AllLand whole pre seg)
    (hseg : seg = a ++ i :: b) : Lands whole (pre ++ a) i := by
  subst hseg
  induction a generalizing pre with
  | nil =>
      rw [List.append_nil]
      exact h.1
  | cons j a ih =>
      have hrest := ih h.2
      rwa [List.append_assoc] at hrest

/-! ## Expressions -/

theorem depth_op (op : Op) : depth op.code = 0 := by
  cases op <;> rfl

theorem depth_expr (V : List Name) (e : Expr) : depth (e.code V) = 0 := by
  induction e with
  | num v => rfl
  | var x => rfl
  | neg e ih =>
      rw [Expr.code, depth_append, ih]
      rfl
  | bin op a b iha ihb =>
      simp only [Expr.code, depth_append, iha, ihb, depth_op]
      rfl

/-- The jumps of a division go behind the division and behind the code. -/
theorem allLand_div {pre post : List Instr} (h : whole = pre ++ (Op.div.code ++ post))
    (hpost : 2 ≤ post.length) : AllLand whole pre Op.div.code := by
  have hskip : Place whole (len pre + 19) (depth pre) :=
    (@Place.of_append whole (pre ++ [.testRcx, .je (rel 10), .xorEdx, .divRcx, .jmp (rel 2)])
      (.xorEax :: post) (by rw [h, List.append_assoc]; rfl) (by simp; omega)).cast
      (by rw [len_append]; rfl) (by rw [depth_append]; exact add_zero _)
  have hdone : Place whole (len pre + 21) (depth pre) :=
    (@Place.of_append whole (pre ++ Op.div.code) post (by rw [h, List.append_assoc]) hpost).cast
      (by rw [len_append]; rfl) (by rw [depth_append, depth_op, add_zero])
  have hje : AllLand whole (pre ++ [.testRcx]) [.je (rel 10)] := by
    refine .of_jump rfl (by decide) (by decide) (?_ : ((len pre + 19 : Nat) : Int) = _)
      (hskip.cast rfl ?_)
    · rw [len_append, size_je, show len [Instr.testRcx] = 3 from rfl]
      omega
    · rw [depth_append]
      exact (add_zero _).symm
  have hjmp : AllLand whole (pre ++ [.testRcx, .je (rel 10), .xorEdx, .divRcx]) [.jmp (rel 2)] := by
    refine .of_jump rfl (by decide) (by decide) (?_ : ((len pre + 21 : Nat) : Int) = _)
      (hdone.cast rfl ?_)
    · rw [len_append, size_jmp, show len [Instr.testRcx, .je (rel 10), .xorEdx, .divRcx] = 14 from rfl]
      omega
    · rw [depth_append]
      exact (add_zero _).symm
  have hplain {a : List Instr} {i : Instr} (hi : jumpDisp i = none) : AllLand whole a [i] :=
    .of_no_jump fun j hj => by rwa [List.mem_singleton.mp hj]
  have hlast : AllLand whole (pre ++ [.testRcx, .je (rel 10), .xorEdx, .divRcx, .jmp (rel 2)])
      [.xorEax] := hplain rfl
  have h₄ := @AllLand.append whole _ [.jmp (rel 2)] [.xorEax] hjmp
    (by rw [List.append_assoc]; exact hlast)
  have h₃ := @AllLand.append whole (pre ++ [.testRcx, .je (rel 10)]) [.xorEdx, .divRcx] _
    (.of_no_jump (by simp [jumpDisp])) (by rw [List.append_assoc]; exact h₄)
  have h₂ := @AllLand.append whole _ [.je (rel 10)] _ hje (by rw [List.append_assoc]; exact h₃)
  exact @AllLand.append whole pre [.testRcx] _ (hplain rfl) h₂

theorem allLand_op {pre post : List Instr} {op : Op} (h : whole = pre ++ (op.code ++ post))
    (hpost : 2 ≤ post.length) : AllLand whole pre op.code := by
  cases op with
  | div => exact allLand_div h hpost
  | _ => exact .of_no_jump (by simp [Op.code, compareCode, jumpDisp])

theorem allLand_expr {V : List Name} {e : Expr} {pre post : List Instr}
    (h : whole = pre ++ (e.code V ++ post)) (hpost : 2 ≤ post.length) :
    AllLand whole pre (e.code V) := by
  induction e generalizing pre post with
  | num v => exact .of_no_jump (by simp [Expr.code, jumpDisp])
  | var x => exact .of_no_jump (by simp [Expr.code, jumpDisp])
  | neg e ih =>
      refine .append (@ih pre ([.negRax] ++ post) ?_ (by simp; omega)) (.of_no_jump (by simp [jumpDisp]))
      rw [h, Expr.code, List.append_assoc]
  | bin op a b iha ihb =>
      rw [Expr.code] at h
      refine .append (iha (by rw [h, List.append_assoc]) (by simp; omega)) ?_
      refine .append (.of_no_jump (by simp [jumpDisp])) ?_
      refine .append (@ihb _ (([.movRcxRax, .popRax] ++ op.code) ++ post) ?_ (by simp)) ?_
      · rw [h]
        simp only [List.append_assoc]
      · refine .append (.of_no_jump (by simp [jumpDisp])) (allLand_op ?_ hpost)
        rw [h]
        simp only [List.append_assoc]

/-! ## Statements -/

/-- The instructions of statements: none sets up the frame, and every store goes to the
slot of a name. -/
def Plain (V : List Name) : Instr → Prop
  | .pushRbp | .movRbpRsp | .subRsp _ => False
  | .storeRbp d => ∃ x, d = disp V x
  | _ => True

theorem plain_expr (V : List Name) (e : Expr) : ∀ i ∈ e.code V, Plain V i := by
  induction e with
  | num v => simp [Expr.code, Plain]
  | var x => simp [Expr.code, Plain]
  | neg e ih =>
      intro i hi
      rcases List.mem_append.mp hi with hi | hi
      · exact ih i hi
      · rw [List.mem_singleton.mp hi]
        trivial
  | bin op a b iha ihb =>
      have hop : ∀ i ∈ op.code, Plain V i := by
        cases op <;> simp [Op.code, compareCode, Plain]
      intro i hi
      simp only [Expr.code, List.mem_append] at hi
      rcases hi with hi | hi | hi | hi | hi
      · exact iha i hi
      · rw [List.mem_singleton.mp hi]
        trivial
      · exact ihb i hi
      · revert i
        simp [Plain]
      · exact hop i hi

theorem plain_stmt (V : List Name) (exit : Option Nat) (s : Stmt) :
    ∀ i ∈ s.code V exit, Plain V i := by
  have hjmp (d : BitVec 32) : ∀ i ∈ [Instr.jmp d], Plain V i := by
    simp [Plain]
  have hbranch (d : Int) : ∀ i ∈ branchCode d, Plain V i := by
    simp [branchCode, Plain]
  induction s generalizing exit with
  | skip => simp [Stmt.code]
  | seq s t ihs iht => exact List.forall_mem_append.mpr ⟨ihs _, iht _⟩
  | assign x e =>
      refine List.forall_mem_append.mpr ⟨plain_expr V e, fun i hi => ?_⟩
      rw [List.mem_singleton.mp hi]
      exact ⟨x, rfl⟩
  | print e newline =>
      refine List.forall_mem_append.mpr ⟨plain_expr V e, ?_⟩
      cases newline <;> simp [printCode, Plain]
  | ifThen e s ih =>
      exact List.forall_mem_append.mpr ⟨plain_expr V e,
        List.forall_mem_append.mpr ⟨hbranch _, ih _⟩⟩
  | ifElse e s t ihs iht =>
      exact List.forall_mem_append.mpr ⟨plain_expr V e, List.forall_mem_append.mpr ⟨hbranch _,
        List.forall_mem_append.mpr ⟨ihs _, List.forall_mem_append.mpr ⟨hjmp _, iht _⟩⟩⟩⟩
  | «while» e s ih =>
      exact List.forall_mem_append.mpr ⟨plain_expr V e, List.forall_mem_append.mpr ⟨hbranch _,
        List.forall_mem_append.mpr ⟨ih _, hjmp _⟩⟩⟩
  | loop s ih => exact List.forall_mem_append.mpr ⟨ih _, hjmp _⟩
  | «break» => exact hjmp _

theorem depth_stmt (V : List Name) (exit : Option Nat) (s : Stmt) : depth (s.code V exit) = 0 := by
  induction s generalizing exit with
  | skip => rfl
  | seq s t ihs iht => rw [Stmt.code, depth_append, ihs, iht, add_zero]
  | assign x e =>
      rw [Stmt.code, depth_append, depth_expr]
      rfl
  | print e newline =>
      rw [Stmt.code, depth_append, depth_expr]
      cases newline <;> rfl
  | ifThen e s ih =>
      rw [Stmt.code, depth_append, depth_append, depth_expr, ih]
      rfl
  | ifElse e s t ihs iht =>
      simp only [Stmt.code, depth_append, depth_expr, ihs, iht]
      rfl
  | «while» e s ih =>
      simp only [Stmt.code, depth_append, depth_expr, ih]
      rfl
  | loop s ih =>
      rw [Stmt.code, depth_append, ih]
      rfl
  | «break» => rfl

theorem depth_branch (d : Int) : depth (branchCode d) = 0 := rfl

theorem allLand_branch {pre : List Instr} {d : Nat} (hd : d < 2 ^ 31)
    (hplace : Place whole (len pre + 9 + d) (depth pre)) : AllLand whole pre (branchCode d) := by
  have hje : AllLand whole (pre ++ [.testRax]) [.je (rel d)] := by
    refine .of_jump rfl (by omega) (by omega) (?_ : ((len pre + 9 + d : Nat) : Int) = _)
      (hplace.cast rfl ?_)
    · rw [len_append, size_je, show len [Instr.testRax] = 3 from rfl]
      omega
    · rw [depth_append]
      exact (add_zero _).symm
  exact @AllLand.append whole pre [.testRax] _ (.of_no_jump (by simp [jumpDisp])) hje

theorem allLand_jmp {pre : List Instr} {d : Int} {q : Nat} (hlo : -2 ^ 31 ≤ d) (hhi : d < 2 ^ 31)
    (hq : (q : Int) = len pre + 5 + d) (hplace : Place whole q (depth pre)) :
    AllLand whole pre [.jmp (rel d)] := by
  refine .of_jump rfl hlo hhi ?_ hplace
  rw [size_jmp, hq]
  rfl

/-- The place behind a statement that more code follows. -/
theorem place_behind {V : List Name} {exit : Option Nat} {s : Stmt} {pre post : List Instr} {p : Nat}
    (h : whole = pre ++ (s.code V exit ++ post)) (hp : len pre = p) (hpost : 2 ≤ post.length) :
    Place whole (p + s.size) (depth pre) :=
  (@Place.of_append whole (pre ++ s.code V exit) post (by rw [h, List.append_assoc]) hpost).cast
    (by rw [len_append, Stmt.len_code, hp]) (by rw [depth_append, depth_stmt, add_zero])

/-- A `break` of a part goes where the `break`s of the whole statement go. -/
theorem place_of_exit {p k : Nat} {d : Int} {exit : Option Nat}
    (hexit : Place whole (p + k + exit.getD 0) d) (hend : Place whole p d) :
    Place whole (p + (exit.map (k + ·)).getD 0) d := by
  cases exit with
  | none => exact hend
  | some e => exact hexit.cast (Nat.add_assoc ..) rfl

/-- The jumps of a statement go to instructions of equal depth, if its `break`s do. -/
def StmtLands (whole : List Instr) (V : List Name) (s : Stmt) : Prop :=
  ∀ {exit : Option Nat} {pre post : List Instr} {p : Nat}, whole = pre ++ (s.code V exit ++ post) →
    len pre = p → 2 ≤ post.length → Place whole (p + s.size + exit.getD 0) (depth pre) →
    AllLand whole pre (s.code V exit)

/-- A condition with its branch. -/
theorem allLand_cond {V : List Name} {e : Expr} {d p : Nat} {pre rest : List Instr}
    (h : whole = pre ++ ((e.code V ++ branchCode d) ++ rest)) (hp : len pre = p) (hd : d < 2 ^ 31)
    (hplace : Place whole (p + (e.size + (9 + d))) (depth pre)) :
    AllLand whole pre (e.code V ++ branchCode d) ∧
      len (pre ++ (e.code V ++ branchCode d)) = p + (e.size + 9) ∧
      depth (pre ++ (e.code V ++ branchCode d)) = depth pre := by
  rw [List.append_assoc] at h
  refine ⟨.append (allLand_expr h (by simp [branchCode])) (allLand_branch hd (hplace.cast ?_ ?_)),
    ?_, ?_⟩
  · rw [len_append, Expr.len_code, hp]
    omega
  · rw [depth_append, depth_expr, add_zero]
  · rw [len_append, len_append, Expr.len_code, len_branchCode, hp]
  · rw [depth_append, depth_append, depth_expr, depth_branch, add_zero, add_zero]

/-- The body of a loop with the jump back to its beginning. -/
theorem allLand_body {V : List Name} {s : Stmt} {pre post : List Instr} {p top d : Nat}
    (ih : StmtLands whole V s)
    (h : whole = pre ++ ((s.code V (some 5) ++ [.jmp (rel (-(d : Nat)))]) ++ post))
    (hp : len pre = p) (hpost : 2 ≤ post.length) (hd : d < 2 ^ 31) (htop : top + d = p + (s.size + 5))
    (hplace : Place whole top (depth pre)) :
    AllLand whole pre (s.code V (some 5) ++ [.jmp (rel (-(d : Nat)))]) := by
  have hend : Place whole (p + s.size + 5) (depth pre) := by
    refine (@Place.of_append whole (pre ++ (s.code V (some 5) ++ [.jmp (rel (-(d : Nat)))])) post
      (by rw [h]; simp only [List.append_assoc]) hpost).cast ?_ ?_
    · rw [len_append, len_append, Stmt.len_code, hp, ← Nat.add_assoc]
      rfl
    · rw [depth_append, depth_append, depth_stmt]
      exact add_zero _
  rw [List.append_assoc (s.code V (some 5))] at h
  refine .append (ih h hp (by simp; omega) hend) (allLand_jmp (by omega) (by omega) ?_ ?_ (q := top))
  · rw [len_append, Stmt.len_code, hp]
    omega
  · rwa [depth_append, depth_stmt, add_zero]

theorem stmtLands (hfits : Fits whole) (V : List Name) (s : Stmt) : StmtLands whole V s := by
  have hsmall : len whole < 2 ^ 31 := by
    simp only [Fits, codeOff, elfBufSize] at hfits
    omega
  have hle {exit : Option Nat} {s : Stmt} {pre post : List Instr} {p : Nat}
      (h : whole = pre ++ (s.code V exit ++ post)) (hp : len pre = p) : p + s.size ≤ len whole := by
    rw [h, len_append, len_append, Stmt.len_code, hp]
    omega
  induction s with
  | skip => exact fun _ _ _ _ => trivial
  | seq s t ihs iht =>
      intro exit pre post p h hp hpost hexit
      rw [Stmt.code, List.append_assoc] at h
      have hlong : 2 ≤ (t.code V exit ++ post).length := by
        rw [List.length_append]
        omega
      have hp' : len (pre ++ s.code V (exit.map (t.size + ·))) = p + s.size := by
        rw [len_append, Stmt.len_code, hp]
      have hdepth : depth (pre ++ s.code V (exit.map (t.size + ·))) = depth pre := by
        rw [depth_append, depth_stmt, add_zero]
      have hexit : Place whole (p + s.size + t.size + exit.getD 0) (depth pre) :=
        hexit.cast (by rw [Stmt.size]; omega) rfl
      refine .append (ihs h hp hlong (place_of_exit hexit (place_behind h hp hlong))) ?_
      rw [← List.append_assoc] at h
      exact iht h hp' hpost (hexit.cast rfl hdepth.symm)
  | assign x e =>
      intro exit pre post p h _ hpost _
      rw [Stmt.code, List.append_assoc] at h
      exact .append (allLand_expr h (by simp; omega)) (.of_no_jump (by simp [jumpDisp]))
  | print e newline =>
      intro exit pre post p h _ _ _
      rw [Stmt.code, List.append_assoc] at h
      refine .append (allLand_expr h (by simp [printCode])) (.of_no_jump ?_)
      cases newline <;> simp [printCode, jumpDisp]
  | ifThen e s ih =>
      intro exit pre post p h hp hpost hexit
      have hsize := hle h hp
      have hend := place_behind h hp hpost
      rw [Stmt.size] at hsize hend hexit
      have hcode : (Stmt.ifThen e s).code V exit =
          (e.code V ++ branchCode (s.size : Nat)) ++ s.code V exit := by
        rw [Stmt.code, List.append_assoc]
      rw [hcode, List.append_assoc] at h
      obtain ⟨hcond, hp', hdepth⟩ := allLand_cond h hp (by omega) hend
      rw [hcode]
      rw [← List.append_assoc] at h
      exact .append hcond (ih h hp' hpost (hexit.cast (by omega) hdepth.symm))
  | ifElse e s t ihs iht =>
      intro exit pre post p h hp hpost hexit
      have hsize := hle h hp
      have hend := place_behind h hp hpost
      rw [Stmt.size] at hsize hend hexit
      have hcode : (Stmt.ifElse e s t).code V exit =
          (e.code V ++ branchCode (s.size + 5 : Nat)) ++ ((s.code V (exit.map (5 + t.size + ·)) ++
            [.jmp (rel t.size)]) ++ t.code V exit) := by
        simp only [Stmt.code, List.append_assoc, Nat.cast_add, Nat.cast_ofNat]
      have hjmp : len [Instr.jmp (rel t.size)] = 5 := rfl
      -- The second block begins behind the jump at the end of the first one.
      have hsecond : Place whole (p + (e.size + (9 + (s.size + 5)))) (depth pre) := by
        refine (@Place.of_append whole (pre ++ ((e.code V ++ branchCode (s.size + 5 : Nat)) ++
          (s.code V (exit.map (5 + t.size + ·)) ++ [.jmp (rel t.size)]))) (t.code V exit ++ post)
          (by rw [h, hcode]; simp only [List.append_assoc]) (by simp; omega)).cast ?_ ?_
        · simp only [len_append, Expr.len_code, Stmt.len_code, len_branchCode, hjmp, hp]
          omega
        · simp only [depth_append, depth_expr, depth_stmt, depth_branch, zero_add]
          exact add_zero _
      rw [hcode, List.append_assoc] at h
      obtain ⟨hcond, hp₁, hdepth₁⟩ := allLand_cond h hp (by omega) hsecond
      rw [hcode]
      rw [← List.append_assoc, List.append_assoc _ _ post, List.append_assoc _ _ (t.code V exit ++ post)]
        at h
      have hexit₁ : Place whole (p + (e.size + 9) + s.size + (5 + t.size) + exit.getD 0)
          (depth (pre ++ (e.code V ++ branchCode (s.size + 5 : Nat)))) :=
        hexit.cast (by omega) hdepth₁.symm
      have hlong : 2 ≤ ([Instr.jmp (rel t.size)] ++ (t.code V exit ++ post)).length := by
        simp
        omega
      refine .append hcond (.append (.append ?_ (allLand_jmp (by omega) (by omega) ?_ (hend.cast rfl ?_))) ?_)
      · exact ihs h hp₁ hlong (place_of_exit hexit₁ (place_behind h hp₁ hlong))
      · rw [len_append, hp₁, Stmt.len_code]
        omega
      · rw [depth_append, hdepth₁, depth_stmt, add_zero]
      · refine @iht exit _ post (p + (e.size + 9) + s.size + 5) ?_ ?_ hpost (hexit.cast (by omega) ?_)
        · rw [h]
          simp only [List.append_assoc]
        · rw [len_append, hp₁, len_append, Stmt.len_code, hjmp]
          omega
        · rw [depth_append, hdepth₁, depth_append, depth_stmt]
          exact (add_zero _).symm
  | «while» e s ih =>
      intro exit pre post p h hp hpost hexit
      have hsize := hle h hp
      have hend := place_behind h hp hpost
      rw [Stmt.size] at hsize hend
      have htop : Place whole p (depth pre) :=
        (Place.of_append h (by simp [Stmt.code, branchCode]; omega)).cast hp rfl
      have hcode : (Stmt.while e s).code V exit =
          (e.code V ++ branchCode (s.size + 5 : Nat)) ++ (s.code V (some 5) ++
            [.jmp (rel (-(e.size + (9 + (s.size + 5)) : Nat)))]) := by
        simp only [Stmt.code, List.append_assoc, Nat.cast_add, Nat.cast_ofNat]
      rw [hcode, List.append_assoc] at h
      obtain ⟨hcond, hp', hdepth⟩ := allLand_cond h hp (by omega) hend
      rw [hcode]
      rw [← List.append_assoc] at h
      refine .append hcond (allLand_body ih h hp' hpost (by omega) ?_ (htop.cast rfl hdepth.symm))
      omega
  | loop s ih =>
      intro exit pre post p h hp hpost hexit
      have hsize := hle h hp
      have htop : Place whole p (depth pre) :=
        (Place.of_append h (by simp [Stmt.code]; omega)).cast hp rfl
      rw [Stmt.size] at hsize
      exact allLand_body ih h hp hpost (by omega) rfl htop
  | «break» =>
      intro exit pre post p h hp hpost hexit
      have hin : p + 5 + exit.getD 0 ≤ len whole := by
        obtain ⟨pre', i, j, post', hwhole, hlen, _⟩ := hexit
        rw [hwhole, len_append, hlen, Stmt.size]
        omega
      refine allLand_jmp (by omega) (by omega) ?_ hexit
      rw [hp]
      rfl

/-- Byte `q` of some code at byte `p` is where an instruction begins or the code ends, and
the stack is as deep there as in front of the code. -/
def Level (code : List Instr) (p q : Nat) : Prop :=
  ∃ mid rest, code = mid ++ rest ∧ q = p + len mid ∧ depth mid = 0

theorem Level.part {code : List Instr} {p p' q : Nat} (h : Level code p' q)
    (pre post : List Instr) (hp : p' = p + len pre) (hpre : depth pre = 0) : Level (pre ++ (code ++ post)) p q := by
  obtain ⟨mid, rest, rfl, hq, hmid⟩ := h
  refine ⟨pre ++ mid, rest ++ post, by simp only [List.append_assoc], ?_, ?_⟩
  · rw [len_append, hq, hp, Nat.add_assoc]
  · rw [depth_append, hpre, hmid, add_zero]

theorem level_ends (V : List Name) {s : Stmt} (exit : Option Nat) {p q : Nat}
    (hq : q = p ∨ q = p + s.size) : Level (s.code V exit) p q := by
  rcases hq with rfl | rfl
  · exact ⟨[], _, rfl, rfl, rfl⟩
  · exact ⟨_, [], (List.append_nil _).symm, by rw [Stmt.len_code], depth_stmt ..⟩

/-- Where a statement begins or ends, the stack is as deep as in front of all of them. -/
theorem level_mark (V : List Name) {s : Stmt} (exit : Option Nat) {p q : Nat}
    (hq : q ∈ s.marks p) : Level (s.code V exit) p q := by
  have hcond (e : Expr) (d : Int) : len (e.code V ++ branchCode d) = e.size + 9 ∧
      depth (e.code V ++ branchCode d) = 0 := by
    rw [len_append, depth_append, Expr.len_code, len_branchCode, depth_expr, depth_branch]
    exact ⟨rfl, rfl⟩
  induction s generalizing exit p with
  | skip | assign | print | «break» =>
      refine level_ends V exit ?_
      simpa [Stmt.marks] using hq
  | seq s t ihs iht =>
      rw [Stmt.marks, List.mem_cons, List.mem_cons, List.mem_append, ← or_assoc] at hq
      rcases hq with hq | hq | hq
      · exact level_ends V exit hq
      · exact (ihs (exit.map (t.size + ·)) hq).part [] _ rfl rfl
      · have hpart := (iht exit hq).part _ [] (by rw [Stmt.len_code])
          (depth_stmt V (exit.map (t.size + ·)) s)
        rwa [List.append_nil] at hpart
  | ifThen e s ih =>
      rw [Stmt.marks, List.mem_cons, List.mem_cons, ← or_assoc] at hq
      rcases hq with hq | hq
      · exact level_ends V exit hq
      · obtain ⟨hlen, hdepth⟩ := hcond e s.size
        have hpart := (ih exit hq).part _ [] (by rw [hlen, Nat.add_assoc]) hdepth
        rwa [List.append_nil, List.append_assoc] at hpart
  | ifElse e s t ihs iht =>
      rw [Stmt.marks, List.mem_cons, List.mem_cons, List.mem_append, ← or_assoc] at hq
      obtain ⟨hlen, hdepth⟩ := hcond e (s.size + 5)
      rcases hq with hq | hq | hq
      · exact level_ends V exit hq
      · have hpart := (ihs (exit.map (5 + t.size + ·)) hq).part _
          ([.jmp (rel t.size)] ++ t.code V exit) (by rw [hlen, Nat.add_assoc]) hdepth
        rw [List.append_assoc] at hpart
        exact hpart
      · let front := (e.code V ++ branchCode (s.size + 5)) ++
          (s.code V (exit.map (5 + t.size + ·)) ++ [.jmp (rel t.size)])
        have hfront : len front = e.size + 9 + (s.size + 5) := by
          rw [len_append, hlen, len_append, Stmt.len_code, show len [Instr.jmp (rel t.size)] = 5 from rfl]
        have hlevel : depth front = 0 := by
          rw [depth_append, hdepth, depth_append, depth_stmt]
          rfl
        have hpart := (iht exit hq).part front [] (show _ = p + _ by rw [hfront]; omega) hlevel
        simp only [front, List.append_nil, List.append_assoc] at hpart
        exact hpart
  | «while» e s ih =>
      rw [Stmt.marks, List.mem_cons, List.mem_cons, ← or_assoc] at hq
      rcases hq with hq | hq
      · exact level_ends V exit hq
      · obtain ⟨hlen, hdepth⟩ := hcond e (s.size + 5)
        have hpart := (ih (some 5) hq).part _
          [.jmp (rel (-(e.size + (9 + (s.size + 5)) : Nat)))] (by rw [hlen, Nat.add_assoc]) hdepth
        rw [List.append_assoc] at hpart
        exact hpart
  | loop s ih =>
      rw [Stmt.marks, List.mem_cons, List.mem_cons, ← or_assoc] at hq
      rcases hq with hq | hq
      · exact level_ends V exit hq
      · exact (ih (some 5) hq).part [] _ rfl rfl

/-- Every jump of the code goes to an instruction of the code. -/
def JumpsLand (code : List Instr) : Prop :=
  ∀ pre i post d, code = pre ++ i :: post → jumpDisp i = some d →
    ∃ pre' j post', code = pre' ++ j :: post' ∧ (len pre' : Int) = len pre + i.size + d.toInt

/-- A place of the code has one address. -/
theorem place_inj {p q : Nat} (hp : p ≤ 4096) (hq : q ≤ 4096)
    (h : BitVec.ofNat 64 (codeBase + p) = BitVec.ofNat 64 (codeBase + q)) : p = q := by
  have hnat := congrArg BitVec.toNat h
  rw [toNat_ofNat, toNat_ofNat] at hnat
  · omega
  all_goals
    simp only [codeBase, loadVaddr, codeOff]
    omega

/-! ## Programs -/

/-- Code behind the instructions that set up the frame, and how it behaves. -/
structure Safe (body : List Instr) (V : List Name) : Prop where
  fits : Fits (prologueCode ++ body)
  vars : V.length ≤ maxLocals
  plain : ∀ i ∈ body, Plain V i
  lands : ∀ pre i post, body = pre ++ i :: post → Lands body pre i
  ends : ∃ front, body = front ++ exitCode

/-- The code of a program behind the first instructions. -/
def bodyCode (V : List Name) (p : Stmt) : List Instr := p.code V none ++ exitCode

theorem safe_program {V : List Name} {p : Stmt} (hfits : Fits (programCode V p))
    (hV : V.length ≤ maxLocals) : Safe (bodyCode V p) V where
  fits := hfits
  vars := hV
  plain := List.forall_mem_append.mpr ⟨plain_stmt V none p, by simp [exitCode, Plain]⟩
  lands pre i post h := by
    have hbody : Fits (bodyCode V p) := by
      rw [Fits, programCode, len_append] at hfits
      rw [Fits, bodyCode]
      omega
    have hall : AllLand (bodyCode V p) [] (bodyCode V p) := by
      refine .append (stmtLands hbody V p rfl rfl (by decide) ?_)
        (.of_no_jump (by simp [exitCode, jumpDisp]))
      exact @place_behind _ _ _ _ [] exitCode 0 rfl rfl (by decide)
    exact hall.get h
  ends := ⟨p.code V none, rfl⟩

/-- The last instruction is a system call. -/
theorem Safe.last {body pre : List Instr} {V : List Name} {i : Instr} (h : Safe body V)
    (hbody : body = pre ++ [i]) : i = .syscall := by
  obtain ⟨front, hfront⟩ := h.ends
  have hsplit : (front ++ [.xorEdi, .movEax (rel 6)]) ++ [.syscall] = pre ++ [i] := by
    rw [← hbody, hfront, exitCode, List.append_assoc]
    rfl
  have hone := (List.append_inj' hsplit rfl).2
  cases hone
  rfl

/-- The last but one loads the number of the call. -/
theorem Safe.last_but_one {body pre : List Instr} {V : List Name} {i j : Instr} (h : Safe body V)
    (hbody : body = pre ++ [i, j]) : i = .movEax (rel 6) := by
  obtain ⟨front, hfront⟩ := h.ends
  have hsplit : (front ++ [.xorEdi]) ++ [.movEax (rel 6), .syscall] = pre ++ [i, j] := by
    rw [← hbody, hfront, exitCode, List.append_assoc]
    rfl
  have htwo := (List.append_inj' hsplit rfl).2
  cases htwo
  rfl

/-! ## Reachable states -/

namespace Machine

/-- The machine is about to execute the instruction behind `pre`, and the stack is as
deep as belongs to the place. -/
structure Balanced (body : List Instr) (V : List Name) (pre : List Instr) (m : Machine) : Prop where
  inside : ∃ i post, body = pre ++ i :: post ∧ (post = [] → m.cpu.rax = 6)
  at_place : m.At (prologueCode ++ body) (len prologueCode + len pre)
  rsp : ∃ R : Nat, m.cpu.rsp = BitVec.ofNat 64 R ∧ (R : Int) = restPtr - 8 * depth pre
  rbp : m.cpu.rbp = BitVec.ofNat 64 framePtr

section

variable {k : Kernel} {body pre post : List Instr} {V : List Name} {i : Instr} {m m' : Machine}

/-- The state behind an instruction that goes on with the next one. -/
theorem Balanced.of_next (hsafe : Safe body V) (hbody : body = pre ++ i :: post)
    (hne : i ≠ .syscall ∨ post ≠ []) (hrax : i = .movEax (rel 6) → m'.cpu.rax = 6)
    (hat : m'.At (prologueCode ++ body) (len prologueCode + len pre + i.size)) {R : Nat}
    (hrsp : m'.cpu.rsp = BitVec.ofNat 64 R) (hR : (R : Int) = restPtr - 8 * (depth pre + growth i))
    (hrbp : m'.cpu.rbp = BitVec.ofNat 64 framePtr) : Balanced body V (pre ++ [i]) m' := by
  have hsplit : body = (pre ++ [i]) ++ post := by rw [hbody, List.append_assoc]; rfl
  refine ⟨?_, ?_, ⟨R, hrsp, ?_⟩, hrbp⟩
  · cases post with
    | nil => exact (hne.elim (fun h => h (hsafe.last hbody)) fun h => h rfl).elim
    | cons j post =>
        refine ⟨j, post, hsplit, fun hnil => hrax ?_⟩
        subst hnil
        exact hsafe.last_but_one hbody
  · rw [len_append]
    exact hat.cast (by simp; omega)
  · rw [hR, depth_append]
    simp [depth]

/-- A step inside the processor. -/
theorem step_inside (hfetch : m.cpu.fetch = some i) (hne : i ≠ .syscall)
    (hstep : m.step k = .next m') :
    ∃ cpu, (m.cpu.past i).execute i = some cpu ∧ m' = { m with cpu := cpu } := by
  rw [step, hfetch] at hstep
  cases hexec : (m.cpu.past i).execute i with
  | none =>
      cases i with
      | syscall => exact absurd rfl hne
      | _ => simp only [hexec] at hstep; cases hstep
  | some cpu =>
      refine ⟨cpu, rfl, ?_⟩
      cases i with
      | syscall => exact absurd rfl hne
      | _ => simp only [hexec] at hstep; cases hstep; rfl

/-- A system call that comes back keeps the balance. -/
theorem Balanced.step_syscall (hsafe : Safe body V) (h : Balanced body V pre m)
    (hbody : body = pre ++ .syscall :: post) (hlast : post = [] → m.cpu.rax = 6)
    (hover : m.cpu.past .syscall = m.behind (len prologueCode + len pre + Instr.syscall.size))
    (hstep : { m with cpu := m.cpu.past .syscall }.syscall k = .next m') :
    Balanced body V (pre ++ [.syscall]) m' := by
  rw [hover, syscall] at hstep
  obtain ⟨_, hat, ⟨R, hrsp, hR⟩, hrbp⟩ := h
  split at hstep
  · rename_i hrax
    cases hstep
    have htop : stackBase ≤ stackTop := by decide
    refine .of_next hsafe hbody (Or.inr fun hnil => ?_) (fun h => by cases h) ⟨?_, k.rip _⟩
      ((k.rsp _).trans hrsp) (by rw [hR, show growth .syscall = 0 from rfl, add_zero]) ((k.rbp _).trans hrbp)
    · have hsix : (6 : Word) = 32 := (hlast hnil).symm.trans hrax
      exact absurd hsix (by decide)
    · exact loaded_of_mem hsafe.fits hat fun a hlow hlt => k.mem _ a hlow (by omega)
  · split at hstep
    · cases hstep
    · cases hstep

/-- A jump keeps the balance. -/
theorem Balanced.of_jump {d : BitVec 32} (hsafe : Safe body V) (h : Balanced body V pre m)
    (hbody : body = pre ++ i :: post) (hjump : jumpDisp i = some d) :
    ∃ pre', Balanced body V pre'
      { m with cpu := (m.behind (len prologueCode + len pre + i.size)).jump d } := by
  obtain ⟨_, hat, ⟨R, hrsp, hR⟩, hrbp⟩ := h
  obtain ⟨q, hq, pre', i', j, post', hbody', rfl, hdepth⟩ := hsafe.lands pre i post hbody d hjump
  refine ⟨pre', ⟨i', j :: post', hbody', fun hnil => by cases hnil⟩, ⟨hat.code, ?_⟩,
    ⟨R, hrsp, by rw [hdepth, hR]⟩, hrbp⟩
  have hfits := hsafe.fits
  rw [Fits, len_append] at hfits
  have hle : len pre' ≤ len body := by
    rw [hbody', len_append]
    omega
  have hle' : len pre + i.size ≤ len body := by
    rw [hbody, len_append, len_cons]
    omega
  have hd : BitVec.ofInt 32 d.toInt = d := BitVec.ofInt_toInt
  change BitVec.ofNat 64 _ + d.signExtend 64 = _
  rw [← hd]
  simp only [codeOff, elfBufSize] at hfits
  exact ofNat_add_signExtend (by omega) (by omega) (by omega)

/-- Every step keeps the balance. -/
theorem Balanced.step (hsafe : Safe body V) (h : Balanced body V pre m)
    (hstep : m.step k = .next m') : ∃ pre', Balanced body V pre' m' := by
  have hbalanced := h
  obtain ⟨⟨i, post, hbody, hlast⟩, hat, ⟨R, hrsp, hR⟩, hrbp⟩ := h
  have hhas : Has (prologueCode ++ body) (len prologueCode + len pre) (i :: post) := by
    refine ⟨prologueCode ++ pre, [], ?_, len_append ..⟩
    rw [hbody, List.append_nil, List.append_assoc]
  have hfetch := fetch_at hsafe.fits hat hhas
  have hplain : Plain V i := hsafe.plain i (by rw [hbody]; simp)
  have hover := past_eq hat.rip i
  -- The stack stays between the code and the frame.
  have hbounds : stackBase + 8 ≤ R ∧ R < stackTop + 40000 := by
    have hdepth := depth_bounds pre
    have hle : len pre ≤ len body := by
      rw [hbody, len_append]
      omega
    have hfits := hsafe.fits
    rw [Fits, len_append] at hfits
    simp only [codeOff, elfBufSize, restPtr, framePtr, stackTop, frameBytes, maxLocals] at hfits hR ⊢
    omega
  rcases eq_or_ne i .syscall with rfl | hsys
  · rw [Machine.step, hfetch] at hstep
    exact ⟨_, hbalanced.step_syscall hsafe hbody hlast hover hstep⟩
  obtain ⟨cpu, hexec, rfl⟩ := step_inside hfetch hsys hstep
  rw [hover] at hexec
  cases hquiet : Cpu.quiet i with
  | true =>
      obtain ⟨hrip', hrsp', hrbp', hmem'⟩ := Cpu.execute_quiet hquiet hexec
      have hgrowth : growth i = 0 := by
        cases i <;> first | rfl | cases hquiet
      refine ⟨_, .of_next hsafe hbody (Or.inl hsys) (fun hi => ?_) ⟨?_, hrip'⟩ (hrsp'.trans hrsp)
        (by rw [hR, hgrowth, add_zero]) (hrbp'.trans hrbp)⟩
      · subst hi
        cases hexec
        rfl
      · rw [show ({ m with cpu := cpu } : Machine).cpu.mem = m.cpu.mem from hmem']
        exact hat.code
  | false =>
      cases i with
      | pushRax =>
          have hhigh : R < 2 ^ 64 := by
            simp only [stackTop, stackBase, loadVaddr, elfBufSize] at hbounds
            omega
          have hpush := @push_eq (m.behind (len prologueCode + len pre + Instr.pushRax.size)) R
            m.cpu.rax hrsp (by omega) hhigh
          cases hexec.symm.trans (congrArg some hpush)
          refine ⟨_, .of_next hsafe hbody (Or.inl hsys) (fun h => by cases h) ⟨?_, rfl⟩ rfl ?_ hrbp⟩
          · exact loaded_of_mem hsafe.fits hat fun a _ hlt => writeLE_of_outside _ _ (by omega)
          · rw [show growth .pushRax = 1 from rfl]
            omega
      | popRax =>
          cases hexec
          refine ⟨_, .of_next hsafe hbody (Or.inl hsys) (fun h => by cases h) ⟨hat.code, rfl⟩
            (R := R + 8) ?_ ?_ hrbp⟩
          · change m.cpu.rsp + 8 = _
            rw [hrsp, BitVec.ofNat_add]
            rfl
          · rw [show growth .popRax = -1 from rfl]
            omega
      | storeRbp d =>
          obtain ⟨x, rfl⟩ := hplain
          cases hexec
          refine ⟨_, .of_next hsafe hbody (Or.inl hsys) (fun h => by cases h) ⟨?_, rfl⟩ hrsp
            (by rw [hR, show growth (.storeRbp (disp V x)) = 0 from rfl, add_zero]) hrbp⟩
          have hlow : stackBase ≤ slotAddr V x := by
            have hidx : V.idxOf x ≤ V.length := List.idxOf_le_length
            have hV := hsafe.vars
            simp only [slotAddr, framePtr, stackTop, maxLocals] at hV ⊢
            omega
          refine loaded_of_mem hsafe.fits hat fun a _ hlt => writeLE_of_outside _ _ (Or.inl ?_)
          change a < (m.cpu.rbp + (disp V x).signExtend 64).toNat
          rw [slot_address hsafe.vars hrbp x, slotAddr_toNat]
          omega
      | je d =>
          simp only [Cpu.execute] at hexec
          split at hexec
          · cases hexec
            exact hbalanced.of_jump hsafe hbody rfl
          · cases hexec
            exact ⟨_, .of_next hsafe hbody (Or.inl hsys) (fun h => by cases h) ⟨hat.code, rfl⟩ hrsp
              (by rw [hR, show growth (.je d) = 0 from rfl, add_zero]) hrbp⟩
      | jmp d =>
          cases hexec
          exact hbalanced.of_jump hsafe hbody rfl
      | pushRbp | movRbpRsp | subRsp => exact hplain.elim
      | syscall => exact absurd rfl hsys
      | _ => cases hquiet

end

end Machine

end PureOS.Barrel
