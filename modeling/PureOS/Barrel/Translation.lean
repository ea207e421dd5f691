import PureOS.Barrel.Emission

set_option autoImplicit false

/-!
# Barrel: the compiler translates the tree of its source text

A stretch of the compilation that ends without an error reads a syntax tree, the one
the parser reads there, and adds the code of that tree.  The proof goes along with
the recursion of the compiler, which the parser shares.
-/

namespace PureOS.Barrel

open PureOS.Foundation PureOS.Foundation.X86

namespace Comp

/-! ## Reading -/

theorem next_err {c c' : Comp} (h : c.next = .ok c') (herr : c'.err = 0) : c.err = 0 := by
  obtain ⟨c'', hnext, hfollows, _⟩ := c.next_follows
  rw [h] at hnext
  cases hnext
  rcases eq_or_ne c.err 0 with h₀ | hne
  · exact h₀
  · exact absurd (hfollows.err hne ▸ herr) hne

theorem eat_err {c c' : Comp} {t : Tk} (h : c.eat t = .ok c') (herr : c'.err = 0) :
    c.err = 0 := by
  obtain ⟨c'', heat, hfollows⟩ := c.eat_follows t
  rw [h] at heat
  cases heat
  rcases eq_or_ne c.err 0 with h₀ | hne
  · exact h₀
  · exact absurd (hfollows.err hne ▸ herr) hne

/-- The next token is what the parser reads. -/
theorem next_sound {c c' : Comp} (h : c.next = .ok c') (herr : c'.err = 0) (hready : c.Ready) :
    c.toScan.read = some c'.toScan ∧ Adds c c' (fun _ => []) 0 [] [] := by
  have herr₀ := next_err h herr
  obtain ⟨s, hnext, hreads, _⟩ := c.toScan.next_reads
  rw [next, hnext] at h
  cases h
  refine ⟨?_, .of_reads herr₀ hready hreads⟩
  rw [Scan.read, hnext]
  exact if_pos herr

theorem eat_sound {c c' : Comp} {t : Tk} (h : c.eat t = .ok c') (herr : c'.err = 0)
    (hready : c.Ready) :
    c.toScan.expect t = some c'.toScan ∧ Adds c c' (fun _ => []) 0 [] [] := by
  rcases eq_or_ne c.tok t with htok | htok
  · have hnext : c.next = .ok c' := by
      rw [eat, Scan.eat, if_pos htok] at h
      exact h
    rw [Scan.expect, if_pos htok]
    exact next_sound hnext herr hready
  · rw [eat, Scan.eat, if_neg htok] at h
    cases h
    exact absurd herr (Scan.fail_err_ne (by decide))

/-! ## Variables -/

theorem length_nameAt {src : List UInt8} {v : Nat × Nat} (h : v.1 + v.2 ≤ src.length) :
    (nameAt src v).length = v.2 := by
  rw [nameAt, List.length_drop, List.length_take, Nat.min_eq_left h, Nat.add_sub_cancel_left]

/-- The result of a search for a name in the slots from `i` on: the first slot that has
it, if one has. -/
def Finds (names : List Name) (x : Name) (i : Nat) : Option Nat → Prop
  | some slot => x ∈ names ∧ slot = i + names.idxOf x
  | none => x ∉ names

theorem Finds.cons {names : List Name} {x y : Name} {i : Nat} {r : Option Nat} (hne : y ≠ x)
    (h : Finds names x (i + 1) r) : Finds (y :: names) x i r := by
  cases r with
  | some slot =>
      obtain ⟨hmem, hslot⟩ := h
      refine ⟨List.mem_cons_of_mem _ hmem, ?_⟩
      rw [hslot, List.idxOf_cons_ne _ hne]
      omega
  | none => exact fun hmem => (List.mem_cons.mp hmem).elim (fun heq => hne heq.symm) h

theorem findSlot_sound {c : Comp} {off len i : Nat} {rest : List (Nat × Nat)} {r : Option Nat}
    (hname : off + len ≤ c.src.length) (hin : ∀ v ∈ rest, v.1 + v.2 ≤ c.src.length)
    (h : c.findSlot off len i rest = .ok r) :
    Finds (rest.map (nameAt c.src)) (nameAt c.src (off, len)) i r := by
  induction rest generalizing i with
  | nil =>
      rw [findSlot] at h
      cases h
      exact List.not_mem_nil
  | cons v rest ih =>
      obtain ⟨o, l⟩ := v
      have hv : o + l ≤ c.src.length := hin (o, l) List.mem_cons_self
      have hin' : ∀ v ∈ rest, v.1 + v.2 ≤ c.src.length := fun v hv =>
        hin v (List.mem_cons_of_mem _ hv)
      rw [findSlot] at h
      split at h
      · split at h
        · rename_i hl
          rw [Scan.slice_eq_ok (Nat.le_add_right o l) hv,
            Scan.slice_eq_ok (Nat.le_add_right off len) hname, bind_ok, bind_ok] at h
          split at h
          · rename_i heq
            cases h
            have hsame : nameAt c.src (o, l) = nameAt c.src (off, len) := heq
            rw [List.map_cons, hsame]
            exact ⟨List.mem_cons_self, by rw [List.idxOf_cons_self, Nat.add_zero]⟩
          · rename_i hne
            exact .cons hne (ih hin' h)
        · rename_i hl
          refine .cons (fun heq => hl ?_) (ih hin' h)
          have hlen := congrArg List.length heq
          rwa [length_nameAt hv, length_nameAt hname] at hlen
      · cases h

theorem varSlot_err {c c' : Comp} {off len slot : Nat} (h : c.varSlot off len = .ok (slot, c'))
    (herr : c'.err = 0) : c.err = 0 := by
  unfold varSlot at h
  obtain ⟨r, _, hrest⟩ := bind_eq_ok h
  cases r with
  | some i =>
      cases hrest
      exact herr
  | none =>
      dsimp only at hrest
      split at hrest
      · cases hrest
        exact absurd herr (fail_err_ne (by decide))
      · cases hrest
        exact herr

/-- The slot of a name is its place among the names known by then. -/
theorem varSlot_sound {c c' : Comp} {slot : Nat}
    (h : c.varSlot c.nameOff c.nameLen = .ok (slot, c')) (herr : c'.err = 0) (hready : c.Ready) :
    Adds c c' (fun _ => []) 0 [] [] ∧ c'.toScan = c.toScan ∧ c.toScan.name ∈ c'.names ∧
      ∀ V, c'.names <+: V → V.idxOf c.toScan.name = slot := by
  obtain ⟨slot', c'', hslot, hfollows⟩ := varSlot_follows hready.good
  rw [h] at hslot
  cases hslot
  have hgood := hfollows.good hready.good
  -- Later names come behind the ones that are known.
  have hstable (names : List Name) (hmem : c.toScan.name ∈ names) (V : List Name)
      (hV : names <+: V) : V.idxOf c.toScan.name = names.idxOf c.toScan.name := by
    obtain ⟨later, rfl⟩ := hV
    exact List.idxOf_append_of_mem hmem
  unfold varSlot at h
  obtain ⟨r, hfind, hrest⟩ := bind_eq_ok h
  have hsound : Finds (c.vars.map (nameAt c.src)) c.toScan.name 0 r :=
    findSlot_sound hready.good.name_inside hready.good.vars_inside hfind
  cases r with
  | some i =>
      cases hrest
      obtain ⟨hmem, hi⟩ := hsound
      refine ⟨.of_reads herr hready (Scan.Reads.refl _), rfl, hmem, fun V hV => ?_⟩
      rw [hstable _ hmem V hV, hi, Nat.zero_add]
  | none =>
      dsimp only at hrest
      split at hrest
      · cases hrest
        exact absurd herr (fail_err_ne (by decide))
      · cases hrest
        have hnames : c.vars.map (nameAt c.src) ++ [c.toScan.name] =
            (c.vars ++ [(c.nameOff, c.nameLen)]).map (nameAt c.src) := by
          rw [List.map_append]
          rfl
        refine ⟨⟨herr, ⟨hgood, hready.room⟩, rfl, ⟨[c.toScan.name], hnames⟩, rfl,
          fun _ _ => (List.append_nil _).symm, (List.append_nil _).symm, List.nil_subset _⟩, rfl,
          ?_, fun V hV => ?_⟩
        · rw [Comp.names, ← hnames]
          exact List.mem_append_right _ List.mem_cons_self
        rw [Comp.names, ← hnames] at hV
        rw [hstable _ (List.mem_append_right _ List.mem_cons_self) V hV,
          List.idxOf_append_of_notMem hsound, List.idxOf_cons_self, List.length_map, Nat.add_zero]

/-! ## Operators -/

/-- An emitter that adds the code of an operator. -/
def EmitsOp (emitter : Comp → Comp) (op : Op) : Prop :=
  ∀ c, (emitter c).err = 0 → c.err = 0 ∧ (c.Ready →
    Adds c (emitter c) (fun _ => op.code) (len op.code) [] [] ∧ (emitter c).toScan = c.toScan)

theorem emitsOp_of_eq {emitter : Comp → Comp} {op : Op}
    (h : ∀ c, emitter c = c.emitBytes (bytes op.code)) : EmitsOp emitter op := by
  intro c herr
  rw [h] at herr ⊢
  exact ⟨emitBytes_err herr, adds_emitBytes herr⟩

theorem emitsOp_cmp {t : Tk} {set2 : UInt8} (h : setcc t = some set2) :
    ∃ op, Parse.comparison t = some op ∧ EmitsOp (fun c => c.opCmpSet set2) op := by
  have hcond (cond : Cond) (op : Op) (hop : op.code = compareCode cond) :
      EmitsOp (fun c => c.opCmpSet cond.code) op :=
    emitsOp_of_eq fun c => by rw [hop, opCmpSet_eq]
  cases t with
  | eqEq => cases h; exact ⟨.eq, rfl, hcond .e .eq rfl⟩
  | ne => cases h; exact ⟨.ne, rfl, hcond .ne .ne rfl⟩
  | lt => cases h; exact ⟨.lt, rfl, hcond .b .lt rfl⟩
  | le => cases h; exact ⟨.le, rfl, hcond .be .le rfl⟩
  | gt => cases h; exact ⟨.gt, rfl, hcond .a .gt rfl⟩
  | ge => cases h; exact ⟨.ge, rfl, hcond .ae .ge rfl⟩
  | _ => cases h

/-- The code of a division before its two jumps are patched. -/
def divCode (skip done : Int) : List Instr :=
  [.testRcx, .je (rel skip), .xorEdx, .divRcx, .jmp (rel done), .xorEax]

/-- The jumps of a division are patched over the instructions they skip. -/
theorem opDiv_eq {c : Comp} (h : (c.emitBytes (bytes (divCode 0 0))).err = 0)
    (hroom : codeOff + c.clen ≤ elfBufSize) :
    c.opDiv = ((c.emitBytes (bytes (divCode 0 0))).patchTo (c.clen + 5) (c.clen + 19)).patchTo
      (c.clen + 15) (c.clen + 21) := by
  -- After the first bytes of the code it is as long as they are.
  have hclen (bs bs' : List UInt8) (heq : bs ++ bs' = bytes (divCode 0 0)) :
      (c.emitBytes bs).clen = c.clen + bs.length := by
    rw [← heq, ← emitBytes_append] at h
    rw [(emitBytes_ok (emitBytes_err h) hroom).2]
  unfold opDiv
  dsimp only
  simp only [emitU32, emitBytes_append]
  rw [hclen ([0x48, 0x85, 0xC9] ++ [0x0F, 0x84])
      (le32 0 ++ [0x31, 0xD2, 0x48, 0xF7, 0xF1, 0xE9] ++ le32 0 ++ [0x31, 0xC0]) rfl,
    hclen ([0x48, 0x85, 0xC9] ++ [0x0F, 0x84] ++ le32 0 ++ [0x31, 0xD2] ++ [0x48, 0xF7, 0xF1] ++
      [0xE9]) (le32 0 ++ [0x31, 0xC0]) rfl,
    hclen ([0x48, 0x85, 0xC9] ++ [0x0F, 0x84] ++ le32 0 ++ [0x31, 0xD2] ++ [0x48, 0xF7, 0xF1] ++
      [0xE9] ++ le32 0) [0x31, 0xC0] rfl,
    hclen ([0x48, 0x85, 0xC9] ++ [0x0F, 0x84] ++ le32 0 ++ [0x31, 0xD2] ++ [0x48, 0xF7, 0xF1] ++
      [0xE9] ++ le32 0 ++ [0x31, 0xC0]) [] rfl]
  rfl

theorem opDiv_err {c : Comp} (h : c.opDiv.err = 0) :
    (c.emitBytes (bytes (divCode 0 0))).err = 0 := by
  unfold opDiv at h
  dsimp only at h
  simp only [emitU32, emitBytes_append] at h
  exact h

theorem emitsOp_div : EmitsOp opDiv .div := by
  intro c herr
  have hall := opDiv_err herr
  refine ⟨emitBytes_err hall, fun hready => ?_⟩
  obtain ⟨hadds, hscan⟩ := adds_emitBytes hall hready
  have hskip : Adds c ((c.emitBytes (bytes (divCode 0 0))).patchTo (c.clen + 5) (c.clen + 19))
      (fun _ => divCode 10 0) (len (divCode 0 0)) [] [] := by
    refine hadds.patch fun _ => ⟨[0x48, 0x85, 0xC9, 0x0F, 0x84], le32 0, _, rfl, rfl, rfl, ?_⟩
    rw [show (((c.clen + 19 : Nat) : Int) - ((c.clen + 5 : Nat) + 4)) = 10 by omega]
    rfl
  rw [opDiv_eq hall hready.room]
  refine ⟨hskip.patch fun _ => ?_, hscan⟩
  refine ⟨[0x48, 0x85, 0xC9, 0x0F, 0x84] ++ le32 10 ++ [0x31, 0xD2, 0x48, 0xF7, 0xF1, 0xE9], le32 0,
    [0x31, 0xC0], rfl, rfl, rfl, ?_⟩
  rw [show (((c.clen + 21 : Nat) : Int) - ((c.clen + 15 : Nat) + 4)) = 2 by omega]
  rfl

theorem emitsOp_additive {t : Tk} {emitter : Comp → Comp} (h : additive t = some emitter) :
    ∃ op, Parse.sum t = some op ∧ EmitsOp emitter op := by
  cases t with
  | plus => cases h; exact ⟨.add, rfl, emitsOp_of_eq fun _ => rfl⟩
  | minus => cases h; exact ⟨.sub, rfl, emitsOp_of_eq fun _ => rfl⟩
  | _ => cases h

theorem emitsOp_multiplicative {t : Tk} {emitter : Comp → Comp}
    (h : multiplicative t = some emitter) :
    ∃ op, Parse.product t = some op ∧ EmitsOp emitter op := by
  cases t with
  | star => cases h; exact ⟨.mul, rfl, emitsOp_of_eq fun _ => rfl⟩
  | slash => cases h; exact ⟨.div, rfl, emitsOp_div⟩
  | _ => cases h

/-! ## Expressions -/

/-- `c'` comes after the code of an expression that began in `c`. -/
abbrev AddsExpr (c c' : Comp) (e : Expr) : Prop := Adds c c' (fun V => e.code V) e.size [] []

/-- What reads and adds an expression. -/
def Translates (compiler : Comp → Except Fault Comp) (parser : Scan → Option (Expr × Scan)) : Prop :=
  ∀ c c', compiler c = .ok c' → c'.err = 0 → c.err = 0 ∧ (c.Ready →
    ∃ e, parser c.toScan = some (e, c'.toScan) ∧ AddsExpr c c' e)

/-- What reads on behind an expression `a`, and makes it an operand. -/
def Extends (loop : Comp → Except Fault Comp) (parser : Expr → Scan → Option (Expr × Scan)) :
    Prop :=
  ∀ c c', loop c = .ok c' → c'.err = 0 → c.err = 0 ∧ ∀ c₀ a, AddsExpr c₀ c a →
    ∃ e, parser a c.toScan = some (e, c'.toScan) ∧ AddsExpr c₀ c' e

/-- One turn of a loop over operators. -/
theorem operator_sound {operand loop : Comp → Except Fault Comp} {emitter : Comp → Comp}
    {parseOperand : Scan → Option (Expr × Scan)} {parseLoop : Expr → Scan → Option (Expr × Scan)}
    {op : Op} (hoperand : Translates operand parseOperand) (hloop : Extends loop parseLoop)
    (hop : EmitsOp emitter op) :
    Extends
      (fun c => do
        let c ← c.next
        let c := c.pushRax
        let c ← operand c
        let c := emitter c.movRcxRax.popRax
        if c.err ≠ 0 then return c else loop c)
      (fun a s => do
        let s ← s.read
        let (b, s) ← parseOperand s
        parseLoop (.bin op a b) s) := by
  intro c c' h herr
  obtain ⟨c₁, hnext, h⟩ := bind_eq_ok h
  obtain ⟨c₂, hopd, h⟩ := bind_eq_ok h
  dsimp only at h
  split at h
  · rename_i hne
    cases h
    exact absurd herr hne
  · -- Without an error at the end there was none before.
    obtain ⟨herr₄, hrest⟩ := hloop _ _ h herr
    obtain ⟨herr₃, hemit⟩ := hop _ herr₄
    rw [popOperands_eq] at herr₃ hemit
    obtain ⟨herr₂, htrans⟩ := hoperand _ _ hopd (emitBytes_err herr₃)
    rw [pushRax_eq] at herr₂ htrans
    have herr₁ := emitBytes_err herr₂
    refine ⟨next_err hnext herr₁, fun c₀ a ha => ?_⟩
    obtain ⟨hread, hadds₁⟩ := next_sound hnext herr₁ ha.ready
    obtain ⟨hadds₂, hscan₂⟩ := adds_emitBytes herr₂ hadds₁.ready
    obtain ⟨b, hparse, hadds₃⟩ := htrans hadds₂.ready
    obtain ⟨hadds₄, hscan₄⟩ := adds_emitBytes herr₃ hadds₃.ready
    obtain ⟨hadds₅, hscan₅⟩ := hemit hadds₄.ready
    rw [← popOperands_eq] at hadds₄ hscan₄ hadds₅ hscan₅
    have hall : AddsExpr c₀ (emitter c₂.movRcxRax.popRax) (.bin op a b) :=
      (((((ha.trans hadds₁).trans hadds₂).trans hadds₃).trans hadds₄).trans hadds₅).congr
        (fun V _ => by simp [Expr.code]) (by simp [Expr.size, Nat.add_assoc, Instr.size, Instr.encode]) rfl rfl
    obtain ⟨e, hloop', he⟩ := hrest c₀ (.bin op a b) hall
    refine ⟨e, ?_, he⟩
    dsimp only
    rw [hscan₂] at hparse
    rw [hread, Option.bind_eq_bind, Option.bind_some, hparse, Option.bind_eq_bind, Option.bind_some,
      ← hloop', hscan₅, hscan₄]

/-- What the functions for expressions do with fuel `n`. -/
structure ExprSound (n : Nat) : Prop where
  expr : Translates (Comp.expr n) (Parse.expr n)
  cmp : Translates (Comp.cmp n) (Parse.cmp n)
  cmpLoop : Extends (Comp.cmpLoop n) (Parse.cmpLoop n)
  add : Translates (Comp.add n) (Parse.add n)
  addLoop : Extends (Comp.addLoop n) (Parse.addLoop n)
  mul : Translates (Comp.mul n) (Parse.mul n)
  mulLoop : Extends (Comp.mulLoop n) (Parse.mulLoop n)
  atom : Translates (Comp.atom n) (Parse.atom n)

/-- A level: one operand and the loop over the rest. -/
theorem level_sound {operand loop : Comp → Except Fault Comp}
    {parseOperand : Scan → Option (Expr × Scan)} {parseLoop : Expr → Scan → Option (Expr × Scan)}
    (hoperand : Translates operand parseOperand) (hloop : Extends loop parseLoop) :
    Translates (fun c => operand c >>= loop) (fun s => do
      let (a, s) ← parseOperand s
      parseLoop a s) := by
  intro c c' h herr
  obtain ⟨c₁, hopd, h⟩ := bind_eq_ok h
  obtain ⟨herr₁, hrest⟩ := hloop _ _ h herr
  obtain ⟨herr₀, htrans⟩ := hoperand _ _ hopd herr₁
  refine ⟨herr₀, fun hready => ?_⟩
  obtain ⟨a, hparse, ha⟩ := htrans hready
  obtain ⟨e, hloop', he⟩ := hrest c a ha
  refine ⟨e, ?_, he⟩
  dsimp only
  rw [hparse, Option.bind_eq_bind, Option.bind_some, hloop']

theorem extends_cmpLoop {n : Nat} (ih : ExprSound n) :
    Extends (Comp.cmpLoop (n + 1)) (Parse.cmpLoop (n + 1)) := by
  intro c c' h herr
  rw [Comp.cmpLoop] at h
  simp only [Parse.cmpLoop]
  cases hset : setcc c.tok with
  | some set2 =>
      obtain ⟨op, htok, hop⟩ := emitsOp_cmp hset
      rw [hset] at h
      simp only [htok]
      exact operator_sound ih.add ih.cmpLoop hop c c' h herr
  | none =>
      have htok : Parse.comparison c.tok = none := by
        revert hset
        cases c.tok <;> simp [setcc, Parse.comparison]
      rw [hset] at h
      cases h
      simp only [htok]
      exact ⟨herr, fun c₀ a ha => ⟨a, rfl, ha⟩⟩

theorem extends_addLoop {n : Nat} (ih : ExprSound n) :
    Extends (Comp.addLoop (n + 1)) (Parse.addLoop (n + 1)) := by
  intro c c' h herr
  rw [Comp.addLoop] at h
  simp only [Parse.addLoop]
  cases hadd : additive c.tok with
  | some emitter =>
      obtain ⟨op, htok, hop⟩ := emitsOp_additive hadd
      rw [hadd] at h
      simp only [htok]
      exact operator_sound ih.mul ih.addLoop hop c c' h herr
  | none =>
      have htok : Parse.sum c.tok = none := by
        revert hadd
        cases c.tok <;> simp [additive, Parse.sum]
      rw [hadd] at h
      cases h
      simp only [htok]
      exact ⟨herr, fun c₀ a ha => ⟨a, rfl, ha⟩⟩

theorem extends_mulLoop {n : Nat} (ih : ExprSound n) :
    Extends (Comp.mulLoop (n + 1)) (Parse.mulLoop (n + 1)) := by
  intro c c' h herr
  rw [Comp.mulLoop] at h
  simp only [Parse.mulLoop]
  cases hmul : multiplicative c.tok with
  | some emitter =>
      obtain ⟨op, htok, hop⟩ := emitsOp_multiplicative hmul
      rw [hmul] at h
      simp only [htok]
      exact operator_sound ih.atom ih.mulLoop hop c c' h herr
  | none =>
      have htok : Parse.product c.tok = none := by
        revert hmul
        cases c.tok <;> simp [multiplicative, Parse.product]
      rw [hmul] at h
      cases h
      simp only [htok]
      exact ⟨herr, fun c₀ a ha => ⟨a, rfl, ha⟩⟩

theorem translates_atom {n : Nat} (ih : ExprSound n) :
    Translates (Comp.atom (n + 1)) (Parse.atom (n + 1)) := by
  intro c c' h herr
  rw [Comp.atom] at h
  split at h
  · -- A number.
    rename_i htok
    obtain ⟨c₁, hnext, h⟩ := bind_eq_ok h
    cases h
    rw [movRaxImm_eq] at herr ⊢
    have herr₁ := emitBytes_err herr
    refine ⟨next_err hnext herr₁, fun hready => ?_⟩
    obtain ⟨hread, hadds₁⟩ := next_sound hnext herr₁ hready
    obtain ⟨hadds₂, hscan⟩ := adds_emitBytes herr hadds₁.ready
    refine ⟨.num c.num, ?_, (hadds₁.trans hadds₂).congr (fun V _ => rfl) rfl rfl rfl⟩
    simp only [Parse.atom, htok, hread, hscan]
    rfl
  · -- A variable.
    rename_i htok
    obtain ⟨⟨slot, c₁⟩, hslot, h⟩ := bind_eq_ok h
    obtain ⟨c₂, hnext, h⟩ := bind_eq_ok h
    cases h
    rw [loadLocal_eq] at herr ⊢
    have herr₂ := emitBytes_err herr
    have herr₁ := next_err hnext herr₂
    refine ⟨varSlot_err hslot herr₁, fun hready => ?_⟩
    obtain ⟨hadds₁, hscan₁, _, hidx⟩ := varSlot_sound hslot herr₁ hready
    obtain ⟨hread, hadds₂⟩ := next_sound hnext herr₂ hadds₁.ready
    obtain ⟨hadds₃, hscan₃⟩ := adds_emitBytes herr hadds₂.ready
    refine ⟨.var c.toScan.name, ?_, ((hadds₁.trans hadds₂).trans hadds₃).congr (fun V hV => ?_) rfl rfl rfl⟩
    · rw [hscan₁] at hread
      simp only [Parse.atom, htok, hread, Option.bind_eq_bind, Option.bind_some, hscan₃]
      rfl
    · rw [Expr.code, disp, hidx V ((hadds₂.names.trans hadds₃.names).trans hV)]
      rfl
  · -- A parenthesis.
    rename_i htok
    obtain ⟨c₁, hnext, h⟩ := bind_eq_ok h
    obtain ⟨c₂, hexpr, heat⟩ := bind_eq_ok h
    have herr₂ := eat_err heat herr
    obtain ⟨herr₁, htrans⟩ := ih.expr _ _ hexpr herr₂
    refine ⟨next_err hnext herr₁, fun hready => ?_⟩
    obtain ⟨hread, hadds₁⟩ := next_sound hnext herr₁ hready
    obtain ⟨e, hparse, hadds₂⟩ := htrans hadds₁.ready
    obtain ⟨hexpect, hadds₃⟩ := eat_sound heat herr hadds₂.ready
    refine ⟨e, ?_, ((hadds₁.trans hadds₂).trans hadds₃).congr (fun V _ => ?_) ?_ rfl rfl⟩
    · simp only [Parse.atom, htok, hread, Option.bind_eq_bind, Option.bind_some, hparse, hexpect]
      rfl
    · rw [List.nil_append, List.append_nil]
    · rw [Nat.zero_add, Nat.add_zero]
  · -- A sign.
    rename_i htok
    obtain ⟨c₁, hnext, h⟩ := bind_eq_ok h
    obtain ⟨c₂, hatom, h⟩ := bind_eq_ok h
    cases h
    rw [opNeg_eq] at herr ⊢
    have herr₂ := emitBytes_err herr
    obtain ⟨herr₁, htrans⟩ := ih.atom _ _ hatom herr₂
    refine ⟨next_err hnext herr₁, fun hready => ?_⟩
    obtain ⟨hread, hadds₁⟩ := next_sound hnext herr₁ hready
    obtain ⟨e, hparse, hadds₂⟩ := htrans hadds₁.ready
    obtain ⟨hadds₃, hscan⟩ := adds_emitBytes herr hadds₂.ready
    refine ⟨.neg e, ?_, ((hadds₁.trans hadds₂).trans hadds₃).congr (fun V _ => rfl) ?_ rfl rfl⟩
    · simp only [Parse.atom, htok, hread, Option.bind_eq_bind, Option.bind_some, hparse, hscan]
      rfl
    · rw [Nat.zero_add]
      rfl
  · cases h
    exact absurd herr (fail_err_ne (by decide))

theorem exprSound (n : Nat) : ExprSound n := by
  induction n with
  | zero =>
      refine ⟨?_, ?_, ?_, ?_, ?_, ?_, ?_, ?_⟩
      · exact fun c c' h => by rw [Comp.expr] at h; cases h
      · exact fun c c' h => by rw [Comp.cmp] at h; cases h
      · exact fun c c' h => by rw [Comp.cmpLoop] at h; cases h
      · exact fun c c' h => by rw [Comp.add] at h; cases h
      · exact fun c c' h => by rw [Comp.addLoop] at h; cases h
      · exact fun c c' h => by rw [Comp.mul] at h; cases h
      · exact fun c c' h => by rw [Comp.mulLoop] at h; cases h
      · exact fun c c' h => by rw [Comp.atom] at h; cases h
  | succ n ih =>
      refine ⟨?_, ?_, extends_cmpLoop ih, ?_, extends_addLoop ih, ?_, extends_mulLoop ih,
        translates_atom ih⟩
      · exact fun c c' h => by
          rw [Comp.expr] at h
          rw [Parse.expr]
          exact ih.cmp c c' h
      · exact fun c c' h => by
          rw [Comp.cmp] at h
          rw [Parse.cmp]
          exact level_sound ih.add ih.cmpLoop c c' h
      · exact fun c c' h => by
          rw [Comp.add] at h
          rw [Parse.add]
          exact level_sound ih.mul ih.addLoop c c' h
      · exact fun c c' h => by
          rw [Comp.mul] at h
          rw [Parse.mul]
          exact level_sound ih.atom ih.mulLoop c c' h

end Comp

end PureOS.Barrel
