import PureOS.Barrel.Translation

set_option autoImplicit false

/-!
# Barrel: statements, blocks and their patched jumps

The jumps of `if` and of the loops are patched when their targets are known; the
`break`s of a loop wait in a list, across all the blocks inside it, until the loop
ends.
-/

namespace PureOS.Barrel

open PureOS.Foundation PureOS.Foundation.X86

namespace Comp

/-! ## Patches -/

/-- Patch all the sites of a list to one target. -/
def patchAll (target : Nat) (sites : List Nat) (c : Comp) : Comp :=
  sites.foldl (fun c site => c.patchTo site target) c

theorem closeLoop_eq {c c' : Comp} {target i : Nat} {sites : List Nat}
    (h : c.closeLoop target i sites = .ok c') : c' = patchAll target sites c := by
  induction sites generalizing c i with
  | nil =>
      cases h
      rfl
  | cons site rest ih =>
      rw [closeLoop] at h
      split at h
      · exact ih h
      · cases h

/-- A patch changes nothing but the buffer. -/
theorem patchAll_eq (target : Nat) (sites : List Nat) (c : Comp) :
    ∃ elf, patchAll target sites c = { c with elf := elf } := by
  induction sites generalizing c with
  | nil => exact ⟨c.elf, rfl⟩
  | cons site rest ih => exact ih (c.patchTo site target)

/-- Patching the sites, to `d` bytes behind the end of some code, makes other code of it. -/
structure Patches (old new : List UInt8) (sites : List Nat) (d : Nat) : Prop where
  length : new.length = old.length
  code : ∀ {c : Comp} {a b : List UInt8} {target : Nat}, c.code = a ++ (old ++ b) →
    codeOff + c.clen ≤ elfBufSize → target = a.length + (old.length + d) →
    (patchAll target (sites.map (a.length + ·)) c).code = a ++ (new ++ b)

theorem Patches.refl (bs : List UInt8) (d : Nat) : Patches bs bs [] d := ⟨rfl, fun h _ _ => h⟩

theorem Patches.append {old old' new new' : List UInt8} {sites sites' : List Nat} {e d : Nat}
    (h : Patches old new sites e) (h' : Patches old' new' sites' d) (he : e = old'.length + d) :
    Patches (old ++ old') (new ++ new') (sites ++ sites'.map (old.length + ·)) d where
  length := by rw [List.length_append, List.length_append, h.length, h'.length]
  code := by
    intro c a b target hcode hroom htarget
    subst he
    rw [List.length_append] at htarget
    have hfirst := @h.code c a (old' ++ b) target (by rw [hcode, List.append_assoc]) hroom
      (by omega)
    obtain ⟨elf, heq⟩ := patchAll_eq target (sites.map (a.length + ·)) c
    have hlen : (a ++ new).length = a.length + old.length := by
      rw [List.length_append, h.length]
    have hsecond := @h'.code (patchAll target (sites.map (a.length + ·)) c) (a ++ new) b target
      (by rw [hfirst, List.append_assoc]) (by rw [heq]; exact hroom) (by rw [hlen]; omega)
    have hsites : (sites'.map (old.length + ·)).map (a.length + ·) =
        sites'.map ((a ++ new).length + ·) := by
      rw [List.map_map, hlen]
      exact List.map_congr_left fun x _ => (Nat.add_assoc _ _ _).symm
    rw [List.map_append, hsites, patchAll, List.foldl_append, List.append_assoc new,
      ← List.append_assoc a]
    exact hsecond

theorem Patches.congr {old new old' new' : List UInt8} {sites sites' : List Nat} {d : Nat}
    (h : Patches old new sites d) (hold : old = old') (hnew : new = new')
    (hsites : sites = sites') : Patches old' new' sites' d := by
  subst hold hnew hsites
  exact h

theorem length_bytes_code (V : List Name) (exit : Option Nat) (s : Stmt) :
    (bytes (s.code V exit)).length = s.size := s.len_code V exit

theorem length_bytes_expr (V : List Name) (e : Expr) : (bytes (e.code V)).length = e.size :=
  e.len_code V

theorem length_bytes_branch (d : Int) : (bytes (branchCode d)).length = 9 := len_branchCode d

/-- Patching the `break`s of a statement gives its code inside a loop. -/
theorem patches_stmt (V : List Name) (s : Stmt) (d : Nat) :
    Patches (bytes (s.code V none)) (bytes (s.code V (some d))) s.sites d := by
  induction s generalizing d with
  | skip | assign | print | «while» | loop => exact .refl _ d
  | «break» =>
      refine ⟨rfl, fun {c a b target} hcode hroom htarget => ?_⟩
      have hsplit : c.code = (a ++ [0xE9]) ++ (le32 0 ++ b) := by
        rw [hcode, List.append_assoc]
        rfl
      have htarget : target = a.length + (5 + d) := htarget
      change (c.patchTo (a.length + 1) target).code = _
      rw [code_patchTo hsplit rfl hroom (by rw [List.length_append]; rfl), htarget,
        List.append_assoc, show (((a.length + (5 + d) : Nat) : Int) - ((a.length + 1 : Nat) + 4)) = d
          by omega]
      rfl
  | seq s t ihs iht =>
      have hcode := (ihs (t.size + d)).append (iht d) (by rw [length_bytes_code])
      refine hcode.congr (bytes_append ..).symm (bytes_append ..).symm ?_
      rw [Stmt.sites, length_bytes_code]
  | ifThen e s ih =>
      have hcode := (Patches.refl (bytes (e.code V)) _).append
        ((Patches.refl (bytes (branchCode s.size)) _).append (ih d) rfl) rfl
      refine hcode.congr ?_ ?_ ?_
      · rw [Stmt.code, bytes_append, bytes_append]
      · rw [Stmt.code, bytes_append, bytes_append]
      · simp only [List.nil_append, List.map_map, Stmt.sites, length_bytes_expr,
          length_bytes_branch]
        exact List.map_congr_left fun x _ => (Nat.add_assoc _ _ _).symm
  | ifElse e s t ihs iht =>
      have hlast := (Patches.refl (bytes [.jmp (rel t.size)]) _).append (iht d) rfl
      have hbranches := (ihs (5 + t.size + d)).append hlast (by
        rw [List.length_append, length_bytes_code]
        rfl)
      have hcode := (Patches.refl (bytes (e.code V)) _).append
        ((Patches.refl (bytes (branchCode (s.size + 5))) _).append hbranches rfl) rfl
      refine hcode.congr ?_ ?_ ?_
      · simp only [Stmt.code, bytes_append, Option.map_none]
      · simp only [Stmt.code, bytes_append, Option.map_some]
      · simp only [List.nil_append, List.map_append, List.map_map, Stmt.sites, length_bytes_expr,
          length_bytes_branch, length_bytes_code]
        congr 1
        · exact List.map_congr_left fun x _ => (Nat.add_assoc _ _ _).symm
        · refine List.map_congr_left fun x _ => ?_
          have hjmp : (bytes [.jmp (rel t.size)]).length = 5 := rfl
          simp only [Function.comp, hjmp]
          omega

/-! ## Jumps -/

/-- A branch that is patched later keeps its distance behind the first five bytes. -/
theorem emitBranch_sound {c : Comp} (h : c.emitBranch.2.err = 0) :
    c.err = 0 ∧ (c.Ready → c.emitBranch.1 = c.clen + 5 ∧
      Adds c c.emitBranch.2 (fun _ => branchCode 0) 9 [] [] ∧ c.emitBranch.2.toScan = c.toScan) := by
  have hall := h
  rw [emitBranch_eq] at hall
  refine ⟨emitBytes_err hall, fun hready => ⟨?_, ?_⟩⟩
  · have hsite : c.emitBranch.1 = (c.emitBytes [0x48, 0x85, 0xC0, 0x0F, 0x84]).clen := by
      rw [emitBranch]
      dsimp only
      rw [emitBytes_append]
      rfl
    have hcode : c.emitBytes (bytes (branchCode 0)) =
        (c.emitBytes [0x48, 0x85, 0xC0, 0x0F, 0x84]).emitBytes (le32 0) := by
      rw [emitBytes_append]
      rfl
    rw [hcode] at hall
    rw [hsite, (emitBytes_ok (emitBytes_err hall) hready.room).2]
    rfl
  · rw [emitBranch_eq]
    exact adds_emitBytes hall hready

/-- A jump that is patched later keeps its distance behind the first byte. -/
theorem emitJump_sound {c : Comp} (h : c.emitJump.2.err = 0) :
    c.err = 0 ∧ (c.Ready → c.emitJump.1 = c.clen + 1 ∧
      Adds c c.emitJump.2 (fun _ => [.jmp (rel 0)]) 5 [] [] ∧ c.emitJump.2.toScan = c.toScan) := by
  have hall := h
  rw [emitJump_eq] at hall
  refine ⟨emitBytes_err hall, fun hready => ⟨?_, ?_⟩⟩
  · have hcode : c.emitBytes (bytes [.jmp (rel 0)]) = (c.emitBytes [0xE9]).emitBytes (le32 0) := by
      rw [emitBytes_append]
      rfl
    rw [hcode] at hall
    change (c.emitBytes [0xE9]).clen = c.clen + 1
    rw [(emitBytes_ok (emitBytes_err hall) hready.room).2]
    rfl
  · rw [emitJump_eq]
    exact adds_emitBytes hall hready

/-- The patch of a branch. -/
theorem Adds.patchBranch {c c' : Comp} {A B : List Name → List Instr} {k size site target : Nat}
    {d : Int} {sites : List Nat} {targets : List Name}
    (h : Adds c c' (fun V => A V ++ (branchCode 0 ++ B V)) size sites targets)
    (hA : ∀ V, len (A V) = k) (hsite : site = c.clen + (k + 5)) (hd : (target : Int) = site + 4 + d) :
    Adds c (c'.patchTo site target) (fun V => A V ++ (branchCode d ++ B V)) size sites
      targets := by
  refine h.patch fun V => ⟨bytes (A V) ++ [0x48, 0x85, 0xC0, 0x0F, 0x84], le32 0, bytes (B V),
    ?_, rfl, ?_, ?_⟩
  · rw [bytes_append, bytes_append, List.append_assoc]
    rfl
  · rw [List.length_append, hsite, ← hA V]
    rfl
  · rw [bytes_append, bytes_append, List.append_assoc,
      show (target : Int) - (site + 4) = d by omega]
    rfl

/-- The patch of a jump. -/
theorem Adds.patchJump {c c' : Comp} {A B : List Name → List Instr} {k size site target : Nat}
    {d : Int} {sites : List Nat} {targets : List Name}
    (h : Adds c c' (fun V => A V ++ ([.jmp (rel 0)] ++ B V)) size sites targets)
    (hA : ∀ V, len (A V) = k) (hsite : site = c.clen + (k + 1)) (hd : (target : Int) = site + 4 + d) :
    Adds c (c'.patchTo site target) (fun V => A V ++ ([.jmp (rel d)] ++ B V)) size sites
      targets := by
  refine h.patch fun V => ⟨bytes (A V) ++ [0xE9], le32 0, bytes (B V), ?_, rfl, ?_, ?_⟩
  · rw [bytes_append, bytes_append, List.append_assoc]
    rfl
  · rw [List.length_append, hsite, ← hA V]
    rfl
  · rw [bytes_append, bytes_append, List.append_assoc,
      show (target : Int) - (site + 4) = d by omega]
    rfl

/-- At the end of a loop its `break`s get the place behind it. -/
theorem Adds.close {c c₁ c₂ : Comp} {A B : List Name → List Instr} {s : Stmt}
    {k d size target : Nat} {targets : List Name}
    (h : Adds c c₁ (fun V => A V ++ (s.code V none ++ B V)) size (s.sites.map (k + ·)) targets)
    (hA : ∀ V, len (A V) = k) (htarget : target = c.clen + (k + (s.size + d)))
    (hclose : c₁.closeBreaks c.breaks.length target = .ok c₂) :
    Adds c c₂ (fun V => A V ++ (s.code V (some d) ++ B V)) size [] targets ∧ c₂.toScan = c₁.toScan := by
  have hbase : c.breaks.length ≤ maxBreaks := by
    have hlen := h.ready.good.breaks_length
    rw [h.breaks, List.length_append] at hlen
    omega
  obtain ⟨c₃, hclose₃, hfollows⟩ := closeBreaks_follows h.ready.good c.breaks.length target hbase
  rw [hclose] at hclose₃
  cases hclose₃
  obtain ⟨c₄, hloop, heq⟩ := bind_eq_ok hclose
  cases heq
  rw [h.breaks, List.drop_left, List.map_map] at hloop
  have hpatched := closeLoop_eq hloop
  obtain ⟨elf, heq⟩ := patchAll_eq target
    (s.sites.map ((fun x => c.clen + x) ∘ fun x => k + x)) c₁
  have hc₄ : c₄ = { c₁ with elf := elf } := hpatched.trans heq
  have hclen := h.clen
  refine ⟨⟨h.err, ⟨hfollows.good h.ready.good, ?_⟩, ?_, ?_, ?_, fun V hV => ?_, ?_, ?_⟩, ?_⟩
  · rw [hc₄]
    exact h.ready.room
  · rw [hc₄]
    exact h.src
  · rw [hc₄]
    exact h.names
  · rw [hc₄]
    exact hclen
  · have hV : c₁.names <+: V := by
      rw [hc₄] at hV
      exact hV
    have hold := h.code V hV
    rw [bytes_append, bytes_append, ← List.append_assoc] at hold
    have hlen : (c.code ++ bytes (A V)).length = c.clen + k := by
      rw [List.length_append, length_code, ← hA V, len]
    have hsites : s.sites.map ((fun x => c.clen + x) ∘ fun x => k + x) =
        s.sites.map ((c.code ++ bytes (A V)).length + ·) := by
      rw [hlen]
      exact List.map_congr_left fun x _ => (Nat.add_assoc _ _ _).symm
    have hnew := (patches_stmt V s d).code hold h.ready.room
      (show target = _ by rw [hlen, length_bytes_code, htarget]; omega)
    rw [← hsites, ← hpatched] at hnew
    rw [bytes_append, bytes_append, ← List.append_assoc]
    exact hnew
  · rw [hc₄]
    change c₁.breaks.take c.breaks.length = _
    rw [h.breaks, List.take_left, List.map_nil, List.append_nil]
  · rw [hc₄]
    exact h.targets
  · rw [hc₄]

theorem closeBreaks_err {c c' : Comp} {bbase target : Nat}
    (h : c.closeBreaks bbase target = .ok c') : c'.err = c.err := by
  obtain ⟨c₁, hloop, heq⟩ := bind_eq_ok h
  cases heq
  obtain ⟨elf, heq⟩ := patchAll_eq target (c.breaks.drop bbase) c
  rw [closeLoop_eq hloop, heq]

/-! ## Statements -/

/-- `c'` comes after the code of a statement that began in `c`. -/
abbrev AddsStmt (c c' : Comp) (s : Stmt) : Prop :=
  Adds c c' (fun V => s.code V none) s.size s.sites s.targets

/-- What reads and adds a statement. -/
def TranslatesStmt (compiler : Comp → Except Fault Comp) (parser : Scan → Option (Stmt × Scan)) :
    Prop :=
  ∀ c c', compiler c = .ok c' → c'.err = 0 → c.err = 0 ∧ (c.Ready →
    ∃ s, parser c.toScan = some (s, c'.toScan) ∧ AddsStmt c c' s)

/-- What the functions for statements do with fuel `n`. -/
structure StmtSound (n : Nat) : Prop where
  stmt : TranslatesStmt (Comp.stmt n) (Parse.stmt n)
  blockLoop : TranslatesStmt (Comp.blockLoop n) (Parse.blockLoop n)
  block : TranslatesStmt (Comp.block n) (Parse.block n)

section

variable {n : Nat} {c c' : Comp}

/-- A `let` behind its first token. -/
theorem let_sound (h : (do
      let (slot, c) ← c.varSlot c.nameOff c.nameLen
      let c ← c.next
      let c ← c.eat .eq
      let c ← Comp.expr n c
      let c ← c.eat .semi
      return c.storeLocal slot) = .ok c') (herr : c'.err = 0) :
    c.err = 0 ∧ (c.Ready → ∃ e, (do
      let s ← c.toScan.read
      let s ← s.expect .eq
      let (e, s) ← Parse.expr n s
      let s ← s.expect .semi
      return (Stmt.assign c.toScan.name e, s)) = some (.assign c.toScan.name e, c'.toScan) ∧
        AddsStmt c c' (.assign c.toScan.name e)) := by
  obtain ⟨⟨slot, c₁⟩, hslot, h⟩ := bind_eq_ok h
  obtain ⟨c₂, hnext, h⟩ := bind_eq_ok h
  obtain ⟨c₃, heq, h⟩ := bind_eq_ok h
  obtain ⟨c₄, hexpr, h⟩ := bind_eq_ok h
  obtain ⟨c₅, hsemi, h⟩ := bind_eq_ok h
  cases h
  rw [storeLocal_eq] at herr ⊢
  have herr₅ := emitBytes_err herr
  have herr₄ := eat_err hsemi herr₅
  obtain ⟨herr₃, htrans⟩ := (exprSound n).expr _ _ hexpr herr₄
  have herr₂ := eat_err heq herr₃
  have herr₁ := next_err hnext herr₂
  refine ⟨varSlot_err hslot herr₁, fun hready => ?_⟩
  obtain ⟨hadds₁, hscan₁, hknown, hidx⟩ := varSlot_sound hslot herr₁ hready
  obtain ⟨hread, hadds₂⟩ := next_sound hnext herr₂ hadds₁.ready
  obtain ⟨hexpect, hadds₃⟩ := eat_sound heq herr₃ hadds₂.ready
  obtain ⟨e, hparse, hadds₄⟩ := htrans hadds₃.ready
  obtain ⟨hend, hadds₅⟩ := eat_sound hsemi herr₅ hadds₄.ready
  obtain ⟨hadds₆, hscan₆⟩ := adds_emitBytes herr hadds₅.ready
  have hrest := (((hadds₂.trans hadds₃).trans hadds₄).trans hadds₅).trans hadds₆
  have hadds : Adds c c₁ (fun _ => []) 0 [] [c.toScan.name] :=
    { hadds₁ with targets := List.cons_subset.mpr ⟨hknown, List.nil_subset _⟩ }
  refine ⟨e, ?_, (hadds.trans hrest).congr (fun V hV => ?_) ?_ rfl rfl⟩
  · rw [hscan₁] at hread
    simp only [hread, Option.bind_eq_bind, Option.bind_some, hexpect, hparse, hend, hscan₆]
    rfl
  · rw [Stmt.code, disp, hidx V (hrest.names.trans hV)]
    simp only [List.nil_append, List.append_nil]
  · simp only [Nat.zero_add, Nat.add_zero, Stmt.size]
    rfl

/-- A `print` behind its first token. -/
theorem print_sound {newline : Bool} (h : (do
      let c ← Comp.expr n c
      let c ← c.eat .semi
      return c.emitPrint newline) = .ok c') (herr : c'.err = 0) :
    c.err = 0 ∧ (c.Ready → ∃ e, (do
      let (e, s) ← Parse.expr n c.toScan
      let s ← s.expect .semi
      return (Stmt.print e newline, s)) = some (.print e newline, c'.toScan) ∧
        AddsStmt c c' (.print e newline)) := by
  obtain ⟨c₁, hexpr, h⟩ := bind_eq_ok h
  obtain ⟨c₂, hsemi, h⟩ := bind_eq_ok h
  cases h
  rw [emitPrint_eq] at herr ⊢
  have herr₂ := emitBytes_err herr
  obtain ⟨herr₀, htrans⟩ := (exprSound n).expr _ _ hexpr (eat_err hsemi herr₂)
  refine ⟨herr₀, fun hready => ?_⟩
  obtain ⟨e, hparse, hadds₁⟩ := htrans hready
  obtain ⟨hend, hadds₂⟩ := eat_sound hsemi herr₂ hadds₁.ready
  obtain ⟨hadds₃, hscan₃⟩ := adds_emitBytes herr hadds₂.ready
  refine ⟨e, ?_, ((hadds₁.trans hadds₂).trans hadds₃).congr (fun V _ => ?_) ?_ rfl rfl⟩
  · simp only [Option.bind_eq_bind, Option.bind_some, hparse, hend, hscan₃]
    rfl
  · rw [Stmt.code, List.append_nil]
  · rw [Stmt.size, Nat.add_zero]

/-- A `break` behind its first token. -/
theorem break_sound (h : (do
      let c ← c.eat .semi
      let (site, c) := c.emitJump
      if c.breaks.length < maxBreaks then return { c with breaks := c.breaks ++ [site] }
      else return c.fail eOverflow) = .ok c') (herr : c'.err = 0) :
    c.err = 0 ∧ (c.Ready →
      (do
        let s ← c.toScan.expect .semi
        return (Stmt.break, s)) = some (.break, c'.toScan) ∧ AddsStmt c c' .break) := by
  obtain ⟨c₁, hsemi, h⟩ := bind_eq_ok h
  have hpair : c₁.emitJump = (c₁.emitJump.1, c₁.emitJump.2) := rfl
  rw [hpair] at h
  dsimp only at h
  split at h
  · rename_i hlen
    cases h
    obtain ⟨herr₁, hjump⟩ := emitJump_sound (c := c₁) herr
    refine ⟨eat_err hsemi herr₁, fun hready => ?_⟩
    obtain ⟨hend, hadds₁⟩ := eat_sound hsemi herr₁ hready
    obtain ⟨hsite, hadds₂, hscan⟩ := hjump hadds₁.ready
    have hadds := hadds₁.trans hadds₂
    have hgood := hadds.ready.good
    refine ⟨?_, ⟨hadds.err, ⟨⟨hgood.vars_length, hgood.vars_inside, ?_, hgood.name_inside⟩,
      hadds.ready.room⟩, hadds.src, hadds.names, hadds.clen, hadds.code, ?_, List.nil_subset _⟩⟩
    · simp only [hend, Option.bind_eq_bind, Option.bind_some, hscan]
      rfl
    · rw [List.length_append]
      exact hlen
    · dsimp only
      rw [hadds.breaks, hsite, hadds₁.clen]
      simp [Stmt.sites]
  · cases h
    exact absurd herr (fail_err_ne (by decide))

/-- A condition, the branch that it decides, and the block behind it. -/
theorem branch_sound (ih : StmtSound n) {c₁ c₂ : Comp} (hexpr : Comp.expr n c = .ok c₁)
    (hblock : Comp.block n c₁.emitBranch.2 = .ok c₂) (herr : c₂.err = 0) :
    c.err = 0 ∧ (c.Ready → ∃ e s,
      Parse.expr n c.toScan = some (e, c₁.toScan) ∧
      Parse.block n c₁.toScan = some (s, c₂.toScan) ∧
      c₁.emitBranch.1 = c.clen + (e.size + 5) ∧
      c₁.emitBranch.2.breaks = c.breaks ∧
      Adds c c₂ (fun V => e.code V ++ (branchCode 0 ++ s.code V none)) (e.size + (9 + s.size))
        (s.sites.map (e.size + 9 + ·)) s.targets) := by
  obtain ⟨herr₁', htrans'⟩ := ih.block _ _ hblock herr
  obtain ⟨herr₁, hbranch⟩ := emitBranch_sound herr₁'
  obtain ⟨herr₀, htrans⟩ := (exprSound n).expr _ _ hexpr herr₁
  refine ⟨herr₀, fun hready => ?_⟩
  obtain ⟨e, hparse, hadds₁⟩ := htrans hready
  obtain ⟨hsite, hadds₂, hscan⟩ := hbranch hadds₁.ready
  obtain ⟨s, hparse', hadds₃⟩ := htrans' hadds₂.ready
  rw [hscan] at hparse'
  refine ⟨e, s, hparse, hparse', ?_, ?_, ((hadds₁.trans hadds₂).trans hadds₃).congr
    (fun V _ => List.append_assoc ..) (Nat.add_assoc ..) rfl rfl⟩
  · rw [hsite, hadds₁.clen, Nat.add_assoc]
  · rw [(hadds₁.trans hadds₂).breaks]
    exact List.append_nil _

/-- An `if` behind its first token. -/
theorem if_sound (ih : StmtSound n) (h : (do
      let c ← Comp.expr n c
      let (siteElse, c) := c.emitBranch
      let c ← Comp.block n c
      if c.tok = Tk.else then
        let c ← c.next
        let (siteEnd, c) := c.emitJump
        let c := c.patchTo siteElse c.clen
        let c ← Comp.block n c
        return c.patchTo siteEnd c.clen
      else return c.patchTo siteElse c.clen) = .ok c') (herr : c'.err = 0) :
    c.err = 0 ∧ (c.Ready → ∃ s, (do
      let (e, s) ← Parse.expr n c.toScan
      let (p, s) ← Parse.block n s
      if s.tok = .else then
        let s ← s.read
        let (q, s) ← Parse.block n s
        return (.ifElse e p q, s)
      else return (.ifThen e p, s)) = some (s, c'.toScan) ∧ AddsStmt c c' s) := by
  obtain ⟨c₁, hexpr, h⟩ := bind_eq_ok h
  have hpair : c₁.emitBranch = (c₁.emitBranch.1, c₁.emitBranch.2) := rfl
  rw [hpair] at h
  dsimp only at h
  obtain ⟨c₂, hblock, h⟩ := bind_eq_ok h
  split at h
  · rename_i htok
    obtain ⟨c₃, hnext, h⟩ := bind_eq_ok h
    have hpair' : c₃.emitJump = (c₃.emitJump.1, c₃.emitJump.2) := rfl
    rw [hpair'] at h
    dsimp only at h
    obtain ⟨c₅, hblock', h⟩ := bind_eq_ok h
    cases h
    obtain ⟨herr₄, htrans⟩ := ih.block _ _ hblock' herr
    obtain ⟨herr₃, hjump⟩ := emitJump_sound (c := c₃) herr₄
    obtain ⟨herr₀, hbefore⟩ := branch_sound ih hexpr hblock (next_err hnext herr₃)
    refine ⟨herr₀, fun hready => ?_⟩
    obtain ⟨e, s, hparse, hparse', hsite, _, hadds₁⟩ := hbefore hready
    obtain ⟨hread, hadds₂⟩ := next_sound hnext herr₃ hadds₁.ready
    obtain ⟨hsite', hadds₃, hscan⟩ := hjump hadds₂.ready
    -- The first branch, with its jump over the second one.
    have hadds₄ : Adds c c₃.emitJump.2
        (fun V => e.code V ++ (branchCode 0 ++ (s.code V none ++ [.jmp (rel 0)])))
        (e.size + (9 + (s.size + 5))) (s.sites.map (e.size + 9 + ·)) s.targets :=
      ((hadds₁.trans hadds₂).trans hadds₃).congr (fun V _ => by simp) (by omega) (by simp) (by simp)
    have hadds₅ := hadds₄.patchBranch (fun V => e.len_code V) hsite
      (show ((c₃.emitJump.2.clen : Nat) : Int) = _ + 4 + ((s.size + 5 : Nat) : Int) by
        rw [hadds₄.clen, hsite]
        omega)
    obtain ⟨t, hparse'', hadds₆⟩ := htrans hadds₅.ready
    have hadds₇ : Adds c c₅
        (fun V => (e.code V ++ (branchCode (s.size + 5 : Nat) ++ s.code V none)) ++
          ([.jmp (rel 0)] ++ t.code V none))
        (e.size + (9 + (s.size + (5 + t.size)))) (Stmt.ifElse e s t).sites (s.targets ++ t.targets) :=
      (hadds₅.trans hadds₆).congr (fun V _ => by simp) (by omega) (by
        rw [Stmt.sites]
        congr 1
        exact List.map_congr_left fun x _ => by omega) rfl
    have hadds₈ := hadds₇.patchJump (d := (t.size : Int)) (k := e.size + (9 + s.size))
      (fun V => by rw [len_append, len_append, len_branchCode, Expr.len_code, Stmt.len_code])
      (show c₃.emitJump.1 = _ by rw [hsite', hadds₂.clen, hadds₁.clen]; omega)
      (show ((c₅.clen : Nat) : Int) = _ by
        rw [hadds₇.clen, hsite', hadds₂.clen, hadds₁.clen]
        omega)
    refine ⟨.ifElse e s t, ?_, hadds₈.congr (fun V _ => ?_) rfl rfl rfl⟩
    · simp only [hparse, hparse', htok, hread, Option.bind_eq_bind, Option.bind_some]
      rw [show c₃.toScan = (c₃.emitJump.2.patchTo c₁.emitBranch.1 c₃.emitJump.2.clen).toScan from
        hscan.symm, hparse'']
      rfl
    · simp [Stmt.code]
  · rename_i htok
    cases h
    obtain ⟨herr₀, hbefore⟩ := branch_sound ih hexpr hblock herr
    refine ⟨herr₀, fun hready => ?_⟩
    obtain ⟨e, s, hparse, hparse', hsite, _, hadds₁⟩ := hbefore hready
    have hadds₂ := hadds₁.patchBranch (fun V => e.len_code V) hsite
      (show ((c₂.clen : Nat) : Int) = _ + 4 + (s.size : Int) by
        rw [hadds₁.clen, hsite]
        omega)
    refine ⟨.ifThen e s, ?_, hadds₂⟩
    simp only [hparse, hparse', if_neg htok, Option.bind_eq_bind, Option.bind_some]
    rfl

/-- The jump back to the beginning of a loop, behind its body. -/
theorem back_sound {c₀ : Comp} {A : List Name → List Instr} {s : Stmt} {k : Nat}
    (hadds : Adds c₀ c (fun V => A V ++ s.code V none) (k + s.size) (s.sites.map (k + ·)) s.targets)
    (hA : ∀ V, len (A V) = k) (herr : c.emitJump.2.err = 0) :
    Adds c₀ (c.emitJump.2.patchTo c.emitJump.1 c₀.clen)
      (fun V => A V ++ (s.code V none ++ [.jmp (rel (-(k + (s.size + 5) : Nat)))]))
      (k + (s.size + 5)) (s.sites.map (k + ·)) s.targets ∧
    c.emitJump.2.toScan = c.toScan := by
  obtain ⟨hsite, hadds', hscan⟩ := (emitJump_sound herr).2 hadds.ready
  have hbody : Adds c₀ c.emitJump.2 (fun V => (A V ++ s.code V none) ++ ([.jmp (rel 0)] ++ []))
      (k + (s.size + 5)) (s.sites.map (k + ·)) s.targets :=
    (hadds.trans hadds').congr (fun V _ => rfl) (Nat.add_assoc ..) (List.append_nil _)
      (List.append_nil _)
  have hsite' : c.emitJump.1 = c₀.clen + (k + s.size + 1) := by
    rw [hsite, hadds.clen, Nat.add_assoc]
  have hback := hbody.patchJump (fun V => by rw [len_append, hA, Stmt.len_code]) hsite'
    (show ((c₀.clen : Nat) : Int) = _ + 4 + -((k + (s.size + 5) : Nat) : Int) by
      rw [hsite']
      omega)
  exact ⟨hback.congr (fun V _ => List.append_assoc ..) rfl rfl rfl, hscan⟩

/-- A `while` behind its first token. -/
theorem while_sound (ih : StmtSound n) {top : Nat} (htop : top = c.clen) (h : (do
      let c ← Comp.expr n c
      let (siteEnd, c) := c.emitBranch
      let bbase := c.breaks.length
      let c ← Comp.block n c
      let (siteBack, c) := c.emitJump
      let c := c.patchTo siteBack top
      let endTarget := c.clen
      let c := c.patchTo siteEnd endTarget
      c.closeBreaks bbase endTarget) = .ok c') (herr : c'.err = 0) :
    c.err = 0 ∧ (c.Ready → ∃ s, (do
      let (e, s) ← Parse.expr n c.toScan
      let (p, s) ← Parse.block n s
      return (Stmt.while e p, s)) = some (s, c'.toScan) ∧ AddsStmt c c' s) := by
  obtain ⟨c₁, hexpr, h⟩ := bind_eq_ok h
  have hpair : c₁.emitBranch = (c₁.emitBranch.1, c₁.emitBranch.2) := rfl
  rw [hpair] at h
  dsimp only at h
  obtain ⟨c₂, hblock, h⟩ := bind_eq_ok h
  have hpair' : c₂.emitJump = (c₂.emitJump.1, c₂.emitJump.2) := rfl
  rw [hpair'] at h
  dsimp only at h
  have herr₃ : c₂.emitJump.2.err = 0 := (closeBreaks_err h).symm.trans herr
  obtain ⟨herr₀, hbefore⟩ := branch_sound ih hexpr hblock (emitJump_sound herr₃).1
  refine ⟨herr₀, fun hready => ?_⟩
  obtain ⟨e, s, hparse, hparse', hsite, hbreaks, hadds₁⟩ := hbefore hready
  have hadds₂ : Adds c c₂ (fun V => (e.code V ++ branchCode 0) ++ s.code V none)
      ((e.size + 9) + s.size) (s.sites.map (e.size + 9 + ·)) s.targets :=
    hadds₁.congr (fun V _ => (List.append_assoc ..).symm) (Nat.add_assoc ..).symm rfl rfl
  obtain ⟨hadds₃, hscan⟩ := back_sound hadds₂
    (fun V => by rw [len_append, len_branchCode, Expr.len_code]) herr₃
  rw [← htop] at hadds₃
  have hadds₄ := (hadds₃.congr (fun V _ => List.append_assoc ..) rfl rfl rfl).patchBranch
    (fun V => e.len_code V) hsite
    (show (((c₂.emitJump.2.patchTo c₂.emitJump.1 top).clen : Nat) : Int) =
        _ + 4 + ((s.size + 5 : Nat) : Int) by
      rw [hadds₃.clen, hsite]
      omega)
  rw [hbreaks] at h
  obtain ⟨hadds₅, hscan'⟩ := (hadds₄.congr (fun V _ => (List.append_assoc ..).symm) rfl rfl rfl).close
    (fun V => by rw [len_append, len_branchCode, Expr.len_code])
    (by rw [hadds₃.clen]) h
  refine ⟨.while e s, ?_, hadds₅.congr (fun V _ => ?_) (Nat.add_assoc ..) rfl rfl⟩
  · simp only [hparse, hparse', Option.bind_eq_bind, Option.bind_some]
    rw [hscan']
    exact congrArg (fun x => some (Stmt.while e s, x)) hscan.symm
  · rw [Stmt.code, List.append_assoc, Nat.add_assoc]
    rfl

/-- A `loop` behind its first token. -/
theorem loop_sound (ih : StmtSound n) {top : Nat} (htop : top = c.clen) (h : (do
      let bbase := c.breaks.length
      let c ← Comp.block n c
      let (siteBack, c) := c.emitJump
      let c := c.patchTo siteBack top
      let endTarget := c.clen
      c.closeBreaks bbase endTarget) = .ok c') (herr : c'.err = 0) :
    c.err = 0 ∧ (c.Ready → ∃ s, (do
      let (p, s) ← Parse.block n c.toScan
      return (Stmt.loop p, s)) = some (s, c'.toScan) ∧ AddsStmt c c' s) := by
  obtain ⟨c₁, hblock, h⟩ := bind_eq_ok h
  have hpair : c₁.emitJump = (c₁.emitJump.1, c₁.emitJump.2) := rfl
  rw [hpair] at h
  dsimp only at h
  have herr₂ : c₁.emitJump.2.err = 0 := (closeBreaks_err h).symm.trans herr
  obtain ⟨herr₀, htrans⟩ := ih.block _ _ hblock (emitJump_sound herr₂).1
  refine ⟨herr₀, fun hready => ?_⟩
  obtain ⟨s, hparse, hadds₁⟩ := htrans hready
  have hadds₂ : Adds c c₁ (fun V => [] ++ s.code V none) (0 + s.size) (s.sites.map (0 + ·))
      s.targets :=
    hadds₁.congr (fun V _ => rfl) (Nat.zero_add _).symm (by simp) rfl
  obtain ⟨hadds₃, hscan⟩ := back_sound hadds₂ (fun V => rfl) herr₂
  rw [← htop] at hadds₃
  obtain ⟨hadds₄, hscan'⟩ := hadds₃.close (fun V => rfl) (by rw [hadds₃.clen]) h
  refine ⟨.loop s, ?_, hadds₄.congr (fun V _ => ?_) (Nat.zero_add _) rfl rfl⟩
  · simp only [hparse, Option.bind_eq_bind, Option.bind_some]
    rw [hscan']
    exact congrArg (fun x => some (Stmt.loop s, x)) hscan.symm
  · rw [Stmt.code, Nat.zero_add]
    rfl

/-- What begins with reading a token. -/
theorem first_sound {g : Comp → Except Fault Comp} {parser : Scan → Option (Stmt × Scan)}
    (hrest : ∀ c₁, g c₁ = .ok c' → c₁.err = 0 ∧ (c₁.Ready →
      ∃ s, parser c₁.toScan = some (s, c'.toScan) ∧ AddsStmt c₁ c' s))
    (h : (c.next >>= g) = .ok c') :
    c.err = 0 ∧ (c.Ready → ∃ s, (c.toScan.read >>= parser) = some (s, c'.toScan) ∧
      AddsStmt c c' s) := by
  obtain ⟨c₁, hnext, h⟩ := bind_eq_ok h
  obtain ⟨herr₁, htrans⟩ := hrest c₁ h
  refine ⟨next_err hnext herr₁, fun hready => ?_⟩
  obtain ⟨hread, hadds₁⟩ := next_sound hnext herr₁ hready
  obtain ⟨s, hparse, hadds₂⟩ := htrans hadds₁.ready
  refine ⟨s, ?_, (hadds₁.trans hadds₂).congr (fun V _ => rfl) (Nat.zero_add _) (by simp) rfl⟩
  rw [hread, Option.bind_eq_bind, Option.bind_some, hparse]

theorem translates_stmt (ih : StmtSound n) :
    TranslatesStmt (Comp.stmt (n + 1)) (Parse.stmt (n + 1)) := by
  intro c c' h herr
  rw [Comp.stmt] at h
  split at h
  · rename_i htok
    simp only [Parse.stmt, htok]
    refine ⟨next_err h herr, fun hready => ?_⟩
    obtain ⟨hread, hadds⟩ := next_sound h herr hready
    exact ⟨.skip, by rw [hread]; rfl, hadds⟩
  · rename_i htok
    simp only [Parse.stmt, htok]
    refine first_sound (fun c₁ h => ?_) h
    split at h
    · cases h
      exact absurd herr (fail_err_ne (by decide))
    · rename_i hident
      obtain ⟨herr₁, hrest⟩ := let_sound h herr
      refine ⟨herr₁, fun hready => ?_⟩
      obtain ⟨e, hparse, hadds⟩ := hrest hready
      exact ⟨_, by rw [if_pos (not_not.mp hident)]; exact hparse, hadds⟩
  · rename_i htok
    rw [htok] at h
    simp only [Parse.stmt, htok]
    refine first_sound (fun c₁ h => ?_) h
    obtain ⟨herr₁, hrest⟩ := print_sound h herr
    refine ⟨herr₁, fun hready => ?_⟩
    obtain ⟨e, he⟩ := hrest hready
    exact ⟨_, he⟩
  · rename_i htok
    rw [htok] at h
    simp only [Parse.stmt, htok]
    refine first_sound (fun c₁ h => ?_) h
    obtain ⟨herr₁, hrest⟩ := print_sound h herr
    refine ⟨herr₁, fun hready => ?_⟩
    obtain ⟨e, he⟩ := hrest hready
    exact ⟨_, he⟩
  · rename_i htok
    simp only [Parse.stmt, htok]
    exact first_sound (fun c₁ h => if_sound ih h herr) h
  · rename_i htok
    simp only [Parse.stmt, htok]
    exact first_sound (fun c₁ h => while_sound ih rfl h herr) h
  · rename_i htok
    simp only [Parse.stmt, htok]
    exact first_sound (fun c₁ h => loop_sound ih rfl h herr) h
  · rename_i htok
    simp only [Parse.stmt, htok]
    refine first_sound (fun c₁ h => ?_) h
    obtain ⟨herr₁, hrest⟩ := break_sound h herr
    exact ⟨herr₁, fun hready => ⟨.break, hrest hready⟩⟩
  · rename_i htok
    simp only [Parse.stmt, htok]
    cases h
    exact ⟨herr, fun hready => ⟨.skip, rfl, .of_reads herr hready (Scan.Reads.refl _)⟩⟩
  · rename_i htok
    simp only [Parse.stmt, htok]
    cases h
    exact ⟨herr, fun hready => ⟨.skip, rfl, .of_reads herr hready (Scan.Reads.refl _)⟩⟩
  · cases h
    exact absurd herr (fail_err_ne (by decide))

theorem translates_blockLoop (ih : StmtSound n) :
    TranslatesStmt (Comp.blockLoop (n + 1)) (Parse.blockLoop (n + 1)) := by
  intro c c' h herr
  rw [Comp.blockLoop] at h
  simp only [Parse.blockLoop]
  split at h
  · rename_i hcond
    obtain ⟨c₁, hstmt, h⟩ := bind_eq_ok h
    obtain ⟨herr₁, hrest⟩ := ih.blockLoop _ _ h herr
    obtain ⟨herr₀, hfirst⟩ := ih.stmt _ _ hstmt herr₁
    refine ⟨herr₀, fun hready => ?_⟩
    obtain ⟨s, hparse, hadds₁⟩ := hfirst hready
    obtain ⟨t, hparse', hadds₂⟩ := hrest hadds₁.ready
    refine ⟨.seq s t, ?_, hadds₁.trans hadds₂⟩
    rw [if_neg (fun htok => htok.elim hcond.1 hcond.2.1)]
    simp only [hparse, hparse', Option.bind_eq_bind, Option.bind_some]
    rfl
  · rename_i hcond
    cases h
    refine ⟨herr, fun hready => ⟨.skip, ?_, .of_reads herr hready (Scan.Reads.refl _)⟩⟩
    rw [if_pos]
    by_contra htok
    exact hcond ⟨fun h => htok (Or.inl h), fun h => htok (Or.inr h), herr⟩

theorem translates_block (ih : StmtSound n) :
    TranslatesStmt (Comp.block (n + 1)) (Parse.block (n + 1)) := by
  intro c c' h herr
  rw [Comp.block] at h
  simp only [Parse.block]
  obtain ⟨c₁, hopen, h⟩ := bind_eq_ok h
  obtain ⟨c₂, hloop, hclose⟩ := bind_eq_ok h
  obtain ⟨herr₁, htrans⟩ := ih.blockLoop _ _ hloop (eat_err hclose herr)
  refine ⟨eat_err hopen herr₁, fun hready => ?_⟩
  obtain ⟨hread, hadds₁⟩ := eat_sound hopen herr₁ hready
  obtain ⟨s, hparse, hadds₂⟩ := htrans hadds₁.ready
  obtain ⟨hread', hadds₃⟩ := eat_sound hclose herr hadds₂.ready
  refine ⟨s, ?_, ((hadds₁.trans hadds₂).trans hadds₃).congr (fun V _ => ?_) ?_ (by simp) (by simp)⟩
  · simp only [hread, hparse, hread', Option.bind_eq_bind, Option.bind_some]
    rfl
  · rw [List.nil_append, List.append_nil]
  · rw [Nat.zero_add, Nat.add_zero]

end

theorem stmtSound (n : Nat) : StmtSound n := by
  induction n with
  | zero =>
      refine ⟨?_, ?_, ?_⟩
      · exact fun c c' h => by rw [Comp.stmt] at h; cases h
      · exact fun c c' h => by rw [Comp.blockLoop] at h; cases h
      · exact fun c c' h => by rw [Comp.block] at h; cases h
  | succ n ih => exact ⟨translates_stmt ih, translates_blockLoop ih, translates_block ih⟩

/-! ## Programs -/

theorem programLoop_sound {n : Nat} {c c' : Comp} (h : Comp.programLoop n c = .ok c')
    (herr : c'.err = 0) :
    c.err = 0 ∧ (c.Ready → ∃ p, Parse.programLoop n c.toScan = some p ∧ AddsStmt c c' p) := by
  induction n generalizing c with
  | zero =>
      rw [Comp.programLoop] at h
      cases h
  | succ n ih =>
      rw [Comp.programLoop] at h
      rw [Parse.programLoop]
      split at h
      · rename_i hcond
        obtain ⟨c₁, hstmt, h⟩ := bind_eq_ok h
        obtain ⟨herr₁, hrest⟩ := ih h
        obtain ⟨herr₀, hfirst⟩ := (stmtSound n).stmt _ _ hstmt herr₁
        refine ⟨herr₀, fun hready => ?_⟩
        obtain ⟨s, hparse, hadds₁⟩ := hfirst hready
        obtain ⟨t, hparse', hadds₂⟩ := hrest hadds₁.ready
        refine ⟨.seq s t, ?_, hadds₁.trans hadds₂⟩
        rw [if_neg hcond.1]
        simp only [hparse, hparse', Option.bind_eq_bind, Option.bind_some]
        rfl
      · rename_i hcond
        cases h
        refine ⟨herr, fun hready => ⟨.skip, ?_, .of_reads herr hready (Scan.Reads.refl _)⟩⟩
        rw [if_pos]
        by_contra htok
        exact hcond ⟨htok, herr⟩

end Comp

open Comp

/-- What the compiler accepts is a program, and what it has emitted is the code of that
program. -/
theorem compile_sound {n : Nat} {src : List UInt8} {elf : Nat → UInt8} {c : Comp}
    (h : compile n src elf = .ok c) (herr : c.err = 0) :
    ∃ p, Parse.program n src = some p ∧ c.code = bytes (programCode c.names p) ∧
      p.targets ⊆ c.names ∧ c.Ready := by
  rw [compile, program] at h
  obtain ⟨c₁, hnext, h⟩ := bind_eq_ok h
  obtain ⟨c₂, hloop, h⟩ := bind_eq_ok h
  cases h
  rw [emitExit_eq] at herr ⊢
  rw [emitPrologue_eq] at hnext
  have hstart : (start src elf).Ready := ⟨⟨Nat.zero_le _, fun _ hv => absurd hv List.not_mem_nil,
    Nat.zero_le _, Nat.zero_le _⟩, show codeOff + 0 ≤ elfBufSize by decide⟩
  obtain ⟨herr₁, htrans⟩ := programLoop_sound hloop (emitBytes_err herr)
  have herr₀ := next_err hnext herr₁
  obtain ⟨hadds₁, hscan⟩ := adds_emitBytes herr₀ hstart
  obtain ⟨hread, hadds₂⟩ := next_sound hnext herr₁ hadds₁.ready
  obtain ⟨p, hparse, hadds₃⟩ := htrans hadds₂.ready
  obtain ⟨hadds₄, _⟩ := adds_emitBytes herr hadds₃.ready
  have hadds := ((hadds₁.trans hadds₂).trans hadds₃).trans hadds₄
  refine ⟨p, ?_, ?_, ?_, hadds.ready⟩
  · rw [hscan] at hread
    have hfirst : Scan.read { src := src } = some c₁.toScan := hread
    simp only [Parse.program, hfirst, Option.bind_eq_bind, Option.bind_some, hparse]
  · have hcode := hadds.code _ (List.prefix_refl _)
    have hnil : (start src elf).code = [] := rfl
    simpa [programCode, hnil] using hcode
  · simpa using hadds.targets

end PureOS.Barrel
