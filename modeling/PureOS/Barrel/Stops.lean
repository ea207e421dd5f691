import PureOS.Barrel.Fuel
import PureOS.Barrel.Safety

set_option autoImplicit false

/-!
# Barrel: when the compiler stops

The loop over the top-level statements gives a statement at a closing brace to
`stmt`, which returns at once without reading or failing, so the loop turns for
ever.  Nothing else keeps the compiler from coming to an end.
-/

namespace PureOS.Barrel

open PureOS.Foundation

namespace Comp

/-- The states in which the loop of `program` begins a turn. -/
inductive Head (src : List UInt8) (elf : Nat → UInt8) : Comp → Prop
  /-- After the first token has been read. -/
  | first {c : Comp} (h : (start src elf).emitPrologue.next = .ok c) : Head src elf c
  /-- After a statement. -/
  | again {n : Nat} {c c' : Comp} (h : Head src elf c) (heof : c.tok ≠ .eof) (herr : c.err = 0)
      (hstmt : stmt n c = .ok c') : Head src elf c'

/-- A top-level statement begins at a closing brace. -/
def AtBrace (c : Comp) : Prop := c.tok = .rBrace ∧ c.err = 0

theorem good_start (src : List UInt8) (elf : Nat → UInt8) : (start src elf).Good where
  vars_length := Nat.zero_le _
  vars_inside _ hv := absurd hv List.not_mem_nil
  breaks_length := Nat.zero_le _
  name_inside := Nat.zero_le _

theorem Head.follows {src : List UInt8} {elf : Nat → UInt8} {c : Comp} (h : Head src elf c) :
    Follows (start src elf) c := by
  induction h with
  | first hnext =>
      obtain ⟨c', hnext', hf, _⟩ := (start src elf).emitPrologue.next_follows
      rw [hnext] at hnext'
      cases hnext'
      exact (follows_emitPrologue _).trans hf
  | again h _ _ hstmt ih =>
      exact ih.trans (((stmtEnds _).stmt _ (ih.good (good_start src elf))).1.follows _ hstmt)

theorem Head.good {src : List UInt8} {elf : Nat → UInt8} {c : Comp} (h : Head src elf c) :
    c.Good := h.follows.good (good_start src elf)

theorem programLoop_below {n m : Nat} (h : n ≤ m) (c : Comp) :
    Below (programLoop n c) (programLoop m c) := by
  induction n generalizing m c with
  | zero =>
      rw [programLoop]
      exact .fuel _
  | succ n ih =>
      obtain ⟨m, rfl⟩ : ∃ k, m = k + 1 := ⟨m - 1, by omega⟩
      have hle := Nat.le_of_succ_le_succ h
      simp only [programLoop]
      split
      · exact .bind ((stmtBelow hle).stmt c) fun c' => ih hle c'
      · exact .refl _

/-- At a closing brace the loop never ends. -/
theorem programLoop_ne_ok_of_atBrace {c : Comp} (h : c.AtBrace) (n : Nat) (c' : Comp) :
    programLoop n c ≠ .ok c' := by
  obtain ⟨htok, herr⟩ := h
  induction n with
  | zero =>
      rw [programLoop]
      simp
  | succ n ih =>
      rw [programLoop, if_pos ⟨by rw [htok]; decide, herr⟩]
      cases n with
      | zero =>
          rw [stmt]
          exact fun heq => by cases heq
      | succ n =>
          have hstmt : stmt (n + 1) c = .ok c := by
            rw [stmt]
            split <;> simp_all
          rw [hstmt]
          exact ih

/-- If the loop ends, it ends from every turn. -/
theorem Head.programLoop_ok {src : List UInt8} {elf : Nat → UInt8} {c₀ c : Comp} {n : Nat}
    {last : Comp} (hfirst : (start src elf).emitPrologue.next = .ok c₀)
    (hloop : programLoop n c₀ = .ok last) (h : Head src elf c) :
    ∃ m, programLoop m c = .ok last := by
  induction h with
  | first hnext =>
      rw [hfirst] at hnext
      cases hnext
      exact ⟨n, hloop⟩
  | again _ heof herr hstmt ih =>
      obtain ⟨m, hm⟩ := ih
      cases m with
      | zero =>
          rw [programLoop] at hm
          cases hm
      | succ m =>
          rw [programLoop, if_pos ⟨heof, herr⟩] at hm
          obtain ⟨c₁, hstmt₁, hrest⟩ := bind_eq_ok hm
          rw [stmt_unique hstmt hstmt₁]
          exact ⟨m, hrest⟩

/-- Away from closing braces every turn of the loop leaves less to read, so the loop
ends. -/
theorem Head.programLoop_ends {src : List UInt8} {elf : Nat → UInt8}
    (hnone : ∀ c, Head src elf c → ¬c.AtBrace) (k : Nat) {c : Comp} (h : Head src elf c)
    (hk : c.work ≤ k) : ∃ n last, programLoop n c = .ok last := by
  induction k generalizing c with
  | zero =>
      have heof : c.tok = .eof := by
        by_contra hne
        simp only [work, Scan.work, if_neg hne] at hk
        omega
      exact ⟨1, c, by rw [programLoop, if_neg fun hcond => hcond.1 heof]⟩
  | succ k ih =>
      by_cases hcond : c.tok ≠ .eof ∧ c.err = 0
      · obtain ⟨hends, hconsumes⟩ := (stmtEnds (8 * c.work + 1)).stmt c h.good
        obtain ⟨c', hstmt⟩ := hends.ends (Nat.le_refl _)
        have hbrace : c.tok ≠ .rBrace := fun htok => hnone c h ⟨htok, hcond.2⟩
        have hrest : ∃ n last, programLoop n c' = .ok last := by
          rcases hconsumes hbrace hcond.1 c' hstmt with hlt | herr
          · exact ih (.again h hcond.1 hcond.2 hstmt) (by omega)
          · exact ⟨1, c', by rw [programLoop, if_neg fun hcond => herr hcond.2]⟩
        obtain ⟨n, last, hlast⟩ := hrest
        have hstmt' := ((stmtBelow (Nat.le_max_left (8 * c.work + 1) n)).stmt c).eq_ok hstmt
        have hlast' := (programLoop_below (Nat.le_max_right (8 * c.work + 1) n) c').eq_ok hlast
        refine ⟨max (8 * c.work + 1) n + 1, last, ?_⟩
        rw [programLoop, if_pos hcond, hstmt', bind_ok, hlast']
      · exact ⟨1, c, by rw [programLoop, if_neg hcond]⟩

end Comp

open Comp

/-- The compilation is the loop from its first turn, and the exit code after it. -/
theorem compile_eq {src : List UInt8} {elf : Nat → UInt8} {c₀ : Comp}
    (hfirst : (start src elf).emitPrologue.next = .ok c₀) (n : Nat) :
    compile n src elf = programLoop n c₀ >>= fun c => .ok c.emitExit := by
  rw [compile, program, hfirst, bind_ok]
  rfl

theorem programLoop_no_panic {src : List UInt8} {elf : Nat → UInt8} (n : Nat) {c : Comp}
    (h : Head src elf c) :
    programLoop n c ≠ .error .panic ∧ ∀ last, programLoop n c = .ok last → Follows c last := by
  induction n generalizing c with
  | zero =>
      rw [programLoop]
      exact ⟨by simp, fun _ heq => by cases heq⟩
  | succ n ih =>
      rw [programLoop]
      split
      · rename_i hcond
        have hends := ((stmtEnds n).stmt c h.good).1
        cases hstmt : stmt n c with
        | error fault =>
            cases fault with
            | fuel =>
                refine ⟨fun heq => ?_, fun last heq => ?_⟩
                · cases heq
                · cases heq
            | panic => exact absurd hstmt hends.no_panic
        | ok c' =>
            obtain ⟨hpanic, hfollows⟩ := ih (.again h hcond.1 hcond.2 hstmt)
            exact ⟨hpanic, fun last heq => (hends.follows c' hstmt).trans (hfollows last heq)⟩
      · exact ⟨by simp, fun last heq => by cases heq; exact .refl c⟩

/-- For every source text: the compiler never indexes a table out of range, and
what it writes lies in the code buffer; it comes to an end exactly when no
top-level statement begins at a closing brace; and a turn of the statement loop
reads on or fails exactly when it does not begin there. -/
theorem compile_stops_iff (src : List UInt8) (elf : Nat → UInt8) :
    (∀ n, compile n src elf ≠ .error .panic) ∧
    (∀ c, (Head src elf c ∨ ∃ n, compile n src elf = .ok c) →
      ∀ a, a < codeOff ∨ elfBufSize ≤ a → c.elf a = elf a) ∧
    ((∃ n c, compile n src elf = .ok c) ↔ ∀ c, Head src elf c → ¬c.AtBrace) ∧
    (∀ n c c', Head src elf c → c.tok ≠ .eof → c.err = 0 → stmt n c = .ok c' →
      ((c'.work < c.work ∨ c'.err ≠ 0) ↔ ¬c.AtBrace)) := by
  obtain ⟨c₀, hfirst, _⟩ := (start src elf).emitPrologue.next_follows
  have hhead : Head src elf c₀ := .first hfirst
  refine ⟨fun n heq => ?_, fun c hc a ha => ?_, ⟨fun hstops c h hbrace => ?_, fun hnone => ?_⟩,
    fun n c c' h heof herr hstmt => ⟨fun hread hbrace => ?_, fun hnot => ?_⟩⟩
  · rw [compile_eq hfirst] at heq
    cases hloop : programLoop n c₀ with
    | ok c =>
        rw [hloop] at heq
        cases heq
    | error fault =>
        rw [hloop] at heq
        cases heq
        exact (programLoop_no_panic n hhead).1 hloop
  · rcases hc with h | ⟨n, heq⟩
    · exact h.follows.frame a ha
    · rw [compile_eq hfirst] at heq
      obtain ⟨last, hloop, hexit⟩ := bind_eq_ok heq
      cases hexit
      exact ((hhead.follows.trans ((programLoop_no_panic n hhead).2 last hloop)).trans
        (follows_emitExit last)).frame a ha
  · obtain ⟨n, c', heq⟩ := hstops
    rw [compile_eq hfirst] at heq
    obtain ⟨last, hloop, _⟩ := bind_eq_ok heq
    obtain ⟨m, hm⟩ := h.programLoop_ok hfirst hloop
    exact programLoop_ne_ok_of_atBrace hbrace m last hm
  · obtain ⟨n, last, hlast⟩ := Head.programLoop_ends hnone c₀.work hhead (Nat.le_refl _)
    exact ⟨n, last.emitExit, by rw [compile_eq hfirst, hlast, bind_ok]⟩
  · cases n with
    | zero =>
        rw [stmt] at hstmt
        cases hstmt
    | succ n =>
        have hsame : stmt (n + 1) c = .ok c := by
          obtain ⟨htok, _⟩ := hbrace
          rw [stmt]
          split <;> simp_all
        rw [hsame] at hstmt
        cases hstmt
        rcases hread with hlt | herr'
        · exact Nat.lt_irrefl _ hlt
        · exact herr' herr
  · have hbrace : c.tok ≠ .rBrace := fun htok => hnot ⟨htok, herr⟩
    exact ((stmtEnds n).stmt c h.good).2 hbrace heof c' hstmt

/-- A closing brace alone is a source text for which the compiler never stops. -/
theorem compile_does_not_stop_at_brace :
    ¬∃ n c, compile n [0x7D] (fun _ => 0) = .ok c := by
  have hbrace : ∃ c, Head [0x7D] (fun _ => 0) c ∧ c.AtBrace := by
    obtain ⟨c, hnext, _⟩ := (start [0x7D] fun _ => 0).emitPrologue.next_follows
    have hread : ((start [0x7D] fun _ => 0).emitPrologue.next.toOption.map fun c =>
        (c.tok, c.err)) = some (.rBrace, 0) := by
      decide +kernel
    rw [hnext] at hread
    have hat : (c.tok, c.err) = (.rBrace, 0) := Option.some.inj hread
    exact ⟨c, .first hnext, congrArg Prod.fst hat, congrArg Prod.snd hat⟩
  obtain ⟨c, hhead, hat⟩ := hbrace
  exact fun hstops => (compile_stops_iff [0x7D] fun _ => 0).2.2.1.mp hstops c hhead hat

end PureOS.Barrel
