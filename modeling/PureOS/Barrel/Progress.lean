import PureOS.Barrel.Scan

set_option autoImplicit false

/-!
# Barrel: the scanner makes progress

Reading a token never panics, and it uses up source or reaches the end.  `work`
counts what is left: two for every character and one for a token that is not the
end of the source.
-/

namespace PureOS.Barrel

open PureOS.Foundation

namespace Scan

/-! ## The loops -/

/-- The scanner has gone on in the source and nothing else has changed. -/
def Moved (s s' : Scan) : Prop := ∃ k, s' = { s with pos := s.pos + k }

theorem Moved.refl (s : Scan) : Moved s s := ⟨0, rfl⟩

theorem Moved.trans {s s' s'' : Scan} (h : Moved s s') (h' : Moved s' s'') : Moved s s'' := by
  obtain ⟨k, rfl⟩ := h
  obtain ⟨l, rfl⟩ := h'
  exact ⟨k + l, by simp [Nat.add_assoc]⟩

/-- Everything but the position is as it was. -/
theorem Moved.same {s s' : Scan} (h : Moved s s') :
    s'.src = s.src ∧ s.pos ≤ s'.pos ∧ s'.tok = s.tok ∧ s'.nameOff = s.nameOff ∧
      s'.nameLen = s.nameLen ∧ s'.err = s.err := by
  obtain ⟨k, rfl⟩ := h
  exact ⟨rfl, Nat.le_add_right _ _, rfl, rfl, rfl, rfl⟩

theorem moved_bump (s : Scan) : Moved s s.bump := ⟨1, rfl⟩

theorem moved_bumpWhile (p : UInt8 → Bool) (s : Scan) (n : Nat) : Moved s (s.bumpWhile p n) := by
  induction n generalizing s with
  | zero => exact .refl s
  | succ n ih =>
      rw [bumpWhile]
      split
      · exact s.moved_bump.trans (ih s.bump)
      · exact .refl s

theorem moved_skipWsLoop (n : Nat) (s : Scan) : Moved s (skipWsLoop n s) := by
  induction n generalizing s with
  | zero => exact .refl s
  | succ n ih =>
      rw [skipWsLoop]
      split
      · exact (s.moved_bumpWhile _ _).trans (ih _)
      · split
        · exact s.moved_bump.trans (ih _)
        · exact .refl s

theorem moved_skipWs (s : Scan) : Moved s s.skipWs := moved_skipWsLoop _ s

theorem moved_digits (n : Nat) (s : Scan) (v : BitVec 64) : Moved s (digits n s v).1 := by
  induction n generalizing s v with
  | zero => exact .refl s
  | succ n ih =>
      rw [digits]
      split
      · exact s.moved_bump.trans (ih _ _)
      · exact .refl s

/-- A character other than 0 lies inside the source. -/
theorem pos_lt_of_peekCh {s : Scan} (h : s.peekCh ≠ 0) : s.pos < s.src.length := by
  by_contra hge
  apply h
  rw [peekCh, List.getElem?_eq_none (Nat.le_of_not_lt hge)]
  rfl

theorem left_pos {s : Scan} (h : s.peekCh ≠ 0) : ∃ n, s.left = n + 1 := by
  have hlt := pos_lt_of_peekCh h
  exact ⟨s.left - 1, by unfold left; omega⟩

/-- The loop stays inside the source when it does not run over a 0. -/
theorem bumpWhile_pos_le {p : UInt8 → Bool} (hp : p 0 = false) {s : Scan} (n : Nat)
    (h : s.pos ≤ s.src.length) : (s.bumpWhile p n).pos ≤ s.src.length := by
  induction n generalizing s with
  | zero => exact h
  | succ n ih =>
      rw [bumpWhile]
      split
      · rename_i hpeek
        have hne : s.peekCh ≠ 0 := by
          intro hzero
          rw [hzero, hp] at hpeek
          cases hpeek
        exact ih (s := s.bump) (pos_lt_of_peekCh hne)
      · exact h

/-- A slice that lies inside the source is no panic. -/
theorem slice_eq_ok {s : Scan} {lo hi : Nat} (h : lo ≤ hi) (h' : hi ≤ s.src.length) :
    s.slice lo hi = .ok ((s.src.take hi).drop lo) := by
  rw [slice, if_pos ⟨h, h'⟩]

/-! ## Reading a token -/

/-- What is left to read. -/
def work (s : Scan) : Nat := 2 * s.left + if s.tok = .eof then 0 else 1

/-- What reading keeps: the source and the first error; the name lies inside the
source and nothing is read twice. -/
structure Reads (s s' : Scan) : Prop where
  src : s'.src = s.src
  work : s'.work ≤ s.work
  err : s.err ≠ 0 → s'.err = s.err
  name : s.nameOff + s.nameLen ≤ s.src.length → s'.nameOff + s'.nameLen ≤ s'.src.length

theorem Reads.refl (s : Scan) : Reads s s := ⟨rfl, Nat.le_refl _, fun _ => rfl, id⟩

theorem fail_err_ne {s : Scan} {code : Int} (h : code ≠ 0) : (s.fail code).err ≠ 0 := by
  unfold fail
  split
  · exact h
  · assumption

theorem reads_fail (s : Scan) (code : Int) : Reads s (s.fail code) := by
  unfold fail
  split
  · rename_i herr
    exact ⟨rfl, Nat.le_refl _, fun hne => absurd herr hne, id⟩
  · exact .refl s

/-- Going on by at least one character leaves less to read, whatever the token. -/
theorem work_lt_of_pos_lt {s s' : Scan} (src : s'.src = s.src) (lt : s.pos < s'.pos)
    (bound : s.pos < s.src.length) : s'.work < s.work := by
  have hleft : s'.left < s.left := by
    unfold left
    rw [src]
    omega
  unfold work
  split <;> split <;> omega

/-- A character that begins a token, and what is left after it. -/
theorem next_step {s x s' : Scan} (hc : s.skipWs.peekCh ≠ 0) (moved : Moved s.skipWs.bump x)
    (src : s'.src = x.src) (pos : x.pos ≤ s'.pos) (err : s.err ≠ 0 → s'.err = s.err)
    (name : s.nameOff + s.nameLen ≤ s.src.length → s'.nameOff + s'.nameLen ≤ s.src.length) :
    Reads s s' ∧ (s.tok ≠ .eof → s'.work < s.work) := by
  obtain ⟨hsrc, hpos, _⟩ := s.moved_skipWs.same
  obtain ⟨hsrc', hpos', _⟩ := moved.same
  have hbump : s.skipWs.bump.pos = s.skipWs.pos + 1 := rfl
  have hsrc'' : s'.src = s.src := by
    rw [src, hsrc']
    exact hsrc
  have hlt := pos_lt_of_peekCh hc
  rw [hsrc] at hlt
  have hwork : s'.work < s.work := work_lt_of_pos_lt hsrc'' (by omega) (by omega)
  refine ⟨⟨hsrc'', Nat.le_of_lt hwork, err, ?_⟩, fun _ => hwork⟩
  rw [hsrc'']
  exact name

/-- The same for a token that is not a name. -/
theorem next_plain {s x s' : Scan} (hc : s.skipWs.peekCh ≠ 0) (moved : Moved s.skipWs.bump x)
    (src : s'.src = x.src) (pos : x.pos ≤ s'.pos) (off : s'.nameOff = x.nameOff)
    (len : s'.nameLen = x.nameLen) (err : x.err = s.err → s.err ≠ 0 → s'.err = s.err) :
    Reads s s' ∧ (s.tok ≠ .eof → s'.work < s.work) := by
  obtain ⟨_, _, _, hoff, hlen, herr⟩ := ((s.moved_skipWs.trans s.skipWs.moved_bump).trans moved).same
  have hname : s.nameOff + s.nameLen ≤ s.src.length → s'.nameOff + s'.nameLen ≤ s.src.length := by
    rw [off, len, hoff, hlen]
    exact id
  exact next_step hc moved src pos (err herr) hname

/-- A loop whose condition holds at the first character goes on by one at least. -/
theorem moved_bumpWhile_bump {p : UInt8 → Bool} {s : Scan} (hc : s.peekCh ≠ 0)
    (hp : p s.peekCh = true) : Moved s.bump (s.bumpWhile p s.left) := by
  obtain ⟨n, hn⟩ := left_pos hc
  rw [hn, bumpWhile, if_pos hp]
  exact s.bump.moved_bumpWhile p n

theorem moved_digits_bump {s : Scan} (hc : s.peekCh ≠ 0) (hp : isDigit s.peekCh = true)
    (v : BitVec 64) : Moved s.bump (digits s.left s v).1 := by
  obtain ⟨n, hn⟩ := left_pos hc
  rw [hn, digits, if_pos hp]
  exact s.bump.moved_digits n _

theorem isNamePart_of_isNameStart {c : UInt8} (h : isNameStart c = true) :
    isNamePart c = true := by
  rw [isNamePart, h, Bool.true_or]

theorem fail_err {x : Scan} {code err : Int} (hx : x.err = err) (hne : err ≠ 0) :
    (x.fail code).err = err := by
  rw [fail, if_neg (hx ▸ hne), hx]

theorem fail_same (x : Scan) (code : Int) : (x.fail code).src = x.src ∧
    (x.fail code).pos = x.pos ∧ (x.fail code).nameOff = x.nameOff ∧
    (x.fail code).nameLen = x.nameLen := by
  unfold fail
  split <;> exact ⟨rfl, rfl, rfl, rfl⟩

/-- A token of one character or of two. -/
theorem pair_plain {s : Scan} (hc : s.skipWs.peekCh ≠ 0) (t : Tk) {alone : Scan → Scan}
    (halone : ∀ x, (alone x).src = x.src ∧ (alone x).pos = x.pos ∧
      (alone x).nameOff = x.nameOff ∧ (alone x).nameLen = x.nameLen ∧
      (x.err = s.err → s.err ≠ 0 → (alone x).err = s.err)) :
    Reads s (s.skipWs.pair t alone) ∧ (s.tok ≠ .eof → (s.skipWs.pair t alone).work < s.work) := by
  unfold pair
  dsimp only
  split
  · exact next_plain hc (Moved.refl _) rfl (Nat.le_succ _) rfl rfl fun herr _ => herr
  · obtain ⟨src, pos, off, len, err⟩ := halone s.skipWs.bump
    exact next_plain hc (Moved.refl _) src (Nat.le_of_eq pos.symm) off len err

/-- `next` never panics; it reads on, and from a token that is not the end it
leaves less to read. -/
theorem next_reads (s : Scan) :
    ∃ s', s.next = .ok s' ∧ Reads s s' ∧ (s.tok ≠ .eof → s'.work < s.work) := by
  have hset : ∀ (t : Tk) (x : Scan), ({ x with tok := t } : Scan).src = x.src ∧
      ({ x with tok := t } : Scan).pos = x.pos ∧ ({ x with tok := t } : Scan).nameOff = x.nameOff ∧
      ({ x with tok := t } : Scan).nameLen = x.nameLen ∧
      (x.err = s.err → s.err ≠ 0 → ({ x with tok := t } : Scan).err = s.err) :=
    fun t x => ⟨rfl, rfl, rfl, rfl, fun herr _ => herr⟩
  unfold next
  dsimp only
  split
  · -- The end of the source.
    obtain ⟨hsrc, hpos, _, hoff, hlen, herr⟩ := s.moved_skipWs.same
    have hleft : s.skipWs.left ≤ s.left := by
      unfold left
      rw [hsrc]
      omega
    have hwork : Scan.work { s.skipWs with tok := .eof } = 2 * s.skipWs.left := rfl
    refine ⟨_, rfl, ⟨hsrc, ?_, fun _ => herr, ?_⟩, fun htok => ?_⟩
    · rw [hwork, work]
      omega
    · dsimp only
      rw [hoff, hlen, hsrc]
      exact id
    · rw [hwork, work, if_neg htok]
      omega
  · rename_i hc
    split
    · rename_i hdigit
      exact ⟨_, rfl, next_plain hc (moved_digits_bump hc hdigit 0) rfl (Nat.le_refl _) rfl rfl
        fun herr _ => herr⟩
    · split
      · -- A name lies inside the source.
        rename_i hstart
        have hmoved := moved_bumpWhile_bump hc (isNamePart_of_isNameStart hstart)
        obtain ⟨hsrc, hpos, _⟩ := hmoved.same
        obtain ⟨hsrc', _, _, _, _, herr⟩ := s.moved_skipWs.same
        obtain ⟨_, _, _, _, _, herr'⟩ := hmoved.same
        have hbump : s.skipWs.bump.pos = s.skipWs.pos + 1 := rfl
        have hbound : (s.skipWs.bumpWhile isNamePart s.skipWs.left).pos ≤ s.skipWs.src.length :=
          bumpWhile_pos_le (by decide) _ (Nat.le_of_lt (pos_lt_of_peekCh hc))
        have hlen : (s.skipWs.bumpWhile isNamePart s.skipWs.left).src.length = s.skipWs.src.length :=
          congrArg List.length hsrc
        rw [slice_eq_ok (by omega) (by omega)]
        refine ⟨_, rfl, next_step hc hmoved rfl (Nat.le_refl _) (fun _ => herr'.trans herr) ?_⟩
        intro _
        dsimp only
        rw [← hsrc']
        omega
      · split
        · exact ⟨_, rfl, pair_plain hc _ (hset _)⟩
        · split
          · refine ⟨_, rfl, pair_plain hc _ fun x => ?_⟩
            obtain ⟨src, pos, off, len⟩ := x.fail_same eParse
            exact ⟨src, pos, off, len, fail_err⟩
          · split
            · exact ⟨_, rfl, pair_plain hc _ (hset _)⟩
            · split
              · exact ⟨_, rfl, pair_plain hc _ (hset _)⟩
              · cases single s.skipWs.peekCh with
                | some t =>
                    exact ⟨_, rfl, next_plain hc (Moved.refl _) rfl (Nat.le_refl _) rfl rfl
                      fun herr _ => herr⟩
                | none =>
                    obtain ⟨src, pos, off, len⟩ := s.skipWs.bump.fail_same eParse
                    exact ⟨_, rfl, next_plain hc (Moved.refl _) src (Nat.le_of_eq pos.symm) off len
                      fail_err⟩

/-- `eat` never panics. -/
theorem eat_reads (s : Scan) (t : Tk) : ∃ s', s.eat t = .ok s' ∧ Reads s s' := by
  unfold eat
  split
  · obtain ⟨s', hnext, hreads, _⟩ := s.next_reads
    exact ⟨s', hnext, hreads⟩
  · exact ⟨_, rfl, s.reads_fail eParse⟩

end Scan

end PureOS.Barrel
