import Mathlib.Algebra.Group.Nat.Defs
import Mathlib.Data.List.TakeWhile
import PureOS.Foundation.Pieces
import PureOS.Foundation.Profile
import PureOS.Fs.Path

set_option autoImplicit false

/-!
# Shell: the first and the last lines of a file (`commands.rs`)

`head` prints lines from the start of a file, and `tail` counts them first and skips some.  Both
take a line up to its end or to the end of the file.
-/

namespace PureOS.Shell

open PureOS.Foundation

/-! ## The code -/

/-- The byte that ends a line, and the one between arguments. -/
def newline : UInt8 := 10

def space : UInt8 := 32

/-- A line, and what is behind it: `while i < data.len() && data[i] != b'\\n'`. -/
def nextLine (data : List UInt8) : List UInt8 × List UInt8 :=
  (data.takeWhile (· ≠ newline), (data.dropWhile (· ≠ newline)).drop 1)

theorem length_nextLine_lt {data : List UInt8} (h : data ≠ []) :
    (nextLine data).2.length < data.length := by
  cases data with
  | nil => exact absurd rfl h
  | cons b data =>
      rw [nextLine, List.length_drop, List.dropWhile_cons]
      split
      · have hle := (List.dropWhile_sublist (· ≠ newline) (l := data)).length_le
        rw [List.length_cons]
        omega
      · rw [List.length_cons]
        omega

/-- The loop of `cmd_head`, with the lines that are still to come. -/
def headLoop : Nat → List UInt8 → List UInt8
  | 0, _ => []
  | n + 1, data =>
      if data = [] then []
      else (nextLine data).1 ++ newline :: headLoop n (nextLine data).2

/-- `total_lines`. -/
def totalLines (data : List UInt8) : Nat :=
  data.count newline + if data ≠ [] ∧ data.getLast? ≠ some newline then 1 else 0

/-- The loop of `cmd_tail`. -/
def tailLoop (skip linesSeen : Nat) (data : List UInt8) : List UInt8 :=
  if _h : data = [] then []
  else
    (if linesSeen ≥ skip then (nextLine data).1 ++ [newline] else []) ++
      tailLoop skip (linesSeen + 1) (nextLine data).2
  termination_by data.length
  decreasing_by exact length_nextLine_lt _h

/-- What `cmd_tail` prints of a file that is not empty. -/
def tailLines (n : Nat) (data : List UInt8) : List UInt8 :=
  tailLoop (if totalLines data > n then totalLines data - n else 0) 0 data

section

variable (p : Profile)

/-- The loop over the digits of the count, on numbers of 64 bits. -/
def countLoop : Nat → List UInt8 → Except Fault Nat
  | v, [] => .ok v
  | v, c :: rest =>
      if ch '0' ≤ c ∧ c ≤ ch '9' then
        let w := v * 10 + (c.toNat - 48)
        if w < 2 ^ 64 then countLoop w rest
        else if p = .checked then .error .panic
        else countLoop (w % 2 ^ 64) rest
      else .ok v

/-- No lines at all cannot be asked for. -/
def counted (v : Nat) : Nat := if v = 0 then 10 else v

/-- `n`: ten lines unless a count is given. -/
def lineCount (countStr : List UInt8) : Except Fault Nat :=
  if countStr = [] then .ok 10
  else do
    let v ← countLoop p 0 countStr
    .ok (counted v)

/-- A command on the lines of a file: `path [n]`. -/
def lineCommand (name : String) (print : Nat → List UInt8 → List UInt8) (s : Fs.State)
    (args : List UInt8) : Except Fault (List UInt8) :=
  let parts := args.splitOn space
  let path := parts.headD []
  if path = [] then .ok (ascii ("usage: " ++ name ++ " <file> [lines]\n"))
  else do
    let n ← lineCount p (parts.tail.headD [])
    match s.resolve path with
    | none => .ok (ascii (name ++ ": no such file\n"))
    | some node =>
        if s.kind node = .file then
          let data := s.read node
          .ok (if data = [] then [] else print n data)
        else .ok (ascii (name ++ ": is a directory\n"))

/-- `cmd_head`. -/
def cmdHead : Fs.State → List UInt8 → Except Fault (List UInt8) := lineCommand p "head" headLoop

/-- `cmd_tail`. -/
def cmdTail : Fs.State → List UInt8 → Except Fault (List UInt8) := lineCommand p "tail" tailLines

end

/-! ## The lines of a file -/

/-- The lines: what is between the ends of lines, and what is behind the last one unless that is
nothing. -/
def linesOf (data : List UInt8) : List (List UInt8) :=
  if (data.splitOn newline).getLast? = some [] then (data.splitOn newline).dropLast
  else data.splitOn newline

/-- Lines as they are printed. -/
def printed (lines : List (List UInt8)) : List UInt8 := lines.flatMap (· ++ [newline])

/-- The decimal digits of a number. -/
def numeral (n : Nat) : List UInt8 := (Nat.toDigits 10 n).map ch

/-- A line is taken without its end, and what is behind the end is left. -/
theorem nextLine_cases (data : List UInt8) :
    newline ∉ (nextLine data).1 ∧
      (data = (nextLine data).1 ++ newline :: (nextLine data).2 ∨
        data = (nextLine data).1 ∧ (nextLine data).2 = []) := by
  have hsplit := List.takeWhile_append_dropWhile (p := (· ≠ newline)) (l := data)
  constructor
  · intro hmem
    have hne := List.mem_takeWhile_imp hmem
    simp at hne
  · unfold nextLine
    rcases @dropWhile_ne_cases _ _ newline data with hrest | ⟨rest, hrest⟩
    · rw [hrest, List.append_nil] at hsplit
      exact Or.inr ⟨hsplit.symm, by rw [hrest]; rfl⟩
    · rw [hrest] at hsplit
      exact Or.inl (by rw [hrest]; exact hsplit.symm)

theorem linesOf_nil : linesOf [] = [] := rfl

/-- The lines of a file are its first line and the lines behind it. -/
theorem linesOf_eq {data : List UInt8} (h : data ≠ []) :
    linesOf data = (nextLine data).1 :: linesOf (nextLine data).2 := by
  obtain ⟨hnot, hsplit | ⟨hline, hrest⟩⟩ := nextLine_cases data
  · generalize (nextLine data).1 = line at hnot hsplit ⊢
    generalize (nextLine data).2 = rest at hsplit ⊢
    subst hsplit
    have hsplit := List.splitOn_append_cons_self_of_not_mem hnot rest
    have hne := List.splitOn_ne_nil newline rest
    rw [linesOf, linesOf, hsplit, List.getLast?_cons_of_ne_nil hne,
      List.dropLast_cons_of_ne_nil hne]
    split
    · rfl
    · rfl
  · rw [hrest, linesOf_nil, ← hline]
    rw [← hline] at hnot
    have hne : [data].getLast? ≠ some [] := by
      intro heq
      exact h (Option.some.inj heq)
    rw [linesOf, List.splitOn_eq_singleton hnot, if_neg hne]

/-- A run through a file line by line. -/
theorem lines_induction {motive : List UInt8 → Prop} (hnil : motive [])
    (hline : ∀ data, data ≠ [] → motive (nextLine data).2 → motive data) (data : List UInt8) :
    motive data := by
  induction hlen : data.length using Nat.strong_induction_on generalizing data with
  | _ len ih =>
      by_cases h : data = []
      · rw [h]
        exact hnil
      · exact hline data h (ih _ (hlen ▸ length_nextLine_lt h) _ rfl)

/-- `total_lines` is the number of lines. -/
theorem totalLines_eq (data : List UInt8) : totalLines data = (linesOf data).length := by
  induction data using lines_induction with
  | hnil => rfl
  | hline data h ih =>
      rw [linesOf_eq h, List.length_cons, ← ih]
      obtain ⟨hnot, hsplit | ⟨hline, hrest⟩⟩ := nextLine_cases data
      · generalize (nextLine data).1 = line at hnot hsplit ⊢
        generalize (nextLine data).2 = rest at hsplit ⊢
        subst hsplit
        have hcount : (line ++ newline :: rest).count newline = rest.count newline + 1 := by
          rw [List.count_append, List.count_eq_zero_of_not_mem hnot, List.count_cons_self]
          omega
        have hlast : rest ≠ [] → (line ++ newline :: rest).getLast? = rest.getLast? := by
          intro hne
          rw [List.getLast?_append_of_ne_nil _ (List.cons_ne_nil _ _),
            List.getLast?_cons_of_ne_nil hne]
        by_cases hne : rest = []
        · subst hne
          simp [totalLines, hcount]
        · rw [totalLines, totalLines, hcount, hlast hne]
          simp [hne]
          omega
      · rw [hrest]
        rw [← hline] at hnot
        have hlast : data.getLast? ≠ some newline := by
          intro heq
          exact hnot (List.mem_of_getLast? heq)
        rw [totalLines, List.count_eq_zero_of_not_mem hnot, if_pos ⟨h, hlast⟩]
        rfl

/-- There are no more lines than bytes. -/
theorem length_linesOf_le (data : List UInt8) : (linesOf data).length ≤ data.length := by
  induction data using lines_induction with
  | hnil => exact Nat.le_refl 0
  | hline data h ih =>
      rw [linesOf_eq h, List.length_cons]
      have hlt := length_nextLine_lt h
      omega

/-! ## What the loops print -/

theorem printed_cons (line : List UInt8) (lines : List (List UInt8)) :
    printed (line :: lines) = line ++ newline :: printed lines := by
  simp [printed]

theorem printed_append (a b : List (List UInt8)) : printed (a ++ b) = printed a ++ printed b := by
  simp [printed]

/-- The loop of `cmd_head` prints the first lines. -/
theorem headLoop_eq (n : Nat) (data : List UInt8) :
    headLoop n data = printed ((linesOf data).take n) := by
  induction n generalizing data with
  | zero => rfl
  | succ n ih =>
      by_cases h : data = []
      · rw [h]
        rfl
      · rw [headLoop, if_neg h, ih, linesOf_eq h, List.take_succ_cons, printed_cons]

/-- The loop of `cmd_tail` prints the lines behind those it skips. -/
theorem tailLoop_eq (skip linesSeen : Nat) (data : List UInt8) :
    tailLoop skip linesSeen data = printed ((linesOf data).drop (skip - linesSeen)) := by
  induction data using lines_induction generalizing linesSeen with
  | hnil =>
      rw [tailLoop, linesOf_nil, List.drop_nil]
      rfl
  | hline data h ih =>
      rw [tailLoop, dif_neg h, ih, linesOf_eq h]
      by_cases hseen : linesSeen ≥ skip
      · rw [if_pos hseen, show skip - linesSeen = 0 by omega,
          show skip - (linesSeen + 1) = 0 by omega, List.drop_zero, List.drop_zero, printed_cons,
          List.append_assoc]
        rfl
      · rw [if_neg hseen, List.nil_append,
          show skip - linesSeen = skip - (linesSeen + 1) + 1 by omega, List.drop_succ_cons]

/-- `cmd_tail` prints the last lines. -/
theorem tailLines_eq (n : Nat) (data : List UInt8) :
    tailLines n data = printed ((linesOf data).drop ((linesOf data).length - n)) := by
  rw [tailLines, tailLoop_eq, totalLines_eq, Nat.sub_zero]
  split
  · rfl
  · rw [show (linesOf data).length - n = 0 by omega]

/-- All lines printed are the file, with an end behind the last line when it has none. -/
theorem printed_linesOf (data : List UInt8) :
    printed (linesOf data) =
      if data = [] ∨ data.getLast? = some newline then data else data ++ [newline] := by
  induction data using lines_induction with
  | hnil => rfl
  | hline data h ih =>
      rw [linesOf_eq h, printed_cons, ih]
      obtain ⟨hnot, hsplit | ⟨hline, hrest⟩⟩ := nextLine_cases data
      · generalize (nextLine data).1 = line at hnot hsplit ⊢
        generalize (nextLine data).2 = rest at hsplit ⊢
        subst hsplit
        rw [List.getLast?_append_of_ne_nil _ (List.cons_ne_nil _ _)]
        by_cases hne : rest = []
        · simp [hne]
        · rw [List.getLast?_cons_of_ne_nil hne]
          by_cases hlast : rest.getLast? = some newline
          · simp [hlast]
          · simp [hne, hlast]
      · have hlast : data.getLast? ≠ some newline := by
          intro heq
          rw [← hline] at hnot
          exact hnot (List.mem_of_getLast? heq)
        rw [hrest, ← hline]
        simp [h, hlast]

/-! ## The count -/

theorem le_ofDigitChars (cs : List Char) (v : Nat) : v ≤ Nat.ofDigitChars 10 cs v := by
  induction cs generalizing v with
  | nil => exact Nat.le_refl v
  | cons c cs ih =>
      rw [Nat.ofDigitChars_cons]
      have hle := ih (10 * v + (c.toNat - '0'.toNat))
      omega

/-- A digit is seen as one by the loop, and counts as much as it stands for. -/
theorem ch_of_isDigit {c : Char} (h : c.isDigit) :
    (ch '0' ≤ ch c ∧ ch c ≤ ch '9') ∧ (ch c).toNat = c.toNat := by
  obtain ⟨hlo, hhi⟩ : 48 ≤ c.toNat ∧ c.toNat ≤ 57 := by
    simpa [Char.isDigit, Char.le_def, UInt32.le_iff_toNat_le] using h
  have hval : (ch c).toNat = c.toNat := by
    rw [ch, UInt8.toNat_ofNat']
    omega
  refine ⟨⟨?_, ?_⟩, hval⟩
  · rw [UInt8.le_iff_toNat_le, hval]
    exact hlo
  · rw [UInt8.le_iff_toNat_le, hval]
    exact hhi

variable {p : Profile}

theorem countLoop_digits {cs : List Char} (hdigits : ∀ c ∈ cs, c.isDigit) {v : Nat}
    (h : Nat.ofDigitChars 10 cs v < 2 ^ 64) :
    countLoop p v (cs.map ch) = .ok (Nat.ofDigitChars 10 cs v) := by
  induction cs generalizing v with
  | nil => rfl
  | cons c cs ih =>
      rw [Nat.ofDigitChars_cons] at h ⊢
      obtain ⟨hch, hval⟩ := ch_of_isDigit (hdigits c List.mem_cons_self)
      have hw : v * 10 + ((ch c).toNat - 48) = 10 * v + (c.toNat - '0'.toNat) := by
        rw [hval, Nat.mul_comm]
        rfl
      have hlt := Nat.lt_of_le_of_lt (le_ofDigitChars cs _) h
      rw [List.map_cons, countLoop, if_pos hch, hw]
      simp only [hlt, if_true]
      exact ih (fun c hc => hdigits c (List.mem_cons_of_mem _ hc)) h

theorem isDigit_of_mem {n : Nat} {c : Char} (h : c ∈ Nat.toDigits 10 n) : c.isDigit :=
  Nat.isDigit_of_mem_toDigits (by decide) (by decide) h

theorem numeral_ne_nil (n : Nat) : numeral n ≠ [] := by
  intro h
  exact Nat.toDigits_ne_nil (List.map_eq_nil_iff.mp h)

theorem space_notMem_numeral (n : Nat) : space ∉ numeral n := by
  intro hmem
  obtain ⟨c, hc, heq⟩ := List.mem_map.mp hmem
  obtain ⟨hch, -⟩ := ch_of_isDigit (isDigit_of_mem hc)
  rw [heq] at hch
  exact absurd hch (by decide)

/-- A count is read back from its digits. -/
theorem lineCount_numeral {n : Nat} (hn : n < 2 ^ 64) :
    lineCount p (numeral n) = .ok (counted n) := by
  have hread : countLoop p 0 (numeral n) = .ok n := by
    have hdigits := @countLoop_digits p (Nat.toDigits 10 n) (fun c hc => isDigit_of_mem hc) 0
    rw [Nat.ofDigitChars_ten_toDigits] at hdigits
    exact hdigits hn
  rw [lineCount, if_neg (numeral_ne_nil n), hread]
  rfl

theorem counted_eq {n : Nat} (h : 1 ≤ n) : counted n = n := if_neg (by omega)

theorem le_counted (n : Nat) : n ≤ counted n := by
  unfold counted
  split
  · omega
  · exact Nat.le_refl n

/-! ## The commands -/

section

variable {s : Fs.State} {path : List UInt8} {node : Fs.NodeId}

/-- The command prints what its loop prints of the file, for a count that fits a register. -/
theorem lineCommand_eq (name : String) {print : Nat → List UInt8 → List UInt8}
    (hprint : ∀ n, print n [] = []) (hpath : path ≠ []) (hspace : space ∉ path)
    (hresolve : s.resolve path = some node) (hkind : s.kind node = .file) {n : Nat}
    (hn : n < 2 ^ 64) :
    lineCommand p name print s (path ++ space :: numeral n) =
      .ok (print (counted n) (s.read node)) := by
  have hparts : (path ++ space :: numeral n).splitOn space = [path, numeral n] := by
    rw [List.splitOn_append_cons_self_of_not_mem hspace,
      List.splitOn_eq_singleton (space_notMem_numeral n)]
  have hdata : (if s.read node = [] then [] else print (counted n) (s.read node)) =
      print (counted n) (s.read node) := by
    split
    · rename_i hnil
      rw [hnil, hprint]
    · rfl
  simp only [lineCommand, hparts, List.headD_cons, List.tail_cons, if_neg hpath,
    lineCount_numeral hn, hresolve, hkind, if_true]
  exact congrArg Except.ok hdata

theorem cmdHead_eq (hpath : path ≠ []) (hspace : space ∉ path)
    (hresolve : s.resolve path = some node) (hkind : s.kind node = .file) {n : Nat}
    (hn : n < 2 ^ 64) :
    cmdHead p s (path ++ space :: numeral n) =
      .ok (printed ((linesOf (s.read node)).take (counted n))) := by
  have hnil : ∀ n, headLoop n [] = [] := by
    intro n
    rw [headLoop_eq, linesOf_nil, List.take_nil]
    rfl
  rw [cmdHead, lineCommand_eq "head" hnil hpath hspace hresolve hkind hn, headLoop_eq]

theorem cmdTail_eq (hpath : path ≠ []) (hspace : space ∉ path)
    (hresolve : s.resolve path = some node) (hkind : s.kind node = .file) {n : Nat}
    (hn : n < 2 ^ 64) :
    cmdTail p s (path ++ space :: numeral n) =
      .ok (printed ((linesOf (s.read node)).drop ((linesOf (s.read node)).length - counted n))) := by
  have hnil : ∀ n, tailLines n [] = [] := by
    intro n
    rw [tailLines_eq, linesOf_nil, List.drop_nil]
    rfl
  rw [cmdTail, lineCommand_eq "tail" hnil hpath hspace hresolve hkind hn, tailLines_eq]

/-- The first `n` lines and the last of the others are the lines of the file, whatever its content,
and a count that is no less than their number prints the whole file. -/
theorem head_tail_split (hpath : path ≠ []) (hspace : space ∉ path)
    (hresolve : s.resolve path = some node) (hkind : s.kind node = .file)
    (hlen : (s.read node).length < 2 ^ 64) :
    (∀ n, 1 ≤ n → n ≤ (linesOf (s.read node)).length →
      ∃ first last,
        cmdHead p s (path ++ space :: numeral n) = .ok first ∧
        (if (linesOf (s.read node)).length - n = 0 then last = []
          else cmdTail p s (path ++ space :: numeral ((linesOf (s.read node)).length - n)) =
            .ok last) ∧
        first ++ last = printed (linesOf (s.read node))) ∧
    ∀ n, n < 2 ^ 64 → (linesOf (s.read node)).length ≤ n →
      cmdHead p s (path ++ space :: numeral n) = .ok (printed (linesOf (s.read node))) ∧
      cmdTail p s (path ++ space :: numeral n) = .ok (printed (linesOf (s.read node))) := by
  have hcount := Nat.lt_of_le_of_lt (length_linesOf_le (s.read node)) hlen
  constructor
  · intro n h hn
    refine ⟨printed ((linesOf (s.read node)).take n), printed ((linesOf (s.read node)).drop n),
      ?_, ?_, ?_⟩
    · rw [cmdHead_eq hpath hspace hresolve hkind (by omega), counted_eq h]
    · split
      · rw [List.drop_eq_nil_of_le (by omega)]
        rfl
      · rw [cmdTail_eq hpath hspace hresolve hkind (by omega), counted_eq (by omega),
          show ∀ a, a - (a - n) = min a n by omega, Nat.min_eq_right hn]
    · rw [← printed_append, List.take_append_drop]
  · intro n hn hle
    have hle := Nat.le_trans hle (le_counted n)
    rw [cmdHead_eq hpath hspace hresolve hkind hn, cmdTail_eq hpath hspace hresolve hkind hn,
      List.take_of_length_le hle,
      show (linesOf (s.read node)).length - counted n = 0 by omega]
    exact ⟨rfl, rfl⟩

end

/-- The first two lines of `/etc/release` and its last three. -/
theorem head_tail_split_release :
    ∃ first last,
      cmdHead .checked Fs.State.init (ascii "/etc/release" ++ space :: numeral 2) = .ok first ∧
      cmdTail .checked Fs.State.init (ascii "/etc/release" ++ space :: numeral 3) = .ok last ∧
      first ++ last = printed (linesOf Fs.releaseText) := by
  have hresolve : Fs.State.init.resolve (ascii "/etc/release") = some 7 := by
    rw [Fs.State.init_eq]
    decide +kernel
  have hkind : Fs.State.init.kind 7 = .file := by
    rw [Fs.State.init_eq]
    decide +kernel
  have hread : Fs.State.init.read 7 = Fs.releaseText := by decide +kernel
  have hlen : (linesOf Fs.releaseText).length = 5 := by decide +kernel
  obtain ⟨hsplit, -⟩ := @head_tail_split .checked Fs.State.init (ascii "/etc/release") 7
    (by decide) (by decide) hresolve hkind (by rw [hread]; decide +kernel)
  rw [hread, hlen] at hsplit
  exact hsplit 2 (by decide) (by decide)

end PureOS.Shell
