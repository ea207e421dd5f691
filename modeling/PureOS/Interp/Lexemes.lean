import Mathlib.Data.List.Induction
import Mathlib.Data.List.TakeWhile
import PureOS.Interp.Lexer

set_option autoImplicit false

/-!
# Interp: what the tokenizer keeps of a script (`barrel.rs`)

A script is a list of lexemes, whatever its length; the tables have room for some of them.
A turn of the tokenizer adds one lexeme to the tables, and what the tables hold then follows
from the lexemes alone.
-/

namespace PureOS.Interp

open PureOS.Foundation
open PureOS.Barrel.Scan (isDigit isNameStart isNamePart)

/-! ## Lexemes -/

/-- What a script consists of. -/
inductive Lexeme where
  | string (text : List UInt8)
  | number (v : BitVec 64)
  | name (text : List UInt8)
  | operator (tok : Token)
  deriving DecidableEq

namespace Lexeme

/-- The bytes that go to the string buffer. -/
def text : Lexeme → Option (List UInt8)
  | .string text => some text
  | .name text => some text
  | _ => none

/-- The room that a lexeme takes in the string buffer. -/
def size (l : Lexeme) : Nat :=
  match l.text with
  | some text => text.length + 1
  | none => 0

/-- The arms that test the capacity. -/
def isOperator : Lexeme → Bool
  | .operator _ => true
  | _ => false

end Lexeme

/-- The room that lexemes take in the string buffer. -/
def bytes (ls : List Lexeme) : Nat := (ls.map Lexeme.size).sum

/-- The first lexeme and what comes behind it. -/
def lexeme (src : List UInt8) : Option (Lexeme × List UInt8) :=
  let src := skipWhitespace src
  let c := peek src
  if c = 0 then none
  else if c = ch '"' then
    let rest := src.tail.dropWhile inString
    some (.string (src.tail.takeWhile inString), if peek rest = ch '"' then rest.tail else rest)
  else if isDigit c then some (.number (digits src 0).2, (digits src 0).1)
  else if isNameStart c then some (.name (src.takeWhile isNamePart), src.dropWhile isNamePart)
  else some (.operator (operator src).2, (operator src).1)

/-- At most so many lexemes. -/
def lexemesLoop : Nat → List UInt8 → List Lexeme
  | 0, _ => []
  | n + 1, src =>
      match lexeme src with
      | none => []
      | some (l, rest) => l :: lexemesLoop n rest

/-- The lexemes of a script. -/
def lexemes (src : List UInt8) : List Lexeme := lexemesLoop src.length src

/-! ## A lexeme uses up source -/

theorem length_dropWhile_le (p : UInt8 → Bool) (src : List UInt8) :
    (src.dropWhile p).length ≤ src.length :=
  (List.dropWhile_sublist p).length_le

theorem length_tail_lt {src : List UInt8} (h : peek src ≠ 0) : src.tail.length < src.length := by
  cases src with
  | nil => exact absurd rfl h
  | cons c src => exact Nat.lt_succ_self _

theorem length_skipWhitespaceLoop_le (n : Nat) (src : List UInt8) :
    (skipWhitespaceLoop n src).length ≤ src.length := by
  induction n generalizing src with
  | zero => exact Nat.le_refl _
  | succ n ih =>
      rw [skipWhitespaceLoop]
      split
      · exact (ih _).trans (length_dropWhile_le _ src)
      · split
        · exact (ih _).trans (List.length_tail ▸ Nat.sub_le _ 1)
        · exact Nat.le_refl _

theorem length_digits_le (src : List UInt8) (n : BitVec 64) :
    (digits src n).1.length ≤ src.length := by
  induction src generalizing n with
  | nil => exact Nat.le_refl _
  | cons c src ih =>
      rw [digits]
      split
      · exact (ih _).trans (Nat.le_succ _)
      · exact Nat.le_refl _

theorem length_pair_lt {src : List UInt8} (h : peek src ≠ 0) (second : UInt8) (both alone : Token) :
    (pair src second both alone).1.length < src.length := by
  have htail := length_tail_lt h
  unfold pair
  split
  · exact (List.length_tail ▸ Nat.sub_le _ 1 : src.tail.tail.length ≤ _).trans_lt htail
  · exact htail

theorem length_operator_lt {src : List UInt8} (h : peek src ≠ 0) :
    (operator src).1.length < src.length := by
  unfold operator
  dsimp only
  split_ifs
  · exact length_pair_lt h _ _ _
  · exact length_pair_lt h _ _ _
  · exact length_pair_lt h _ _ _
  · exact length_pair_lt h _ _ _
  · exact length_pair_lt h _ _ _
  · exact length_pair_lt h _ _ _
  · exact length_tail_lt h

theorem length_digits_lt {src : List UInt8} (h : isDigit (peek src) = true) :
    (digits src 0).1.length < src.length := by
  cases src with
  | nil => exact absurd h (by decide)
  | cons c src =>
      change isDigit c = true at h
      rw [digits, if_pos h]
      exact Nat.lt_succ_of_le (length_digits_le src _)

theorem length_dropWhile_lt {p : UInt8 → Bool} {src : List UInt8} (hsrc : peek src ≠ 0)
    (h : p (peek src) = true) : (src.dropWhile p).length < src.length := by
  cases src with
  | nil => exact absurd rfl hsrc
  | cons c src =>
      change p c = true at h
      rw [List.dropWhile_cons, if_pos h]
      exact Nat.lt_succ_of_le (length_dropWhile_le p src)

theorem length_lexeme_lt {src rest : List UInt8} {l : Lexeme} (h : lexeme src = some (l, rest)) :
    rest.length < src.length := by
  have hskip : (skipWhitespace src).length ≤ src.length := length_skipWhitespaceLoop_le _ src
  unfold lexeme at h
  dsimp only at h
  generalize skipWhitespace src = src' at h hskip
  refine Nat.lt_of_lt_of_le ?_ hskip
  split at h
  · cases h
  · rename_i hc
    have htail := length_tail_lt hc
    split at h
    · cases h
      have hdrop := length_dropWhile_le inString src'.tail
      split
      · rw [List.length_tail]
        omega
      · omega
    · split at h
      · rename_i hdigit
        cases h
        exact length_digits_lt hdigit
      · split at h
        · rename_i hname
          cases h
          refine length_dropWhile_lt hc ?_
          rw [isNamePart, hname, Bool.true_or]
        · cases h
          exact length_operator_lt hc

/-! ## A turn adds a lexeme -/

namespace Tables

/-- What a turn of the tokenizer does to the tables. -/
def add (t : Tables) : Lexeme → Except Fault Tables
  | .string text => do
      let t' ← (text.foldl store t).terminate
      t'.put .string (BitVec.ofNat 64 t.strpos)
  | .number v => t.put .number v
  | .name text => do
      let t' ← (text.foldl store t).terminate
      t'.put (keyword (t'.name t.strpos)) (BitVec.ofNat 64 t.strpos)
  | .operator tok => t.put tok 0

/-- What several turns do. -/
def addAll (t : Tables) (ls : List Lexeme) : Except Fault Tables := ls.foldlM add t

end Tables

theorem storeWhile_eq (p : UInt8 → Bool) (src : List UInt8) (t : Tables) :
    storeWhile p src t = (src.dropWhile p, (src.takeWhile p).foldl Tables.store t) := by
  induction src generalizing t with
  | nil => rfl
  | cons c src ih =>
      rw [storeWhile, List.dropWhile_cons, List.takeWhile_cons]
      split
      · exact ih (t.store c)
      · rfl

/-- One turn. -/
theorem tokenizeLoop_succ (n : Nat) (src : List UInt8) (t : Tables) :
    tokenizeLoop (n + 1) src t =
      (match lexeme src with
      | none => t.put .eof 0
      | some (l, rest) => do
          let t ← t.add l
          if l.isOperator ∧ maxTokens - 1 ≤ t.count then t.put .eof 0
          else tokenizeLoop n rest t) := by
  rw [tokenizeLoop]
  unfold lexeme
  dsimp only
  generalize skipWhitespace src = src'
  simp only [storeWhile_eq]
  by_cases hend : peek src' = 0
  · rw [if_pos hend, if_pos hend]
  · rw [if_neg hend, if_neg hend]
    by_cases hstring : peek src' = ch '"'
    · rw [if_pos hstring, if_pos hstring]
      simp only [Tables.add, Lexeme.isOperator, bind_assoc, Bool.false_eq_true, false_and, if_false]
    · rw [if_neg hstring, if_neg hstring]
      by_cases hdigit : isDigit (peek src') = true
      · rw [if_pos hdigit, if_pos hdigit]
        simp only [Tables.add, Lexeme.isOperator, Bool.false_eq_true, false_and, if_false]
      · rw [if_neg hdigit, if_neg hdigit]
        by_cases hname : isNameStart (peek src') = true
        · rw [if_pos hname, if_pos hname]
          simp only [Tables.add, Lexeme.isOperator, bind_assoc, Bool.false_eq_true, false_and,
            if_false]
        · rw [if_neg hname, if_neg hname]
          simp only [Tables.add, Lexeme.isOperator, true_and]

/-- The lexemes that are read before the capacity is tested with success: `k` tokens are in
the table already. -/
def untilFull : Nat → List Lexeme → List Lexeme
  | _, [] => []
  | k, l :: ls =>
      if l.isOperator ∧ maxTokens - 1 ≤ k + 1 then [l] else l :: untilFull (k + 1) ls

namespace Tables

variable {t t' : Tables} {l : Lexeme} {ls : List Lexeme}

theorem addAll_cons (t : Tables) (l : Lexeme) (ls : List Lexeme) :
    t.addAll (l :: ls) = t.add l >>= fun t' => t'.addAll ls := rfl

theorem addAll_snoc (t : Tables) (ls : List Lexeme) (l : Lexeme) :
    t.addAll (ls ++ [l]) = t.addAll ls >>= fun t' => t'.add l := by
  unfold addAll
  rw [List.foldlM_append]
  simp only [List.foldlM_cons, List.foldlM_nil, bind_pure]

theorem put_ok {tok : Token} {v : BitVec 64} (h : t.put tok v = .ok t') :
    t.count < maxTokens ∧ t' = { t with
      tokens := t.tokens.setIfInBounds t.count tok
      values := t.values.setIfInBounds t.count v
      count := t.count + 1 } := by
  unfold put at h
  split at h
  · rename_i hlt
    exact ⟨hlt, (Except.ok.inj h).symm⟩
  · cases h

theorem terminate_ok (h : t.terminate = .ok t') :
    t.strpos < strbufLen ∧ t' = { t with
      strbuf := t.strbuf.setIfInBounds t.strpos 0, strpos := t.strpos + 1 } := by
  unfold terminate at h
  split at h
  · rename_i hlt
    exact ⟨hlt, (Except.ok.inj h).symm⟩
  · cases h

theorem count_store (t : Tables) (text : List UInt8) : (text.foldl store t).count = t.count := by
  induction text generalizing t with
  | nil => rfl
  | cons c text ih =>
      rw [List.foldl_cons, ih, store]
      split <;> rfl

/-- A lexeme with a text is stored, and its token says where. -/
theorem add_text {text : List UInt8} (h : l.text = some text) (t : Tables) :
    ∃ tok : Tables → Token, t.add l = (text.foldl store t).terminate >>= fun t' =>
      t'.put (tok t') (BitVec.ofNat 64 t.strpos) := by
  cases l with
  | string text' =>
      cases h
      exact ⟨fun _ => .string, rfl⟩
  | name text' =>
      cases h
      exact ⟨fun t' => keyword (t'.name t.strpos), rfl⟩
  | number v => cases h
  | operator tok => cases h

/-- A lexeme without a text is a token alone. -/
theorem add_plain (h : l.text = none) (t : Tables) : ∃ tok v, t.add l = t.put tok v := by
  cases l with
  | string text => cases h
  | name text => cases h
  | number v => exact ⟨.number, v, rfl⟩
  | operator tok => exact ⟨tok, 0, rfl⟩

/-- A turn makes one token. -/
theorem count_add (h : t.add l = .ok t') : t'.count = t.count + 1 := by
  cases htext : l.text with
  | some text =>
      obtain ⟨tok, hadd⟩ := add_text htext t
      rw [hadd] at h
      obtain ⟨t₁, hterminate, hput⟩ := bind_eq_ok h
      obtain ⟨-, rfl⟩ := terminate_ok hterminate
      obtain ⟨-, rfl⟩ := put_ok hput
      exact congrArg (· + 1) (count_store t text)
  | none =>
      obtain ⟨tok, v, hadd⟩ := add_plain htext t
      rw [hadd] at h
      obtain ⟨-, rfl⟩ := put_ok h
      rfl

end Tables

/-- The loop adds the lexemes until the table is full, and an `Eof`. -/
theorem tokenizeLoop_eq {n m : Nat} {src : List UInt8} (hn : src.length < n) (hm : src.length ≤ m)
    (t : Tables) :
    tokenizeLoop n src t =
      t.addAll (untilFull t.count (lexemesLoop m src)) >>= fun t => t.put .eof 0 := by
  induction n generalizing m src t with
  | zero => cases hn
  | succ n ih =>
      rw [tokenizeLoop_succ]
      cases hlexeme : lexeme src with
      | none =>
          have hnil : lexemesLoop m src = [] := by
            cases m with
            | zero => rfl
            | succ m => rw [lexemesLoop, hlexeme]
          rw [hnil]
          rfl
      | some first =>
          obtain ⟨l, rest⟩ := first
          have hlt := length_lexeme_lt hlexeme
          obtain ⟨m, rfl⟩ := Nat.exists_eq_add_of_lt (Nat.zero_lt_of_lt (hlt.trans_le hm))
          rw [Nat.zero_add] at hm ⊢
          rw [lexemesLoop, hlexeme]
          dsimp only
          rw [untilFull]
          cases hadd : t.add l with
          | error fault =>
              split <;> rw [Tables.addAll_cons, hadd] <;> rfl
          | ok t' =>
              have hcount := Tables.count_add hadd
              rw [bind_ok, hcount]
              split
              · rw [Tables.addAll_cons, hadd]
                rfl
              · rw [Tables.addAll_cons, hadd, bind_ok, ← hcount]
                exact ih (by omega) (by omega) t'

theorem tokenize_eq (src : List UInt8) :
    tokenize src =
      Tables.empty.addAll (untilFull 0 (lexemes src)) >>= fun t => t.put .eof 0 :=
  tokenizeLoop_eq (Nat.lt_succ_self _) (Nat.le_refl _) _

/-! ## What the tables hold -/

theorem bytes_snoc (ls : List Lexeme) (l : Lexeme) : bytes (ls ++ [l]) = bytes ls + l.size := by
  simp [bytes]

theorem bytes_take_add_le {ls : List Lexeme} {i : Nat} {l : Lexeme} (h : ls[i]? = some l) :
    bytes (ls.take i) + l.size ≤ bytes ls := by
  obtain ⟨hi, rfl⟩ := List.getElem?_eq_some_iff.mp h
  have htake : bytes (ls.take (i + 1)) = bytes (ls.take i) + ls[i].size := by
    rw [List.take_succ_eq_append_getElem hi, bytes_snoc]
  have hsplit : bytes ls = bytes (ls.take (i + 1)) + bytes (ls.drop (i + 1)) := by
    conv_lhs => rw [← List.take_append_drop (i + 1) ls]
    simp only [bytes, List.map_append, List.sum_append]
  omega

theorem getElem?_snoc_of_ge {α : Type} {ls : List α} {l l' : α} {i : Nat}
    (h : (ls ++ [l])[i]? = some l') (hge : ls.length ≤ i) : i = ls.length ∧ l' = l := by
  rw [List.getElem?_append_right hge, List.getElem?_singleton] at h
  split at h
  · rename_i hzero
    exact ⟨by omega, (Option.some.inj h).symm⟩
  · cases h

namespace Tables

/-- In the string buffer, from `start` on, is the text with a NUL behind it. -/
def Run (t : Tables) (start : Nat) (text : List UInt8) : Prop :=
  ∀ j ≤ text.length, t.strbuf[start + j]? = (text ++ [0])[j]?

/-- What the tables hold after some lexemes: each text for which there was room begins where
those before it end. -/
structure Holds (t : Tables) (ls : List Lexeme) : Prop where
  count : t.count = ls.length
  strpos : t.strpos = min (bytes ls) strbufLen
  value : ∀ i l, ls[i]? = some l → l.text ≠ none →
    t.values[i]? = some (BitVec.ofNat 64 (bytes (ls.take i)))
  run : ∀ i l text, ls[i]? = some l → l.text = some text →
    bytes (ls.take i) + text.length < strbufLen → t.Run (bytes (ls.take i)) text

variable {t t' : Tables} {l : Lexeme} {ls : List Lexeme} {text : List UInt8}

/-- A full buffer takes nothing. -/
theorem store_full (h : t.strpos = strbufLen) (text : List UInt8) : text.foldl store t = t := by
  induction text with
  | nil => rfl
  | cons c text ih =>
      have hstore : t.store c = t := if_neg (by rw [h]; decide)
      rw [List.foldl_cons, hstore, ih]

/-- What storing a text does: nothing before the position changes, and behind it is as much
of the text as there is room for. -/
theorem store_text (t : Tables) (text : List UInt8) (h : t.strpos ≤ 255) :
    (text.foldl store t).strpos = min (t.strpos + text.length) 255 ∧
      (text.foldl store t).values = t.values ∧
      (∀ i < t.strpos, (text.foldl store t).strbuf[i]? = t.strbuf[i]?) ∧
      (t.strpos + text.length ≤ 255 → ∀ j < text.length,
        (text.foldl store t).strbuf[t.strpos + j]? = text[j]?) := by
  induction text generalizing t with
  | nil => exact ⟨(Nat.min_eq_left h).symm, rfl, fun _ _ => rfl, fun _ j hj => absurd hj (by simp)⟩
  | cons c text ih =>
      rw [List.foldl_cons, List.length_cons]
      by_cases hroom : t.strpos < 255
      · have hstore : t.store c =
            { t with strbuf := t.strbuf.setIfInBounds t.strpos c, strpos := t.strpos + 1 } :=
          if_pos hroom
        rw [hstore]
        obtain ⟨hpos, hvalues, hbefore, htext⟩ :=
          ih { t with strbuf := t.strbuf.setIfInBounds t.strpos c, strpos := t.strpos + 1 } hroom
        dsimp only at hpos hvalues hbefore htext
        refine ⟨by omega, hvalues, ?_, ?_⟩
        · intro i hi
          rw [hbefore i (by omega), Vector.getElem?_setIfInBounds_ne (by omega)]
        · intro hfits j hj
          cases j with
          | zero =>
              refine (hbefore t.strpos (Nat.lt_succ_self _)).trans ?_
              exact Vector.getElem?_setIfInBounds_self_of_lt (hroom.trans (by decide))
          | succ j =>
              have hrest := htext (by omega) j (by omega)
              rw [Nat.add_right_comm] at hrest
              rw [← Nat.add_assoc, hrest]
              rfl
      · have hstore : t.store c = t := if_neg hroom
        rw [hstore]
        obtain ⟨hpos, hvalues, hbefore, -⟩ := ih t h
        exact ⟨by omega, hvalues, hbefore, fun hfits => by omega⟩

/-- Storing a text and its NUL. -/
theorem terminate_text (h : (text.foldl store t).terminate = .ok t') (hpos : t.strpos ≤ 255) :
    t'.strpos = min (t.strpos + text.length + 1) strbufLen ∧ t'.values = t.values ∧
      t'.count = t.count ∧ (∀ i < t.strpos, t'.strbuf[i]? = t.strbuf[i]?) ∧
      (t.strpos + text.length < strbufLen → t'.Run t.strpos text) := by
  obtain ⟨hstrpos, hvalues, hbefore, htext⟩ := store_text t text hpos
  have hcount := count_store t text
  have hlen : strbufLen = 256 := rfl
  obtain ⟨-, rfl⟩ := terminate_ok h
  dsimp only
  refine ⟨by omega, hvalues, hcount, ?_, ?_⟩
  · intro i hi
    rw [Vector.getElem?_setIfInBounds_ne (by omega), hbefore i hi]
  · intro hfits j hj
    dsimp only
    have hend : (text.foldl store t).strpos = t.strpos + text.length := by omega
    rcases Nat.lt_or_eq_of_le hj with hlt | rfl
    · rw [Vector.getElem?_setIfInBounds_ne (by omega), htext (by omega) j hlt,
        List.getElem?_append_left hlt]
    · rw [hend, Vector.getElem?_setIfInBounds_self_of_lt hfits, List.getElem?_append_right
        (Nat.le_refl _), Nat.sub_self]
      rfl

/-- The NUL of a text has a place only if the string buffer was not full before the text. -/
theorem room_of_terminate (held : t.Holds ls) (h : (text.foldl store t).terminate = .ok t') :
    bytes ls < strbufLen := by
  by_contra hfull
  have hpos : t.strpos = strbufLen := held.strpos.trans (Nat.min_eq_right (Nat.le_of_not_lt hfull))
  have hsame : text.foldl store t = t := store_full hpos text
  rw [hsame] at h
  exact absurd (terminate_ok h).1 (by rw [hpos]; exact Nat.lt_irrefl _)

/-- There is room for a token, and if the lexeme has a text, the string buffer is not full. -/
def Room (ls : List Lexeme) (l : Lexeme) : Prop :=
  ls.length < maxTokens ∧ (l.text ≠ none → bytes ls < strbufLen)

/-- What was stored stays, and what is stored now is the last. -/
theorem Holds.snoc (held : t.Holds ls) (count : t'.count = t.count + 1)
    (strpos : t'.strpos = min (bytes ls + l.size) strbufLen)
    (values : ∀ i < t.count, t'.values[i]? = t.values[i]?)
    (strbuf : ∀ i < t.strpos, t'.strbuf[i]? = t.strbuf[i]?)
    (value : l.text ≠ none → t'.values[t.count]? = some (BitVec.ofNat 64 (bytes ls)))
    (run : ∀ text, l.text = some text → bytes ls + text.length < strbufLen →
      t'.Run (bytes ls) text) : t'.Holds (ls ++ [l]) where
  count := by rw [count, held.count, List.length_append, List.length_singleton]
  strpos := by rw [strpos, bytes_snoc]
  value i l' hl' htext := by
    rcases Nat.lt_or_ge i ls.length with hlt | hge
    · rw [List.getElem?_append_left hlt] at hl'
      rw [values i (held.count ▸ hlt), List.take_append_of_le_length hlt.le]
      exact held.value i l' hl' htext
    · obtain ⟨hi, hl⟩ := getElem?_snoc_of_ge hl' hge
      rw [hi, List.take_left, ← held.count]
      exact value (hl ▸ htext)
  run i l' text hl' htext hfits := by
    rcases Nat.lt_or_ge i ls.length with hlt | hge
    · rw [List.getElem?_append_left hlt] at hl'
      rw [List.take_append_of_le_length hlt.le] at hfits ⊢
      intro j hj
      rw [strbuf _ ?_]
      · exact held.run i l' text hl' htext hfits j hj
      · -- The text and its NUL end before the position.
        have hsize : bytes (ls.take i) + l'.size ≤ bytes ls := bytes_take_add_le hl'
        rw [Lexeme.size, htext] at hsize
        rw [held.strpos]
        dsimp only at hsize
        omega
    · obtain ⟨hi, hl⟩ := getElem?_snoc_of_ge hl' hge
      rw [hi, List.take_left] at hfits ⊢
      exact run text (hl ▸ htext) hfits

/-- A turn succeeds exactly if there is room, and then the tables hold the lexeme too. -/
theorem Holds.add (held : t.Holds ls) (h : t.add l = .ok t') : Room ls l ∧ t'.Holds (ls ++ [l]) := by
  have hcount := count_add h
  cases htext : l.text with
  | none =>
      obtain ⟨tok, v, hadd⟩ := add_plain htext t
      rw [hadd] at h
      obtain ⟨hlt, rfl⟩ := put_ok h
      have hsize : l.size = 0 := by rw [Lexeme.size, htext]
      refine ⟨⟨held.count ▸ hlt, fun hne => absurd htext hne⟩, held.snoc hcount ?_ ?_ ?_ ?_ ?_⟩
      · rw [hsize, Nat.add_zero]
        exact held.strpos
      · intro i hi
        exact Vector.getElem?_setIfInBounds_ne (by omega)
      · exact fun _ _ => rfl
      · exact fun hne => absurd htext hne
      · intro text htext'
        rw [htext] at htext'
        cases htext'
  | some text =>
      obtain ⟨tok, hadd⟩ := add_text htext t
      rw [hadd] at h
      obtain ⟨t₁, hterminate, hput⟩ := bind_eq_ok h
      have hlt : bytes ls < strbufLen := room_of_terminate held hterminate
      have hstrpos : t.strpos = bytes ls := held.strpos.trans (Nat.min_eq_left hlt.le)
      have hsize : l.size = text.length + 1 := by rw [Lexeme.size, htext]
      obtain ⟨hpos, hvalues, hcount₁, hbefore, hrun⟩ :=
        terminate_text hterminate (by rw [hstrpos]; exact Nat.le_of_lt_succ hlt)
      obtain ⟨hlt', rfl⟩ := put_ok hput
      rw [hcount₁] at hlt'
      refine ⟨⟨held.count ▸ hlt', fun _ => hlt⟩, held.snoc hcount ?_ ?_ ?_ ?_ ?_⟩
      · rw [hsize, ← hstrpos]
        exact hpos
      · intro i hi
        dsimp only
        rw [Vector.getElem?_setIfInBounds_ne (by omega), hvalues]
      · exact hbefore
      · intro _
        dsimp only
        rw [hcount₁, ← hstrpos]
        exact Vector.getElem?_setIfInBounds_self_of_lt hlt'
      · intro text' htext' hfits
        obtain rfl : text = text' := Option.some.inj (htext.symm.trans htext')
        rw [← hstrpos] at hfits ⊢
        exact hrun hfits

theorem put_of_lt (h : t.count < maxTokens) (tok : Token) (v : BitVec 64) :
    ∃ t', t.put tok v = .ok t' := ⟨_, if_pos h⟩

theorem Holds.exists_add (held : t.Holds ls) (room : Room ls l) : ∃ t', t.add l = .ok t' := by
  have hlt : t.count < maxTokens := held.count ▸ room.1
  cases htext : l.text with
  | none =>
      obtain ⟨tok, v, hadd⟩ := add_plain htext t
      rw [hadd]
      exact put_of_lt hlt tok v
  | some text =>
      obtain ⟨tok, hadd⟩ := add_text htext t
      have hbytes : bytes ls < strbufLen := room.2 (by rw [htext]; exact Option.some_ne_none text)
      have hstrpos : t.strpos = bytes ls := held.strpos.trans (Nat.min_eq_left hbytes.le)
      obtain ⟨hpos, -⟩ := store_text t text (by rw [hstrpos]; exact Nat.le_of_lt_succ hbytes)
      have hplace : (text.foldl store t).strpos < strbufLen := by
        rw [hpos]
        exact (Nat.min_le_right _ _).trans_lt (by decide)
      rw [hadd, terminate, if_pos hplace, bind_ok]
      exact put_of_lt (by rw [← count_store t text] at hlt; exact hlt) _ _

theorem holds_empty : empty.Holds [] where
  count := rfl
  strpos := rfl
  value _ _ h _ := by cases h
  run _ _ _ h _ _ := by cases h

/-- Several turns, from the empty tables on. -/
theorem addAll_holds (h : empty.addAll ls = .ok t) : t.Holds ls := by
  induction ls using List.reverseRecOn generalizing t with
  | nil =>
      cases h
      exact holds_empty
  | append_singleton ls l ih =>
      rw [addAll_snoc] at h
      obtain ⟨t₁, hinit, hlast⟩ := bind_eq_ok h
      exact ((ih hinit).add hlast).2

/-- They succeed exactly if there is room for each lexeme. -/
theorem exists_addAll_iff :
    (∃ t, empty.addAll ls = .ok t) ↔ ∀ i l, ls[i]? = some l → Room (ls.take i) l := by
  induction ls using List.reverseRecOn with
  | nil =>
      refine ⟨?_, fun _ => ⟨empty, rfl⟩⟩
      intro _ i l h
      cases h
  | append_singleton ls l ih =>
      rw [addAll_snoc]
      constructor
      · rintro ⟨t, h⟩ i l' hl'
        obtain ⟨t₁, hinit, hlast⟩ := bind_eq_ok h
        rcases Nat.lt_or_ge i ls.length with hlt | hge
        · rw [List.getElem?_append_left hlt] at hl'
          rw [List.take_append_of_le_length hlt.le]
          exact ih.mp ⟨t₁, hinit⟩ i l' hl'
        · obtain ⟨rfl, rfl⟩ := getElem?_snoc_of_ge hl' hge
          rw [List.take_left]
          exact ((addAll_holds hinit).add hlast).1
      · intro hroom
        have hbefore : ∀ i l', ls[i]? = some l' → Room (ls.take i) l' := by
          intro i l' hl'
          have hlt : i < ls.length := (List.getElem?_eq_some_iff.mp hl').1
          have hi := hroom i l' ((List.getElem?_append_left hlt).trans hl')
          rwa [List.take_append_of_le_length hlt.le] at hi
        obtain ⟨t₁, hinit⟩ := ih.mpr hbefore
        have hlast := hroom ls.length l List.getElem?_concat_length
        rw [List.take_left] at hlast
        obtain ⟨t, hadd⟩ := (addAll_holds hinit).exists_add hlast
        exact ⟨t, by rw [hinit, bind_ok, hadd]⟩

end Tables

/-! ## How far the script is read -/

/-- The table has room for the lexemes, or its last place but one is taken by an operator,
behind which nothing is read. -/
def Capacity (k : Nat) (ls : List Lexeme) : Prop :=
  k + ls.length < maxTokens ∨ ∃ l, ls[maxTokens - 2 - k]? = some l ∧ l.isOperator = true

theorem untilFull_cons (k : Nat) (l : Lexeme) (ls : List Lexeme) :
    untilFull k (l :: ls) =
      if l.isOperator ∧ maxTokens - 1 ≤ k + 1 then [l] else l :: untilFull (k + 1) ls := rfl

theorem untilFull_eq_nil {k : Nat} {ls : List Lexeme} (h : untilFull k ls = []) : ls = [] := by
  cases ls with
  | nil => rfl
  | cons l ls =>
      rw [untilFull_cons] at h
      split at h <;> cases h

theorem length_untilFull_lt_iff {k : Nat} {ls : List Lexeme} (hk : k ≤ maxTokens - 2) :
    k + (untilFull k ls).length < maxTokens ↔ Capacity k ls := by
  have hmax : maxTokens = 64 := rfl
  induction ls generalizing k with
  | nil => exact ⟨Or.inl, fun _ => Nat.lt_of_le_of_lt hk (by decide)⟩
  | cons l ls ih =>
      rw [untilFull_cons]
      split
      · rename_i hop
        have hlast : k = maxTokens - 2 := by omega
        refine ⟨fun _ => Or.inr ⟨l, ?_, hop.1⟩, fun _ => by rw [List.length_singleton]; omega⟩
        rw [hlast, Nat.sub_self]
        rfl
      · rename_i hop
        rcases Nat.lt_or_eq_of_le hk with hlt | rfl
        · have hrec := ih (k := k + 1) (by omega)
          have hindex : maxTokens - 2 - k = maxTokens - 2 - (k + 1) + 1 := by omega
          have hshift : ∀ m : Nat, k + (m + 1) = k + 1 + m := fun m => by omega
          unfold Capacity at hrec ⊢
          rw [List.length_cons, hindex, List.getElem?_cons_succ, List.length_cons,
            hshift (untilFull (k + 1) ls).length, hshift ls.length]
          exact hrec
        · -- The place is the last but one, and the lexeme is not an operator.
          have hplain : ¬l.isOperator = true := fun hyes => hop ⟨hyes, Nat.le_refl _⟩
          constructor
          · intro hshort
            rw [List.length_cons] at hshort
            have hzero : (untilFull (maxTokens - 2 + 1) ls).length = 0 := by omega
            rw [untilFull_eq_nil (List.eq_nil_of_length_eq_zero hzero)]
            exact Or.inl (Nat.lt_succ_self _)
          · rintro (hshort | ⟨l', hl', hyes⟩)
            · rw [List.length_cons] at hshort
              rw [List.eq_nil_of_length_eq_zero (l := ls) (by omega)]
              exact Nat.lt_succ_self _
            · rw [Nat.sub_self] at hl'
              cases hl'
              exact absurd hyes hplain

theorem untilFull_eq_take {k : Nat} {ls : List Lexeme} (hk : k ≤ maxTokens - 2)
    (h : k + (untilFull k ls).length < maxTokens) :
    untilFull k ls = ls.take (maxTokens - 1 - k) := by
  have hmax : maxTokens = 64 := rfl
  induction ls generalizing k with
  | nil => exact List.take_nil.symm
  | cons l ls ih =>
      rw [untilFull_cons] at h ⊢
      have hindex : maxTokens - 1 - k = maxTokens - 1 - (k + 1) + 1 := by omega
      rw [hindex, List.take_succ_cons]
      split
      · rename_i hop
        have hzero : maxTokens - 1 - (k + 1) = 0 := by omega
        rw [hzero, List.take_zero]
      · rename_i hop
        rw [if_neg hop, List.length_cons] at h
        rcases Nat.lt_or_eq_of_le hk with hlt | rfl
        · rw [ih (k := k + 1) (by omega) (by omega)]
        · have hzero : (untilFull (maxTokens - 2 + 1) ls).length = 0 := by omega
          rw [untilFull_eq_nil (List.eq_nil_of_length_eq_zero hzero), List.take_nil]
          rfl

/-! ## The stream of a script -/

/-- Where the text of a token begins. -/
def Tables.start (t : Tables) (i : Nat) : Nat := ((t.values[i]?).getD 0).toNat

/-- The name or string `text` is lexeme `i` of the script, and there is room for it: in the
table of tokens, where `Eof` takes the last place, and in the string buffer behind the texts
before it. -/
def FitsAt (src : List UInt8) (i : Nat) (text : List UInt8) : Prop :=
  ((lexemes src)[i]?).bind Lexeme.text = some text ∧ i < maxTokens - 1 ∧
    bytes ((lexemes src).take i) + text.length < strbufLen

/-- The stream ends with `Eof`, and each name or string that fits is kept: as a run of its
own, with all its bytes and a NUL, which is none of them. -/
structure Keeps (src : List UInt8) (t : Tables) : Prop where
  last : ∃ n, t.count = n + 1 ∧ t.tokens[n]? = some .eof
  run : ∀ i text, FitsAt src i text → 0 ∉ text ∧ t.Run (t.start i) text
  distinct : ∀ i j text text', i < j → FitsAt src i text → FitsAt src j text' →
    t.start i + text.length < t.start j

/-- The tokenizer does what it is for: it ends without having gone outside of a table, and
what it leaves is what the script says. -/
def TokenizesSafely (src : List UInt8) : Prop := ∃ t, tokenize src = .ok t ∧ Keeps src t

/-- There is a place for each token that is made, and in front of each name or string that is
read the string buffer is not full. -/
def Fits (ls : List Lexeme) : Prop :=
  Capacity 0 ls ∧
    ∀ i l, ls[i]? = some l → i < maxTokens - 1 → l.text ≠ none → bytes (ls.take i) < strbufLen

theorem zero_not_mem_takeWhile {p : UInt8 → Bool} (h : p 0 = false) (src : List UInt8) :
    0 ∉ src.takeWhile p := by
  intro hmem
  rw [List.mem_takeWhile_imp hmem] at h
  cases h

theorem zero_not_mem_of_lexeme {src rest text : List UInt8} {l : Lexeme}
    (h : lexeme src = some (l, rest)) (htext : l.text = some text) : 0 ∉ text := by
  unfold lexeme at h
  dsimp only at h
  split_ifs at h
  · cases h
    cases htext
    exact zero_not_mem_takeWhile (by decide) _
  · cases h
    cases htext
    exact zero_not_mem_takeWhile (by decide) _
  · cases h
    cases htext
  · cases h
    cases htext
    exact zero_not_mem_takeWhile (by decide) _
  · cases h
    cases htext

theorem zero_not_mem_of_lexemes {n i : Nat} {src text : List UInt8} {l : Lexeme}
    (h : (lexemesLoop n src)[i]? = some l) (htext : l.text = some text) : 0 ∉ text := by
  induction n generalizing src i with
  | zero => cases h
  | succ n ih =>
      rw [lexemesLoop] at h
      cases hlexeme : lexeme src with
      | none =>
          rw [hlexeme] at h
          cases h
      | some first =>
          obtain ⟨l', rest⟩ := first
          rw [hlexeme] at h
          cases i with
          | zero =>
              cases h
              exact zero_not_mem_of_lexeme hlexeme htext
          | succ i => exact ih h

theorem fitsAt_iff {src text : List UInt8} {i : Nat} :
    FitsAt src i text ↔ (∃ l, (lexemes src)[i]? = some l ∧ l.text = some text) ∧
      i < maxTokens - 1 ∧ bytes ((lexemes src).take i) + text.length < strbufLen := by
  unfold FitsAt
  rw [Option.bind_eq_some_iff]

/-- What is kept of a script is kept as its lexemes say. -/
theorem keeps_of_holds {src : List UInt8} {t t' : Tables}
    (held : t.Holds ((lexemes src).take (maxTokens - 1))) (h : t.put .eof 0 = .ok t') :
    Keeps src t' := by
  obtain ⟨hcount, rfl⟩ := Tables.put_ok h
  have hstart : ∀ i text, FitsAt src i text →
      (∃ l, ((lexemes src).take (maxTokens - 1))[i]? = some l ∧ l.text = some text) ∧
      ((lexemes src).take (maxTokens - 1)).take i = (lexemes src).take i ∧
      (Tables.start { t with
        tokens := t.tokens.setIfInBounds t.count .eof
        values := t.values.setIfInBounds t.count 0
        count := t.count + 1 } i) = bytes ((lexemes src).take i) := by
    intro i text hfits
    obtain ⟨⟨l, hl, htext⟩, hi, hbytes⟩ := fitsAt_iff.mp hfits
    have hget : ((lexemes src).take (maxTokens - 1))[i]? = some l := by
      rw [List.getElem?_take_of_lt hi, hl]
    have htake : ((lexemes src).take (maxTokens - 1)).take i = (lexemes src).take i := by
      rw [List.take_take, Nat.min_eq_left hi.le]
    have hvalue := held.value i l hget (by rw [htext]; exact Option.some_ne_none text)
    have hlt : i < t.count := by
      rw [held.count]
      exact (List.getElem?_eq_some_iff.mp hget).1
    refine ⟨⟨l, hget, htext⟩, htake, ?_⟩
    rw [htake] at hvalue
    unfold Tables.start
    dsimp only
    rw [Vector.getElem?_setIfInBounds_ne (Nat.ne_of_gt hlt), hvalue, Option.getD_some,
      BitVec.toNat_ofNat]
    refine Nat.mod_eq_of_lt ?_
    calc bytes ((lexemes src).take i) ≤ _ := Nat.le_add_right _ text.length
      _ < strbufLen := hbytes
      _ < 2 ^ 64 := by decide
  refine ⟨⟨t.count, rfl, Vector.getElem?_setIfInBounds_self_of_lt hcount⟩, ?_, ?_⟩
  · intro i text hfits
    obtain ⟨⟨l, hget, htext⟩, htake, heq⟩ := hstart i text hfits
    obtain ⟨⟨l', hl', htext'⟩, -, hbytes⟩ := fitsAt_iff.mp hfits
    refine ⟨zero_not_mem_of_lexemes hl' htext', ?_⟩
    rw [heq]
    have hrun := held.run i l text hget htext (by rw [htake]; exact hbytes)
    rw [htake] at hrun
    exact hrun
  · intro i j text text' hij hfits hfits'
    obtain ⟨-, -, heq⟩ := hstart i text hfits
    obtain ⟨-, -, heq'⟩ := hstart j text' hfits'
    obtain ⟨⟨l, hl, htext⟩, -, -⟩ := fitsAt_iff.mp hfits
    have hget : ((lexemes src).take j)[i]? = some l := by rw [List.getElem?_take_of_lt hij, hl]
    have hsize := bytes_take_add_le hget
    rw [List.take_take, Nat.min_eq_left hij.le, Lexeme.size, htext] at hsize
    rw [heq, heq']
    exact hsize

/-- The loop ends on every script: with the tables, or where an index is outside of one. -/
theorem tokenize_ends (src : List UInt8) :
    (∃ t, tokenize src = .ok t) ∨ tokenize src = .error .panic := by
  have hput : ∀ (t : Tables) (tok : Token) (v : BitVec 64), t.put tok v ≠ .error .fuel := by
    intro t tok v h
    unfold Tables.put at h
    split at h <;> cases h
  have hadd : ∀ (t : Tables) (l : Lexeme), t.add l ≠ .error .fuel := by
    intro t l h
    cases htext : l.text with
    | none =>
        obtain ⟨tok, v, heq⟩ := Tables.add_plain htext t
        exact hput t tok v (heq.symm.trans h)
    | some text =>
        obtain ⟨tok, heq⟩ := Tables.add_text htext t
        rw [heq, Tables.terminate] at h
        split at h
        · exact hput _ _ _ h
        · cases h
  have haddAll : ∀ (ls : List Lexeme) (t : Tables), t.addAll ls ≠ .error .fuel := by
    intro ls
    induction ls with
    | nil =>
        intro t h
        cases h
    | cons l ls ih =>
        intro t h
        rw [Tables.addAll_cons] at h
        cases hfirst : t.add l with
        | ok t' =>
            rw [hfirst] at h
            exact ih t' h
        | error fault =>
            rw [hfirst] at h
            cases h
            exact hadd t l hfirst
  rw [tokenize_eq]
  cases hall : Tables.empty.addAll (untilFull 0 (lexemes src)) with
  | ok t =>
      rw [bind_ok]
      cases hlast : t.put .eof 0 with
      | ok t' => exact Or.inl ⟨t', rfl⟩
      | error fault =>
          cases fault with
          | panic => exact Or.inr rfl
          | fuel => exact absurd hlast (hput _ _ _)
  | error fault =>
      cases fault with
      | panic => exact Or.inr rfl
      | fuel => exact absurd hall (haddAll _ _)

/-- The tokenizer does what it is for exactly on the scripts that fit. -/
theorem tokenizesSafely_iff (src : List UInt8) : TokenizesSafely src ↔ Fits (lexemes src) := by
  have hzero : ∀ ls : List Lexeme, 0 + (untilFull 0 ls).length = (untilFull 0 ls).length :=
    fun ls => Nat.zero_add _
  constructor
  · rintro ⟨t', htokenize, -⟩
    rw [tokenize_eq] at htokenize
    obtain ⟨t, hadd, hput⟩ := bind_eq_ok htokenize
    have hlt := (Tables.put_ok hput).1
    rw [(Tables.addAll_holds hadd).count, ← hzero] at hlt
    refine ⟨(length_untilFull_lt_iff (Nat.zero_le _)).mp hlt, ?_⟩
    have hroom := Tables.exists_addAll_iff.mp ⟨t, hadd⟩
    rw [untilFull_eq_take (Nat.zero_le _) hlt, Nat.sub_zero] at hroom
    intro i l hl hi htext
    have hbytes := (hroom i l (by rw [List.getElem?_take_of_lt hi, hl])).2 htext
    rwa [List.take_take, Nat.min_eq_left hi.le] at hbytes
  · rintro ⟨hcapacity, htexts⟩
    have hlt := (length_untilFull_lt_iff (Nat.zero_le _)).mpr hcapacity
    have htake := untilFull_eq_take (Nat.zero_le _) hlt
    rw [Nat.sub_zero] at htake
    have hroom : ∀ i l, (untilFull 0 (lexemes src))[i]? = some l →
        Tables.Room ((untilFull 0 (lexemes src)).take i) l := by
      intro i l hl
      have hlen : i < (untilFull 0 (lexemes src)).length := (List.getElem?_eq_some_iff.mp hl).1
      rw [htake] at hl ⊢
      rw [hzero] at hlt
      have hi : i < maxTokens - 1 := by omega
      rw [List.getElem?_take_of_lt hi] at hl
      rw [List.take_take, Nat.min_eq_left hi.le]
      refine ⟨?_, htexts i l hl hi⟩
      exact (List.length_take_le i _).trans_lt (hi.trans (by decide))
    obtain ⟨t, hadd⟩ := Tables.exists_addAll_iff.mpr hroom
    have held := Tables.addAll_holds hadd
    obtain ⟨t', hput⟩ := Tables.put_of_lt (t := t) (by rw [held.count, ← hzero]; exact hlt) .eof 0
    rw [htake] at held
    exact ⟨t', by rw [tokenize_eq, hadd, bind_ok, hput], keeps_of_holds held hput⟩

/-- A script of 64 numbers has no place for its `Eof`. -/
theorem not_tokenizesSafely_numbers :
    ¬∀ src, TokenizesSafely src := by
  intro hall
  obtain ⟨t, htokenize, -⟩ := hall (List.replicate 64 (ascii "1 ")).flatten
  have hpanic : (tokenize (List.replicate 64 (ascii "1 ")).flatten).toBool = false := by
    decide +kernel
  rw [htokenize] at hpanic
  cases hpanic

end PureOS.Interp
