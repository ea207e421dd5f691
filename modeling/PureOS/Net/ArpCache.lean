import Mathlib.Data.List.FinRange
import PureOS.Foundation.Eviction
import PureOS.Foundation.Slots
import PureOS.Net.State

set_option autoImplicit false

/-!
# Net: the cache of addresses as a queue (`net/eth.rs`)

The array holds the addresses that came last, the oldest first, each with the address
of its latest announcement; behind them are the slots that have never been used.
-/

namespace PureOS.Net

open PureOS.Foundation

/-- The cache after the calls of `arp_cache_add`, from the first to the last. -/
def cacheAfter (adds : List (Ip × Mac)) : ArpCache :=
  adds.foldl (fun cache a => arpCacheAdd cache a.1 a.2) Stack.init.arp

/-- The entry in a slot. -/
abbrev slot (cache : ArpCache) (i : Fin maxArp) : ArpEntry := getElem cache i i.isLt

/-- The array is the queue that the calls have left. -/
structure Queued (cache : ArpCache) (adds : List (Ip × Mac)) : Prop where
  /-- What is held is in the first slots, in order. -/
  used : ∀ (i : Fin maxArp) (h : i.val < (held maxArp adds).length),
    (slot cache i).valid = true ∧ (slot cache i).ip = (held maxArp adds)[i.val] ∧
      latest adds (slot cache i).ip = some (slot cache i).mac
  /-- The other slots are free. -/
  free : ∀ i : Fin maxArp, (held maxArp adds).length ≤ i.val → (slot cache i).valid = false

namespace Queued

variable {cache : ArpCache} {adds : List (Ip × Mac)} {ip : Ip} {mac : Mac} {i j : Fin maxArp}

theorem valid_iff (h : Queued cache adds) :
    (slot cache i).valid = true ↔ i.val < (held maxArp adds).length := by
  constructor
  · intro hi
    by_contra hlt
    rw [h.free i (Nat.le_of_not_lt hlt)] at hi
    cases hi
  · intro hi
    exact (h.used i hi).1

/-- The test of the loops finds a slot exactly where the address is held. -/
theorem test_iff (h : Queued cache adds) :
    ((slot cache i).valid && ipEq (slot cache i).ip ip) = true ↔
      ∃ hi : i.val < (held maxArp adds).length, (held maxArp adds)[i.val] = ip := by
  rw [Bool.and_eq_true, h.valid_iff, ipEq, beq_iff_eq]
  constructor
  · rintro ⟨hi, heq⟩
    exact ⟨hi, by rw [← (h.used i hi).2.1, heq]⟩
  · rintro ⟨hi, heq⟩
    exact ⟨hi, by rw [(h.used i hi).2.1, heq]⟩

/-- The search for an address that is held. -/
theorem find_of_mem (h : Queued cache adds) (hmem : ip ∈ held maxArp adds) :
    ∃ (i : Fin maxArp) (hi : i.val < (held maxArp adds).length), (held maxArp adds)[i.val] = ip ∧
      ((List.finRange maxArp).find? fun i => cache[i].valid && ipEq cache[i].ip ip) = some i := by
  obtain ⟨n, hn, hget⟩ := List.getElem_of_mem hmem
  have hcap : n < maxArp := Nat.lt_of_lt_of_le hn length_held_le
  refine ⟨⟨n, hcap⟩, hn, hget, ?_⟩
  apply firstSlot_of_unique (p := fun e : ArpEntry => e.valid && ipEq e.ip ip)
    (h.test_iff.mpr ⟨hn, hget⟩)
  intro j hj
  obtain ⟨hjlt, hjget⟩ := h.test_iff.mp hj
  exact Fin.ext ((List.Nodup.getElem_inj_iff (nodup_held (by decide))).mp (hjget.trans hget.symm))

/-- The search for an address that is not held. -/
theorem find_of_not_mem (h : Queued cache adds) (hmem : ip ∉ held maxArp adds) :
    ((List.finRange maxArp).find? fun i => (slot cache i).valid && ipEq (slot cache i).ip ip) =
      none := by
  apply firstSlot_eq_none (p := fun e : ArpEntry => e.valid && ipEq e.ip ip).mpr
  intro i
  rw [Bool.eq_false_iff, Ne, h.test_iff]
  rintro ⟨hi, rfl⟩
  exact hmem (List.getElem_mem hi)

/-- The search for a free slot finds the one behind the queue. -/
theorem find_free (h : Queued cache adds) (hroom : (held maxArp adds).length < maxArp) :
    ((List.finRange maxArp).find? fun i => !cache[i].valid) =
      some ⟨(held maxArp adds).length, hroom⟩ := by
  cases hfind : (List.finRange maxArp).find? fun i => !cache[i].valid with
  | none =>
      have hnone := firstSlot_eq_none (p := fun e : ArpEntry => !e.valid).mp hfind ⟨_, hroom⟩
      rw [h.free ⟨_, hroom⟩ (Nat.le_refl _)] at hnone
      cases hnone
  | some i =>
      have hi := firstSlot_eq_some (p := fun e : ArpEntry => !e.valid) hfind
      rw [Bool.not_eq_true'] at hi
      have hge : (held maxArp adds).length ≤ i.val := by
        by_contra hlt
        rw [h.valid_iff.mpr (Nat.lt_of_not_le hlt)] at hi
        cases hi
      have hle : i.val ≤ (held maxArp adds).length := by
        by_contra hlt
        have hleast := firstSlot_least (p := fun e : ArpEntry => !e.valid) hfind
          (j := ⟨_, hroom⟩) (Nat.lt_of_not_le hlt)
        rw [h.free ⟨_, hroom⟩ (Nat.le_refl _)] at hleast
        cases hleast
      rw [Fin.ext (Nat.le_antisymm hle hge : i.val = (⟨_, hroom⟩ : Fin maxArp).val)]

/-- No slot is free in a full cache. -/
theorem find_full (h : Queued cache adds) (hfull : maxArp ≤ (held maxArp adds).length) :
    ((List.finRange maxArp).find? fun i => !cache[i].valid) = none := by
  apply firstSlot_eq_none (p := fun e : ArpEntry => !e.valid).mpr
  intro i
  rw [h.valid_iff.mpr (Nat.lt_of_lt_of_le i.isLt hfull)]
  rfl

/-- An address that is held gets its new value where it is. -/
theorem add_of_mem (h : Queued cache adds) (hmem : ip ∈ held maxArp adds) :
    Queued (arpCacheAdd cache ip mac) (adds ++ [(ip, mac)]) := by
  obtain ⟨n, hn, hget, hfind⟩ := h.find_of_mem hmem
  have hadd : arpCacheAdd cache ip mac = cache.set n { cache[n] with mac := mac } := by
    rw [arpCacheAdd, hfind]
  have hself : slot (cache.set n { cache[n] with mac := mac }) n = { cache[n] with mac := mac } :=
    Vector.getElem_set_self n.isLt
  have hother : ∀ i : Fin maxArp, i ≠ n →
      slot (cache.set n { cache[n] with mac := mac }) i = slot cache i := by
    intro i hi
    exact Vector.getElem_set_ne n.isLt i.isLt fun heq => hi (Fin.ext heq.symm)
  rw [hadd]
  constructor
  · intro i hi
    simp only [held_snoc_of_mem hmem] at hi ⊢
    obtain ⟨hvalid, hip, hlatest⟩ := h.used i hi
    by_cases heq : i = n
    · subst heq
      rw [hself]
      refine ⟨hvalid, hip, ?_⟩
      change latest (adds ++ [(ip, mac)]) (slot cache i).ip = some mac
      rw [hip, hget, latest_snoc_self]
    · rw [hother i heq]
      refine ⟨hvalid, hip, ?_⟩
      rw [latest_snoc_of_ne, hlatest]
      intro hsame
      rw [hip, ← hget] at hsame
      exact heq (Fin.ext ((List.Nodup.getElem_inj_iff (nodup_held (by decide))).mp hsame))
  · intro i hi
    rw [held_snoc_of_mem hmem] at hi
    rw [hother i fun heq => Nat.not_lt.mpr hi (heq ▸ hn)]
    exact h.free i hi

/-- A new address goes behind the queue. -/
theorem add_of_room (h : Queued cache adds) (hmem : ip ∉ held maxArp adds)
    (hroom : (held maxArp adds).length < maxArp) :
    Queued (arpCacheAdd cache ip mac) (adds ++ [(ip, mac)]) := by
  let entry : ArpEntry := { ip := ip, mac := mac, valid := true }
  let n : Fin maxArp := ⟨(held maxArp adds).length, hroom⟩
  have hadd : arpCacheAdd cache ip mac = cache.set n entry := by
    rw [arpCacheAdd, h.find_of_not_mem hmem, h.find_free hroom]
  have hself : slot (cache.set n entry) n = entry := Vector.getElem_set_self n.isLt
  have hother : ∀ i : Fin maxArp, i.val ≠ n.val → slot (cache.set n entry) i = slot cache i :=
    fun i hi => Vector.getElem_set_ne n.isLt i.isLt hi.symm
  have hheld := held_snoc_of_room (b := mac) hmem hroom
  rw [hadd]
  constructor
  · intro i hi
    simp only [hheld] at hi ⊢
    rw [List.length_append, List.length_singleton] at hi
    rcases Nat.lt_or_eq_of_le (Nat.le_of_lt_succ hi) with hlt | heq
    · obtain ⟨hvalid, hip, hlatest⟩ := h.used i hlt
      rw [hother i (Nat.ne_of_lt hlt)]
      refine ⟨hvalid, ?_, ?_⟩
      · rw [List.getElem_append_left hlt, hip]
      · rw [latest_snoc_of_ne, hlatest]
        intro hsame
        rw [hip] at hsame
        exact hmem (hsame ▸ List.getElem_mem hlt)
    · obtain rfl : i = n := Fin.ext heq
      rw [hself]
      refine ⟨rfl, ?_, latest_snoc_self⟩
      rw [List.getElem_append_right (Nat.le_of_eq heq.symm), List.getElem_singleton]
  · intro i hi
    rw [hheld, List.length_append, List.length_singleton] at hi
    rw [hother i (Nat.ne_of_gt hi)]
    exact h.free i (Nat.le_of_succ_le hi)

/-- When the cache is full, the oldest address makes room and the others move up. -/
theorem add_of_full (h : Queued cache adds) (hmem : ip ∉ held maxArp adds)
    (hfull : (held maxArp adds).length = maxArp) :
    Queued (arpCacheAdd cache ip mac) (adds ++ [(ip, mac)]) := by
  have hheld := held_snoc_of_full (b := mac) hmem hfull (by decide)
  have hlength : ((held maxArp adds).tail ++ [ip]).length = maxArp := by
    rw [List.length_append, List.length_tail, hfull, List.length_singleton]
    rfl
  have hadd : ∀ i : Fin maxArp, slot (arpCacheAdd cache ip mac) i =
      if h : i.val + 1 < maxArp then cache[i.val + 1]
      else { ip := ip, mac := mac, valid := true } := by
    intro i
    rw [arpCacheAdd, h.find_of_not_mem hmem, h.find_full (Nat.le_of_eq hfull.symm)]
    exact Vector.getElem_ofFn i.isLt
  constructor
  · intro i _
    simp only [hheld]
    rw [hadd i]
    by_cases hlast : i.val + 1 < maxArp
    · rw [dif_pos hlast]
      obtain ⟨hvalid, hip, hlatest⟩ := h.used ⟨i.val + 1, hlast⟩ (by rw [hfull]; exact hlast)
      have hip' : cache[i.val + 1].ip = (held maxArp adds)[i.val + 1] := hip
      have htail : i.val < (held maxArp adds).tail.length := by
        rw [List.length_tail, hfull]
        omega
      refine ⟨hvalid, ?_, ?_⟩
      · rw [List.getElem_append_left htail, List.getElem_tail, hip']
      · rw [latest_snoc_of_ne]
        · exact hlatest
        · intro hsame
          rw [hip'] at hsame
          exact hmem (hsame ▸ List.getElem_mem _)
    · rw [dif_neg hlast]
      have hend : (held maxArp adds).tail.length ≤ i.val := by
        rw [List.length_tail, hfull]
        omega
      refine ⟨rfl, ?_, latest_snoc_self⟩
      rw [List.getElem_append_right hend, List.getElem_singleton]
  · intro i hi
    rw [hheld, hlength] at hi
    exact absurd i.isLt (Nat.not_lt.mpr hi)

/-- A call keeps the array the queue of the calls. -/
theorem add (h : Queued cache adds) : Queued (arpCacheAdd cache ip mac) (adds ++ [(ip, mac)]) := by
  by_cases hmem : ip ∈ held maxArp adds
  · exact h.add_of_mem hmem
  · rcases Nat.lt_or_ge (held maxArp adds).length maxArp with hroom | hfull
    · exact h.add_of_room hmem hroom
    · exact h.add_of_full hmem (Nat.le_antisymm length_held_le hfull)

/-- What the lookup finds. -/
theorem lookup (h : Queued cache adds) :
    arpCacheLookup cache ip = if ip ∈ held maxArp adds then latest adds ip else none := by
  by_cases hmem : ip ∈ held maxArp adds
  · obtain ⟨i, hi, hget, hfind⟩ := h.find_of_mem hmem
    obtain ⟨-, hip, hlatest⟩ := h.used i hi
    rw [arpCacheLookup, hfind, if_pos hmem, Option.map_some, ← hlatest, hip, hget]
  · rw [arpCacheLookup, h.find_of_not_mem hmem, if_neg hmem, Option.map_none]

/-- The addresses of the slots in use are the queue. -/
theorem addresses (h : Queued cache adds) :
    (cache.toList.filter (·.valid)).map (·.ip) = held maxArp adds := by
  have hlength : cache.toList.length = maxArp := Vector.length_toList
  have hget : ∀ (i : Nat) (hi : i < cache.toList.length),
      cache.toList[i] = cache[(⟨i, hlength ▸ hi⟩ : Fin maxArp)] := by
    intro i hi
    exact Vector.getElem_toList hi
  have hused : (cache.toList.take (held maxArp adds).length).filter (·.valid) =
      cache.toList.take (held maxArp adds).length := by
    rw [List.filter_eq_self]
    intro e he
    obtain ⟨i, hi, rfl⟩ := List.getElem_of_mem he
    rw [List.length_take] at hi
    rw [List.getElem_take, hget]
    exact (h.used _ (Nat.lt_of_lt_of_le hi (Nat.min_le_left _ _))).1
  have hfree : (cache.toList.drop (held maxArp adds).length).filter (·.valid) = [] := by
    rw [List.filter_eq_nil_iff]
    intro e he
    obtain ⟨i, hi, rfl⟩ := List.getElem_of_mem he
    rw [List.getElem_drop, hget, h.free _ (Nat.le_add_right _ _)]
    exact Bool.false_ne_true
  rw [← List.take_append_drop (held maxArp adds).length cache.toList, List.filter_append, hused,
    hfree, List.append_nil]
  apply List.ext_getElem
  · rw [List.length_map, List.length_take, hlength, Nat.min_eq_left length_held_le]
  · intro i hi hi'
    rw [List.getElem_map, List.getElem_take, hget]
    exact (h.used _ hi').2.1

end Queued

theorem queued_init : Queued Stack.init.arp [] where
  used _ h := by
    rw [held_nil] at h
    exact absurd h (Nat.not_lt_zero _)
  free i _ := by
    have hget : slot Stack.init.arp i =
        { ip := .replicate 4 0, mac := .replicate 6 0, valid := false } :=
      Vector.getElem_replicate i.isLt
    rw [hget]

theorem queued_cacheAfter (adds : List (Ip × Mac)) : Queued (cacheAfter adds) adds := by
  induction adds using List.reverseRecOn with
  | nil => exact queued_init
  | append_singleton adds a ih =>
      rw [cacheAfter, List.foldl_append]
      exact ih.add

/-- The cache is a bounded queue of addresses: whatever the calls were, it holds the
`MAX_ARP` addresses that came in last, the oldest first and none twice, and a lookup finds
the latest announcement of each of them and nothing else. -/
theorem arpCache_isQueue (adds : List (Ip × Mac)) :
    ((cacheAfter adds).toList.filter (·.valid)).map (·.ip) = held maxArp adds ∧
      (held maxArp adds).length ≤ maxArp ∧ (held maxArp adds).Nodup ∧
      ∀ ip, arpCacheLookup (cacheAfter adds) ip =
        if ip ∈ held maxArp adds then latest adds ip else none :=
  ⟨(queued_cacheAfter adds).addresses, length_held_le, nodup_held (by decide),
    fun _ => (queued_cacheAfter adds).lookup⟩

end PureOS.Net
