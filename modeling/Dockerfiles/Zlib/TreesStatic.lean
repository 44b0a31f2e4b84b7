import Dockerfiles.Zlib.TreesCodes

/-! # The static trees and tables

The codes of the static trees, and that the tables of `trees.c` for lengths and distances
are those of `puff`.
-/

namespace Trees

open Puff (entry)
open Canonical (first Fits IsCode count len rank word)

instance (c : Nat → Nat) (m : Nat) : Decidable (Fits c m) :=
  decidable_of_iff (∀ l, l < m → first c (l + 1) + c (l + 1) ≤ 2 ^ (l + 1)) (by
    constructor
    · intro h l hl hm
      obtain ⟨l, rfl⟩ : ∃ j, l = j + 1 := ⟨l - 1, by omega⟩
      exact h l (by omega)
    · intro h l hl
      exact h (l + 1) (by omega) (by omega))

theorem len_le_of_forall {lens : List Nat} {m : Nat} (h : ∀ l ∈ lens, l ≤ m) (n : Nat) :
    len lens n ≤ m := by
  by_cases hn : n < lens.length
  · rw [Canonical.len_of_lt lens hn]
    exact h _ (List.getElem_mem hn)
  · rw [len, List.getD_eq_getElem?_getD, List.getElem?_eq_none (by omega)]
    exact Nat.zero_le m

/-! ## The static trees -/

theorem count_staticLengths :
    count staticLengths =
      fun l => if l = 7 then 24 else if l = 8 then 152 else if l = 9 then 112 else 0 := by
  funext l
  simp only [staticLengths, count, List.count_append, List.count_replicate, beq_iff_eq]
  split_ifs <;> omega

theorem length_staticLengths : staticLengths.length = 288 := by
  simp only [staticLengths, List.length_append, List.length_replicate]

theorem staticLtree_coded : Coded staticLtree staticLengths := by
  refine (@genCodes_coded { fc := List.replicate 288 0, dl := staticLengths } 287 _ staticLengths
    ?_ ?_ ?_ ⟨?_, ?_⟩ rfl ?_).1
  · exact (List.take_of_length_le length_staticLengths.le).symm
  · exact length_staticLengths.ge
  · show 287 < (List.replicate 288 0).length
    rw [List.length_replicate]
    omega
  · refine len_le_of_forall fun l hl => ?_
    simp only [staticLengths, List.mem_append, List.mem_replicate] at hl
    rw [maxBits]
    omega
  · rw [count_staticLengths]
    decide
  · rw [count_staticLengths]
    decide

/-- All symbols of the static tree have words. -/
theorem len_staticLengths {n : Nat} (hn : n < 288) : len staticLengths n ≠ 0 := by
  rw [← length_staticLengths] at hn
  have hmem : len staticLengths n ∈ staticLengths := by
    rw [Canonical.len_of_lt staticLengths hn]
    exact List.getElem_mem hn
  have hlens : ∀ l ∈ staticLengths, l ≠ 0 := by
    intro l hl
    simp only [staticLengths, List.mem_append, List.mem_replicate] at hl
    omega
  exact hlens _ hmem

theorem len_replicate_five {n : Nat} (hn : n < 30) : len (List.replicate 30 5) n = 5 := by
  rw [Canonical.len_of_lt _ (by rw [List.length_replicate]; exact hn), List.getElem_replicate]

theorem count_replicate_five : count (List.replicate 30 5) = fun l => if l = 5 then 30 else 0 := by
  funext l
  rw [count, List.count_replicate]
  simp only [beq_iff_eq, eq_comm (a := l)]

theorem staticDtree_coded : Coded staticDtree (List.replicate 30 5) where
  isCode := by
    refine ⟨len_le_of_forall fun l hl => ?_, ?_⟩
    · rw [List.mem_replicate] at hl
      rw [maxBits]
      omega
    · rw [count_replicate_five]
      decide
  dl := fun n _ => rfl
  fc := by
    intro n hn
    have hlt : n < 30 := by
      have := Canonical.lt_length_of_len_ne_zero _ hn
      rwa [List.length_replicate] at this
    have hrank : rank (List.replicate 30 5) n = n := by
      rw [rank, len_replicate_five hlt, List.take_replicate, count, List.count_replicate_self]
      omega
    have hfirst : first (count (List.replicate 30 5)) 5 = 0 := by
      rw [count_replicate_five]
      decide
    rw [word, len_replicate_five hlt, hrank, hfirst, Nat.zero_add, staticDtree, entry,
      List.getD_eq_getElem?_getD, List.getElem?_map, List.getElem?_range hlt]
    rfl

/-! ## Lengths and distances -/

theorem entry_append (a b : List Nat) (i : Nat) :
    entry (a ++ b) i = if i < a.length then entry a i else entry b (i - a.length) := by
  rw [entry, entry, entry, List.getD_eq_getElem?_getD, List.getD_eq_getElem?_getD,
    List.getD_eq_getElem?_getD]
  split
  · next h => rw [List.getElem?_append_left h]
  · next h => rw [List.getElem?_append_right (by omega)]

/-- Each value from `m` on has the code in whose range it is; the codes are numbered from
`o` on, and `x` has their extra bits. -/
def InRange (x : Nat → Nat) (o m : Nat) (base codes : List Nat) : Prop :=
  ∀ p, m ≤ p → p < codes.length → o ≤ entry codes p ∧ entry codes p < o + base.length ∧
    entry base (entry codes p - o) ≤ p ∧
    p < entry base (entry codes p - o) + 2 ^ x (entry codes p)

theorem InRange.snoc {x : Nat → Nat} {o m : Nat} {base codes : List Nat}
    (h : InRange x o m base codes) :
    InRange x o m (base ++ [codes.length])
      (codes ++ List.replicate (1 <<< x (o + base.length)) (o + base.length)) := by
  intro p hm hp
  rw [List.length_append, List.length_replicate, Nat.one_shiftLeft] at hp
  rw [entry_append, List.length_append, List.length_singleton]
  by_cases hlt : p < codes.length
  · rw [if_pos hlt]
    obtain ⟨h1, h2, h3, h4⟩ := h p hm hlt
    rw [entry_append, if_pos (by omega)]
    exact ⟨h1, by omega, h3, h4⟩
  · have hcode : entry (List.replicate (1 <<< x (o + base.length)) (o + base.length))
        (p - codes.length) = o + base.length := by
      rw [entry, List.getD_eq_getElem?_getD, List.getElem?_replicate, Nat.one_shiftLeft,
        if_pos (by omega), Option.getD_some]
    have hbase : entry (base ++ [codes.length]) (o + base.length - o) = codes.length := by
      rw [entry_append, if_neg (by omega), show o + base.length - o - base.length = 0 by omega]
      rfl
    rw [if_neg hlt, hcode, hbase]
    exact ⟨by omega, by omega, by omega, by omega⟩

theorem initCodes_inRange {x : Nat → Nat} {o m : Nat} {rest base codes : List Nat}
    (hx : ∀ i, i < rest.length → entry rest i = x (o + base.length + i))
    (h : InRange x o m base codes) :
    InRange x o m (initCodes rest (o + base.length) base codes).1
        (initCodes rest (o + base.length) base codes).2 ∧
      (initCodes rest (o + base.length) base codes).1.length = base.length + rest.length := by
  induction rest generalizing base codes with
  | nil => exact ⟨h, rfl⟩
  | cons extra rest ih =>
      have hhead : extra = x (o + base.length) := hx 0 (Nat.succ_pos _)
      have hsnoc : o + base.length + 1 = o + (base ++ [codes.length]).length := by
        rw [List.length_append, List.length_singleton]
        omega
      rw [initCodes, hhead, hsnoc]
      have hnext := @ih (base ++ [codes.length])
        (codes ++ List.replicate (1 <<< x (o + base.length)) (o + base.length)) (by
          intro i hi
          rw [← hsnoc, show o + base.length + 1 + i = o + base.length + (i + 1) by omega]
          exact hx (i + 1) (Nat.succ_lt_succ hi)) h.snoc
      refine ⟨hnext.1, hnext.2.trans ?_⟩
      rw [List.length_append, List.length_singleton, List.length_cons]
      omega

theorem inRange_lengths :
    InRange (entry extraLbits) 0 0 (initCodes (extraLbits.take 28) 0 [] []).1
      (initCodes (extraLbits.take 28) 0 [] []).2 := by
  refine (@initCodes_inRange (entry extraLbits) 0 0 (extraLbits.take 28) [] [] ?_ ?_).1
  · decide
  · intro p _ hp
    exact absurd hp (Nat.not_lt_zero p)

theorem inRange_near : InRange (entry extraDbits) 0 0 nearCodes.1 nearCodes.2 := by
  refine (@initCodes_inRange (entry extraDbits) 0 0 (extraDbits.take 16) [] [] ?_ ?_).1
  · decide
  · intro p _ hp
    exact absurd hp (Nat.not_lt_zero p)

theorem inRange_far :
    InRange (fun code => entry extraDbits code - 7) 16 2 farCodes.1 farCodes.2 := by
  refine (@initCodes_inRange (fun code => entry extraDbits code - 7) 16 2
    ((extraDbits.drop 16).map (· - 7)) [] [0, 0] ?_ ?_).1
  · decide
  · intro p hm hp
    exact absurd hp (Nat.not_lt.mpr hm)

theorem length_codes :
    (initCodes (extraLbits.take 28) 0 [] []).2.length = 256 ∧ nearCodes.2.length = 256 ∧
      farCodes.2.length = 256 := by
  decide +kernel

/-- What is sent of a length besides its code. -/
def lengthRest (lc : Nat) : Nat :=
  if entry extraLbits (entry lengthCode lc) = 0 then 0
  else lc - entry baseLength (entry lengthCode lc)

theorem lens_baseLength : ∀ code, code < 28 →
    entry baseLength code = entry (initCodes (extraLbits.take 28) 0 [] []).1 code ∧
      entry Puff.lens code = entry baseLength code + 3 := by
  decide +kernel

/-- A length is a code and what is above its base. -/
theorem lengthCode_spec {lc : Nat} (hlc : lc < 256) :
    entry lengthCode lc < 29 ∧ lengthRest lc < 2 ^ entry extraLbits (entry lengthCode lc) ∧
      entry Puff.lens (entry lengthCode lc) + lengthRest lc = lc + 3 := by
  have hlength := length_codes.1
  by_cases hlast : lc = 255
  · have hcode : entry lengthCode lc = 28 := by
      rw [lengthCode, Puff.entry_set, if_pos ⟨hlast, by omega⟩]
    have hrest : lengthRest lc = 0 := by
      rw [lengthRest, hcode]
      rfl
    rw [hrest, hcode, hlast]
    decide
  · have hcode : entry lengthCode lc = entry (initCodes (extraLbits.take 28) 0 [] []).2 lc := by
      rw [lengthCode, Puff.entry_set, if_neg (fun h => hlast h.1)]
    obtain ⟨-, hlt, hge, hin⟩ := inRange_lengths lc (Nat.zero_le lc) (by omega)
    have hbases : (initCodes (extraLbits.take 28) 0 [] []).1.length = 28 := by decide +kernel
    rw [← hcode, Nat.sub_zero] at hge hin
    rw [← hcode, hbases, Nat.zero_add] at hlt
    obtain ⟨hbase, hlens⟩ := lens_baseLength (entry lengthCode lc) hlt
    rw [← hbase] at hge hin
    have hrest : lengthRest lc = lc - entry baseLength (entry lengthCode lc) := by
      rw [lengthRest]
      split
      · next hzero =>
          rw [hzero] at hin
          omega
      · rfl
    rw [hrest, hlens]
    exact ⟨by omega, by omega, by omega⟩

theorem dists_baseDist : ∀ code, code < 30 →
    entry extraDbits code ≤ 13 ∧ entry Puff.dists code = entry baseDist code + 1 := by
  decide +kernel

theorem extraDbits_far : ∀ code, code < 30 → 16 ≤ code → 7 ≤ entry extraDbits code := by
  decide

theorem entry_map_shift (a : List Nat) (i : Nat) : entry (a.map (· <<< 7)) i = 128 * entry a i := by
  rw [entry, entry, List.getD_eq_getElem?_getD, List.getD_eq_getElem?_getD, List.getElem?_map]
  cases a[i]? with
  | none => rfl
  | some b =>
      show b <<< 7 = 128 * b
      rw [Nat.shiftLeft_eq, Nat.mul_comm]

/-- A distance is a code and what is above its base. -/
theorem dCode_spec {d : Nat} (hd : d < 32768) :
    dCode d < 30 ∧ entry baseDist (dCode d) ≤ d ∧
      d < entry baseDist (dCode d) + 2 ^ entry extraDbits (dCode d) := by
  obtain ⟨-, hnear, hfar⟩ := length_codes
  have hnear' : nearCodes.1.length = 16 := by decide +kernel
  have hfar' : farCodes.1.length = 14 := by decide +kernel
  rw [dCode]
  by_cases h : d < 256
  · obtain ⟨-, h2, h3, h4⟩ := inRange_near d (Nat.zero_le d) (by omega)
    rw [Nat.sub_zero] at h3 h4
    rw [if_pos h, distCode, entry_append, if_pos (by omega), baseDist, entry_append,
      if_pos (by omega)]
    exact ⟨by omega, h3, h4⟩
  · have hq : d >>> 7 = d / 128 := Nat.shiftRight_eq_div_pow d 7
    obtain ⟨h1, h2, h3, h4⟩ := inRange_far (d / 128) (by omega) (by omega)
    dsimp only at h4
    have hcode : entry distCode (256 + d / 128) = entry farCodes.2 (d / 128) := by
      rw [distCode, entry_append, if_neg (by omega), hnear, Nat.add_sub_cancel_left]
    have hbase : entry baseDist (entry farCodes.2 (d / 128)) =
        128 * entry farCodes.1 (entry farCodes.2 (d / 128) - 16) := by
      rw [baseDist, entry_append, if_neg (by omega), hnear', entry_map_shift]
    have hextra := extraDbits_far (entry farCodes.2 (d / 128)) (by omega) h1
    -- the ranges of the second table are in steps of 128
    have hpow : 2 ^ entry extraDbits (entry farCodes.2 (d / 128)) =
        128 * 2 ^ (entry extraDbits (entry farCodes.2 (d / 128)) - 7) := by
      rw [← Nat.pow_add 2 7, show 7 + (entry extraDbits (entry farCodes.2 (d / 128)) - 7) =
        entry extraDbits (entry farCodes.2 (d / 128)) by omega]
    rw [if_neg h, hq, hcode, hbase, hpow]
    exact ⟨by omega, by omega, by omega⟩

end Trees
