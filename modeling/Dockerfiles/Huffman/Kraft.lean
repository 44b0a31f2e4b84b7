import Dockerfiles.Huffman.Canonical
import Mathlib.Algebra.BigOperators.Group.List.Basic

/-! # Complete codes

Lengths that come from splitting nodes in two, and counts of lengths whose words use up
all the room: how both change, and that they make complete codes. The room of a word of
`l` bits is measured in half words of the longest length `m`.
-/

namespace Canonical

section Counts

variable {c d : Nat → Nat} {m : Nat}

theorem first_add (c d : Nat → Nat) (m : Nat) :
    first (fun l => c l + d l) m = first c m + first d m := by
  induction m with
  | zero => rfl
  | succ m ih =>
      cases m with
      | zero => rfl
      | succ l =>
          rw [first, first, first, ih]
          omega

theorem first_congr (h : ∀ l, 1 ≤ l → l < m → c l = d l) : first c m = first d m := by
  induction m with
  | zero => rfl
  | succ m ih =>
      cases m with
      | zero => rfl
      | succ l =>
          rw [first, first, ih fun j hj hlt => h j hj (by omega), h (l + 1) (by omega) (by omega)]

theorem index_congr (h : ∀ l, 1 ≤ l → l < m → c l = d l) : index c m = index d m := by
  induction m with
  | zero => rfl
  | succ m ih =>
      cases m with
      | zero => rfl
      | succ l =>
          rw [index, index, ih fun j hj hlt => h j hj (by omega), h (l + 1) (by omega) (by omega)]

theorem first_of_zero (h : ∀ l, 1 ≤ l → l < m → c l = 0) : first c m = 0 := by
  induction m with
  | zero => rfl
  | succ m ih =>
      cases m with
      | zero => rfl
      | succ l =>
          rw [first, ih fun j hj hlt => h j hj (by omega), h (l + 1) (by omega) (by omega)]

/-- The room of one word. -/
theorem first_single {l : Nat} (hl : 1 ≤ l) (hm : l ≤ m) :
    first (fun j => if j = l then 1 else 0) (m + 1) = 2 ^ (m + 1 - l) := by
  induction m, hm using Nat.le_induction with
  | base =>
      rw [first_succ _ hl, first_of_zero fun j hj hlt => if_neg (by omega), if_pos rfl,
        Nat.add_sub_cancel_left, Nat.pow_one]
  | succ m hm ih =>
      rw [first_succ _ (by omega), ih, if_neg (by omega), Nat.add_zero,
        show m + 1 + 1 - l = m + 1 - l + 1 by omega, Nat.pow_succ']

theorem index_single {l : Nat} (hl : 1 ≤ l) (hm : l ≤ m) :
    index (fun j => if j = l then 1 else 0) (m + 1) = 1 := by
  induction m, hm using Nat.le_induction with
  | base =>
      have hzero : index (fun j => if j = l then 1 else 0) l = index (fun _ => 0) l :=
        index_congr fun j hj hlt => if_neg (by omega)
      rw [index_succ _ hl, hzero, index_of_zero (fun _ => rfl), if_pos rfl]
  | succ m hm ih => rw [index_succ _ (by omega), ih, if_neg (by omega)]

/-- There is room for all words if there is for the longest. -/
theorem fits_of_first_le (h : first c (m + 1) ≤ 2 ^ (m + 1)) : Fits c m := by
  intro l hl hm
  obtain ⟨i, rfl⟩ : ∃ i, m = l + i := ⟨m - l, by omega⟩
  have hshift := (shift_le_first c hl i).trans h
  rw [show l + i + 1 = i + 1 + l by omega, Nat.pow_add 2 (i + 1) l] at hshift
  exact Nat.le_of_mul_le_mul_left hshift (Nat.two_pow_pos (i + 1))

/-- When only the longest length is in use. -/
theorem first_eq_of_last (hm : 1 ≤ m) (h : ∀ l, 1 ≤ l → l < m → c l = 0) :
    first c (m + 1) = 2 * index c (m + 1) := by
  have hindex : index c m = index (fun _ => 0) m := index_congr h
  rw [first_succ c hm, index_succ c hm, first_of_zero h, hindex, index_of_zero fun _ => rfl]

/-- Longer words than there are do not change that a code is complete. -/
theorem first_extend (h : ∀ l, m < l → c l = 0) (hfull : first c (m + 1) = 2 ^ (m + 1))
    (k : Nat) : first c (m + k + 1) = 2 ^ (m + k + 1) := by
  induction k with
  | zero => exact hfull
  | succ k ih =>
      rw [← Nat.add_assoc, first_succ c (by omega), ih, h (m + k + 1) (by omega), Nat.add_zero,
        ← Nat.pow_succ']

/-- A word takes the room of two that are one bit longer. -/
theorem pow_room {l : Nat} (hl : l < m) : 2 ^ (m + 1 - l) = 2 * 2 ^ (m + 1 - (l + 1)) := by
  rw [show m + 1 - l = m + 1 - (l + 1) + 1 by omega, Nat.pow_succ']

/-- One word of `l` bits and one of the longest make way for two of `l + 1` bits. -/
theorem first_move {l : Nat} (hl : 1 ≤ l) (hlt : l < m)
    (h : ∀ j, c j + 2 * (if j = l + 1 then 1 else 0) =
      d j + ((if j = l then 1 else 0) + if j = m then 1 else 0)) :
    first c (m + 1) = first d (m + 1) + 2 ∧ index c (m + 1) = index d (m + 1) := by
  have htwo : (fun j => c j + ((if j = l + 1 then 1 else 0) + if j = l + 1 then 1 else 0)) =
      fun j => d j + ((if j = l then 1 else 0) + if j = m then 1 else 0) := by
    funext j
    have := h j
    omega
  have hfirst := congrArg (first · (m + 1)) htwo
  have hindex := congrArg (index · (m + 1)) htwo
  rw [first_add, first_add, first_add d, first_add,
    first_single (by omega) (show l + 1 ≤ m from hlt), first_single hl (by omega),
    first_single (by omega) (Nat.le_refl m)] at hfirst
  rw [index_add, index_add, index_add d, index_add,
    index_single (by omega) (show l + 1 ≤ m from hlt), index_single hl (by omega),
    index_single (by omega) (Nat.le_refl m)] at hindex
  have hpow := pow_room hlt
  have hone : 2 ^ (m + 1 - m) = 2 := by rw [Nat.add_sub_cancel_left, Nat.pow_one]
  omega

end Counts

section Lengths

variable {m : Nat} {ls ls' : List Nat}

/-- The room that words of these lengths take. -/
def room (m : Nat) (ls : List Nat) : Nat := (ls.map fun l => 2 ^ (m + 1 - l)).sum

theorem room_cons (l : Nat) (ls : List Nat) : room m (l :: ls) = 2 ^ (m + 1 - l) + room m ls :=
  List.sum_cons

theorem room_perm (h : ls.Perm ls') : room m ls = room m ls' :=
  (h.map _).sum_eq

/-- Lengths up to `m` of the leaves of a tree; `overflow` nodes were too deep for it and
are counted with `m`. -/
structure Balanced (m : Nat) (ls : List Nat) (overflow : Nat) : Prop where
  le : ∀ l ∈ ls, l ≤ m
  room : room m ls = 2 ^ (m + 1) + overflow
  deep : overflow ≤ 2 * ls.count m

theorem balanced_root (m : Nat) : Balanced m [0] 0 where
  le := by simp
  room := List.sum_singleton
  deep := Nat.zero_le _

theorem Balanced.perm {overflow : Nat} (h : Balanced m ls overflow) (hperm : ls.Perm ls') :
    Balanced m ls' overflow where
  le := fun l hl => h.le l (hperm.mem_iff.mpr hl)
  room := by rw [← room_perm hperm, h.room]
  deep := by rw [← hperm.count_eq]; exact h.deep

/-- A leaf becomes a node with two leaves. -/
theorem Balanced.split {l overflow : Nat} (h : Balanced m (l :: ls) overflow) (hl : l < m) :
    Balanced m ((l + 1) :: (l + 1) :: ls) overflow := by
  have hroom := h.room
  have hdeep := h.deep
  have hpow := pow_room hl
  refine ⟨?_, ?_, ?_⟩
  · intro x hx
    rcases List.mem_cons.mp hx with rfl | hx
    · exact hl
    · rcases List.mem_cons.mp hx with rfl | hx
      · exact hl
      · exact h.le x (List.mem_cons_of_mem l hx)
  · rw [room_cons] at hroom
    rw [room_cons, room_cons]
    omega
  · rw [List.count_cons_of_ne (by omega)] at hdeep
    rw [List.count_cons, List.count_cons]
    omega

/-- Below the longest length, two more nodes are too deep. -/
theorem Balanced.split_deep {overflow : Nat} (h : Balanced m (m :: ls) overflow) :
    Balanced m (m :: m :: ls) (overflow + 2) := by
  have hroom := h.room
  have hdeep := h.deep
  refine ⟨?_, ?_, ?_⟩
  · intro x hx
    rcases List.mem_cons.mp hx with rfl | hx
    · exact Nat.le_refl x
    · exact h.le x hx
  · rw [room_cons] at hroom
    rw [room_cons, room_cons, Nat.add_sub_cancel_left, Nat.pow_one] at *
    omega
  · rw [List.count_cons_self] at hdeep
    rw [List.count_cons_self, List.count_cons_self]
    omega

theorem first_count_eq_room (h : ∀ l ∈ ls, 1 ≤ l ∧ l ≤ m) :
    first (count ls) (m + 1) = room m ls := by
  induction ls with
  | nil => exact first_of_zero fun _ _ _ => rfl
  | cons l ls ih =>
      obtain ⟨hl, hm⟩ := h l List.mem_cons_self
      rw [count_cons, first_add, ih fun x hx => h x (List.mem_cons_of_mem l hx),
        first_single hl hm, room_cons, Nat.add_comm]

theorem index_count_eq_length (h : ∀ l ∈ ls, 1 ≤ l ∧ l ≤ m) :
    index (count ls) (m + 1) = ls.length := by
  induction ls with
  | nil => exact index_of_zero (fun _ => rfl) _
  | cons l ls ih =>
      obtain ⟨hl, hm⟩ := h l List.mem_cons_self
      rw [count_cons, index_add, ih fun x hx => h x (List.mem_cons_of_mem l hx),
        index_single hl hm, List.length_cons]

end Lengths

/-- A code whose words use up the room is complete, also when longer words are allowed. -/
theorem isComplete_of_first {lengths : List Nat} {m m' : Nat} (hle : ∀ n, len lengths n ≤ m)
    (hfull : first (count lengths) (m + 1) = 2 ^ (m + 1)) (hm : m ≤ m') :
    IsComplete lengths m' := by
  obtain ⟨k, rfl⟩ : ∃ k, m' = m + k := ⟨m' - m, by omega⟩
  have hzero : ∀ l, m < l → count lengths l = 0 := by
    intro l hl
    refine List.count_eq_zero.mpr ?_
    intro hmem
    obtain ⟨n, hn, heq⟩ := List.getElem_of_mem hmem
    have := hle n
    rw [len_of_lt lengths hn, heq] at this
    omega
  have hall := first_extend hzero hfull k
  exact ⟨⟨fun n => (hle n).trans hm, fits_of_first_le hall.le⟩, hall⟩

/-! ## Symbols without words -/

section Padding

variable (lengths : List Nat) (k : Nat)

theorem len_append_zeros (n : Nat) : len (lengths ++ List.replicate k 0) n = len lengths n := by
  rw [len, len, List.getD_eq_getElem?_getD, List.getD_eq_getElem?_getD, List.getElem?_append]
  split
  · rfl
  · next h =>
      rw [List.getElem?_replicate, List.getElem?_eq_none (by omega)]
      split <;> rfl

theorem count_append_zeros {l : Nat} (hl : 1 ≤ l) :
    count (lengths ++ List.replicate k 0) l = count lengths l := by
  rw [count, count, List.count_append, List.count_replicate]
  have : (0 == l) = false := beq_false_of_ne (by omega)
  rw [this]
  rfl

theorem word_append_zeros {n : Nat} (hn : len lengths n ≠ 0) :
    word (lengths ++ List.replicate k 0) n = word lengths n := by
  have hlt := lt_length_of_len_ne_zero lengths hn
  have htake : (lengths ++ List.replicate k 0).take n = lengths.take n :=
    List.take_append_of_le_length (by omega)
  rw [word, word, rank, rank, len_append_zeros, htake,
    first_congr fun l hl _ => count_append_zeros lengths k hl]

theorem IsComplete.append_zeros {lengths : List Nat} {m : Nat} (h : IsComplete lengths m) :
    IsComplete (lengths ++ List.replicate k 0) m := by
  refine isComplete_of_first (fun n => ?_) ?_ (Nat.le_refl m)
  · rw [len_append_zeros]
    exact h.isCode.le n
  · rw [first_congr fun l hl _ => count_append_zeros lengths k hl]
    exact h.full

end Padding

end Canonical
