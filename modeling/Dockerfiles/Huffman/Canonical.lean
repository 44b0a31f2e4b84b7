import Mathlib.Tactic.Common
import Mathlib.Tactic.Ring
import Mathlib.Data.List.Basic

/-! # Canonical codes

A code given by the lengths of its words alone: the words of one length are consecutive
numbers, in the order of the symbols, and the first word of a length comes right after
the last one of the length before. A symbol of length zero has no word.
-/

namespace Canonical

section Counts

variable (c : Nat → Nat)

/-- The first word of each length, when `c` says how many there are of each length. -/
def first : Nat → Nat
  | 0 => 0
  | 1 => 0
  | l + 2 => 2 * (first (l + 1) + c (l + 1))

/-- How many words are shorter. -/
def index : Nat → Nat
  | 0 => 0
  | 1 => 0
  | l + 2 => index (l + 1) + c (l + 1)

/-- There is room for the words of each length up to `m`. -/
def Fits (m : Nat) : Prop := ∀ l, 1 ≤ l → l ≤ m → first c l + c l ≤ 2 ^ l

theorem first_succ {l : Nat} (hl : 1 ≤ l) : first c (l + 1) = 2 * (first c l + c l) := by
  obtain ⟨l, rfl⟩ : ∃ j, l = j + 1 := ⟨l - 1, by omega⟩
  rfl

theorem index_succ {l : Nat} (hl : 1 ≤ l) : index c (l + 1) = index c l + c l := by
  obtain ⟨l, rfl⟩ : ∃ j, l = j + 1 := ⟨l - 1, by omega⟩
  rfl

/-- Longer words come after all words that are shorter. -/
theorem shift_le_first {j : Nat} (hj : 1 ≤ j) (i : Nat) :
    2 ^ (i + 1) * (first c j + c j) ≤ first c (j + (i + 1)) := by
  induction i with
  | zero =>
      rw [Nat.zero_add, Nat.pow_one, first_succ c hj]
  | succ i ih =>
      rw [← Nat.add_assoc, first_succ c (by omega), Nat.pow_succ']
      calc 2 * 2 ^ (i + 1) * (first c j + c j)
          = 2 * (2 ^ (i + 1) * (first c j + c j)) := by ring
        _ ≤ 2 * first c (j + (i + 1)) := Nat.mul_le_mul_left 2 ih
        _ ≤ 2 * (first c (j + (i + 1)) + c (j + (i + 1))) := by omega

theorem index_le_index {l l' : Nat} (hl : 1 ≤ l) (h : l < l') :
    index c l + c l ≤ index c l' := by
  induction l', h using Nat.le_induction with
  | base => exact (index_succ c hl).ge
  | succ l' h ih =>
      rw [index_succ c (by omega)]
      omega

theorem index_add (c d : Nat → Nat) (m : Nat) :
    index (fun l => c l + d l) m = index c m + index d m := by
  induction m using index.induct with
  | case1 => rfl
  | case2 => rfl
  | case3 l ih =>
      rw [index, index, index, ih]
      omega

theorem index_of_zero {c : Nat → Nat} (hc : ∀ l, c l = 0) (m : Nat) : index c m = 0 := by
  induction m using index.induct with
  | case1 => rfl
  | case2 => rfl
  | case3 l ih => rw [index, ih, hc]

theorem index_single_le (l m : Nat) : index (fun j => if j = l then 1 else 0) m ≤ 1 := by
  have hstrong : index (fun j => if j = l then 1 else 0) m ≤ if l < m then 1 else 0 := by
    induction m using index.induct with
    | case1 => exact Nat.zero_le _
    | case2 => exact Nat.zero_le _
    | case3 j ih =>
        rw [index]
        split at ih <;> split <;> split <;> omega
  split at hstrong <;> omega

end Counts

section Words

variable (lengths : List Nat)

/-- How many words there are of a length. -/
def count (l : Nat) : Nat := List.count l lengths

/-- The length of a symbol's word. -/
def len (n : Nat) : Nat := lengths.getD n 0

/-- How many symbols of its length come before a symbol. -/
def rank (n : Nat) : Nat := count (lengths.take n) (len lengths n)

/-- The word of a symbol, as a number. -/
def word (n : Nat) : Nat := first (count lengths) (len lengths n) + rank lengths n

theorem len_of_lt {n : Nat} (h : n < lengths.length) : len lengths n = lengths[n] := by
  rw [len, List.getD_eq_getElem?_getD, List.getElem?_eq_getElem h, Option.getD_some]

theorem lt_length_of_len_ne_zero {n : Nat} (h : len lengths n ≠ 0) : n < lengths.length := by
  by_contra hn
  apply h
  rw [len, List.getD_eq_getElem?_getD, List.getElem?_eq_none (by omega), Option.getD_none]

theorem count_take_add_one {n : Nat} (h : n < lengths.length) (l : Nat) :
    count (lengths.take (n + 1)) l =
      count (lengths.take n) l + if l = len lengths n then 1 else 0 := by
  rw [count, count, List.take_succ_eq_append_getElem h, List.count_append, len_of_lt _ h,
    List.count_singleton]
  by_cases hl : l = lengths[n]
  · simp [hl]
  · simp [hl, Ne.symm hl]

theorem count_take_succ {n : Nat} (h : n < lengths.length) :
    count (lengths.take (n + 1)) (len lengths n) = rank lengths n + 1 := by
  rw [count_take_add_one lengths h, if_pos rfl, rank]

theorem rank_lt_count {n : Nat} (h : n < lengths.length) :
    rank lengths n < count lengths (len lengths n) := by
  have hle := (List.take_sublist (n + 1) lengths).count_le (len lengths n)
  have hsucc := count_take_succ lengths h
  rw [count] at hsucc ⊢
  omega

theorem rank_lt_rank {m n : Nat} (hmn : m < n) (hm : m < lengths.length)
    (hlen : len lengths m = len lengths n) : rank lengths m < rank lengths n := by
  have hle : count (lengths.take (m + 1)) (len lengths m) ≤
      count (lengths.take n) (len lengths m) :=
    (List.take_sublist_take_left hmn).count_le (len lengths m)
  rw [count_take_succ lengths hm, hlen] at hle
  exact hle

/-- Lengths up to `m`, with room for the words. -/
structure IsCode (m : Nat) : Prop where
  le : ∀ n, len lengths n ≤ m
  fits : Fits (count lengths) m

/-- The words use up all the room. -/
structure IsComplete (m : Nat) : Prop where
  isCode : IsCode lengths m
  full : first (count lengths) (m + 1) = 2 ^ (m + 1)

/-- A word has no more bits than its length. -/
theorem IsCode.word_lt {lengths : List Nat} {m n : Nat} (h : IsCode lengths m)
    (hn : len lengths n ≠ 0) : word lengths n < 2 ^ len lengths n := by
  have hroom := h.fits (len lengths n) (by omega) (h.le n)
  have hrank := rank_lt_count lengths (lt_length_of_len_ne_zero lengths hn)
  rw [word]
  omega

/-! ## The order of the symbols -/

/-- The place of a symbol when symbols are sorted by length. -/
def place (n : Nat) : Nat := index (count lengths) (len lengths n) + rank lengths n

theorem place_ne {m n : Nat} (hm : len lengths m ≠ 0) (hn : len lengths n ≠ 0) (hmn : m < n) :
    place lengths n ≠ place lengths m := by
  have hrm := rank_lt_count lengths (lt_length_of_len_ne_zero lengths hm)
  have hrn := rank_lt_count lengths (lt_length_of_len_ne_zero lengths hn)
  rw [place, place]
  rcases Nat.lt_trichotomy (len lengths m) (len lengths n) with hlt | heq | hgt
  · have := index_le_index (count lengths) (by omega) hlt
    omega
  · have := rank_lt_rank lengths hmn (lt_length_of_len_ne_zero lengths hm) heq
    rw [heq]
    omega
  · have := index_le_index (count lengths) (by omega) hgt
    omega

theorem count_cons (l : Nat) :
    count (l :: lengths) = fun j => count lengths j + if j = l then 1 else 0 := by
  funext j
  rw [count, count, List.count_cons]
  by_cases h : j = l
  · simp [h]
  · simp [h, Ne.symm h]

/-- The words up to a length are not more than the symbols. -/
theorem index_le_length (m : Nat) : index (count lengths) m ≤ lengths.length := by
  induction lengths with
  | nil => exact (index_of_zero (fun _ => rfl) m).le
  | cons l lengths ih =>
      have hone := index_single_le l m
      rw [count_cons, index_add, List.length_cons]
      omega

theorem place_lt_length {n : Nat} (hn : len lengths n ≠ 0) : place lengths n < lengths.length := by
  have hrank := rank_lt_count lengths (lt_length_of_len_ne_zero lengths hn)
  have hindex := index_le_length lengths (len lengths n + 1)
  rw [index_succ _ (by omega)] at hindex
  rw [place]
  omega

end Words

end Canonical
