import Mathlib.Tactic.Common
import Mathlib.Data.List.Basic

/-! # Shift registers with feedback

A register of `w` bits that is shifted right; a one that falls out is added back as a
polynomial. Everything a checksum does with such a register follows from its being
linear in exclusive or: tables, several bytes at a time, and the checksum of two parts
put together.
-/

namespace Crc

variable {w : Nat}

theorem xor_cancel (a b p : BitVec w) : a ^^^ p ^^^ (b ^^^ p) = a ^^^ b := by
  rw [BitVec.xor_assoc a p, BitVec.xor_comm b p, ← BitVec.xor_assoc p p b, BitVec.xor_self,
    BitVec.zero_xor]

/-- The low `n` bits of a word. -/
def low (n : Nat) (c : BitVec w) : BitVec w := (c.setWidth n).setWidth w

theorem getLsbD_low (n : Nat) (c : BitVec w) (i : Nat) :
    (low n c).getLsbD i = (decide (i < n) && c.getLsbD i) := by
  simp only [low, BitVec.getLsbD_setWidth]
  by_cases hi : i < w
  · simp [hi]
  · simp [hi, BitVec.getLsbD_of_ge c i (by omega)]

section Register

variable (poly : BitVec w)

/-- One shift of the register. -/
def step (c : BitVec w) : BitVec w := if c.getLsbD 0 then (c >>> 1) ^^^ poly else c >>> 1

/-- `n` shifts of the register. -/
def steps : Nat → BitVec w → BitVec w
  | 0, c => c
  | n + 1, c => steps n (step poly c)

theorem step_xor (c d : BitVec w) : step poly (c ^^^ d) = step poly c ^^^ step poly d := by
  simp only [step, BitVec.getLsbD_xor, BitVec.ushiftRight_xor_distrib]
  cases c.getLsbD 0 <;> cases d.getLsbD 0
  · simp
  · simp only [Bool.false_xor, if_true, Bool.false_eq_true, if_false, BitVec.xor_assoc]
  · simp only [Bool.xor_false, if_true, Bool.false_eq_true, if_false, BitVec.xor_assoc]
    rw [BitVec.xor_comm (d >>> 1) poly]
  · simp [xor_cancel]

theorem step_zero : step poly 0#w = 0#w := by
  simp [step]

theorem steps_add (m n : Nat) (c : BitVec w) : steps poly (m + n) c = steps poly n (steps poly m c) := by
  induction m generalizing c with
  | zero => simp [steps]
  | succ m ih => rw [show m + 1 + n = m + n + 1 by omega, steps, steps, ih]

theorem steps_xor (n : Nat) (c d : BitVec w) :
    steps poly n (c ^^^ d) = steps poly n c ^^^ steps poly n d := by
  induction n generalizing c d with
  | zero => rfl
  | succ n ih => simp only [steps, step_xor, ih]

@[simp] theorem steps_zero (n : Nat) : steps poly n 0#w = 0#w := by
  induction n with
  | zero => rfl
  | succ n ih => rw [steps, step_zero, ih]

/-- Zeros that fall out add nothing. -/
theorem steps_of_low_zero {n : Nat} {c : BitVec w} (h : ∀ i, i < n → c.getLsbD i = false) :
    steps poly n c = c >>> n := by
  induction n generalizing c with
  | zero => simp [steps]
  | succ n ih =>
      have hstep : step poly c = c >>> 1 := by
        simp [step, h 0 (Nat.succ_pos n)]
      have hrest : ∀ i, i < n → (c >>> 1).getLsbD i = false := by
        intro i hi
        rw [BitVec.getLsbD_ushiftRight]
        exact h (1 + i) (by omega)
      rw [steps, hstep, ih hrest, ← BitVec.shiftRight_add, Nat.add_comm 1 n]

/-- A word whose bits do not reach the upper `n` places, shifted up and down again. -/
theorem steps_shiftLeft {n : Nat} {c : BitVec w} (h : ∀ i, w ≤ i + n → c.getLsbD i = false) :
    steps poly n (c <<< n) = c := by
  have hlow : ∀ i, i < n → (c <<< n).getLsbD i = false := by
    intro i hi
    simp [BitVec.getLsbD_shiftLeft, hi]
  rw [steps_of_low_zero poly hlow]
  apply BitVec.eq_of_getLsbD_eq
  intro i hi
  rw [BitVec.getLsbD_ushiftRight, BitVec.getLsbD_shiftLeft]
  by_cases hin : n + i < w
  · simp [hin]
  · simp [hin, h i (by omega)]

/-- A table of the low bits is enough for `n` shifts. -/
theorem steps_eq_table (n : Nat) (c : BitVec w) :
    steps poly n c = steps poly n (low n c) ^^^ (c >>> n) := by
  have hhigh : ∀ i, i < n → (low n c ^^^ c).getLsbD i = false := by
    intro i hi
    simp [BitVec.getLsbD_xor, getLsbD_low, hi]
  have hshift : (low n c ^^^ c) >>> n = c >>> n := by
    apply BitVec.eq_of_getLsbD_eq
    intro i _
    have hpast : ¬ n + i < n := by omega
    simp [BitVec.getLsbD_ushiftRight, BitVec.getLsbD_xor, getLsbD_low, hpast]
  have hsplit : c = low n c ^^^ (low n c ^^^ c) := by
    rw [← BitVec.xor_assoc, BitVec.xor_self, BitVec.zero_xor]
  have hsteps := congrArg (steps poly n) hsplit
  rw [steps_xor, steps_of_low_zero poly hhigh, hshift] at hsteps
  exact hsteps

/-! ## Bytes -/

/-- A byte is added to the register and shifted through. -/
def feed (c : BitVec w) (b : BitVec 8) : BitVec w := steps poly 8 (c ^^^ b.setWidth w)

theorem foldl_feed_xor (c d : BitVec w) (bs : List (BitVec 8)) :
    bs.foldl (feed poly) (c ^^^ d) =
      steps poly (8 * bs.length) c ^^^ bs.foldl (feed poly) d := by
  induction bs generalizing c d with
  | nil => rfl
  | cons b bs ih =>
      have hfeed : feed poly (c ^^^ d) b = steps poly 8 c ^^^ feed poly d b := by
        rw [feed, feed, BitVec.xor_assoc, steps_xor]
      rw [List.foldl_cons, List.foldl_cons, hfeed, ih, ← steps_add, List.length_cons]
      congr 2
      omega

end Register

end Crc
