import Mathlib.Tactic.Common
import Mathlib.Tactic.Ring
import Mathlib.Tactic.Linarith
import Mathlib.Algebra.Order.Group.Nat

/-! # Sums and sums of sums

A checksum that keeps the sum of what came and the sum of these sums, in numbers that
are not bounded. How large they grow, and what a start adds to them, is what a program
that keeps them in machine words rests on.
-/

namespace Checksum

/-- One number is added, and then the sum so far. -/
def feed (s : Nat × Nat) (x : Nat) : Nat × Nat := (s.1 + x, s.2 + (s.1 + x))

/-- The sums of a list that nothing came before. -/
def sums (xs : List Nat) : Nat × Nat := xs.foldl feed (0, 0)

/-- A start is added to the one sum, and to the other once for every number. -/
theorem foldl_feed (s : Nat × Nat) (xs : List Nat) :
    xs.foldl feed s = (s.1 + (sums xs).1, s.2 + xs.length * s.1 + (sums xs).2) := by
  have hshift : ∀ (xs : List Nat) (s t : Nat × Nat),
      xs.foldl feed (s.1 + t.1, s.2 + t.2) =
        (s.1 + (xs.foldl feed t).1, s.2 + xs.length * s.1 + (xs.foldl feed t).2) := by
    intro xs
    induction xs with
    | nil => intro s t; simp
    | cons x xs ih =>
        intro s t
        have hfeed : feed (s.1 + t.1, s.2 + t.2) x =
            (s.1 + (feed t x).1, (s.2 + s.1) + (feed t x).2) := by
          simp only [feed, Prod.mk.injEq]
          omega
        rw [List.foldl_cons, List.foldl_cons, hfeed, ih (s.1, s.2 + s.1) (feed t x)]
        simp only [List.length_cons, Prod.mk.injEq, true_and]
        ring
  have h := hshift xs s (0, 0)
  simpa [sums] using h

/-- The numbers, each as often as it is added: the last once. -/
def weighted : List Nat → Nat
  | [] => 0
  | x :: xs => (xs.length + 1) * x + weighted xs

theorem sums_cons (x : Nat) (xs : List Nat) :
    sums (x :: xs) = (x + (sums xs).1, x + xs.length * x + (sums xs).2) := by
  rw [sums, List.foldl_cons, foldl_feed]
  simp [feed]

theorem sums_eq (xs : List Nat) : sums xs = (xs.sum, weighted xs) := by
  induction xs with
  | nil => rfl
  | cons x xs ih =>
      rw [sums_cons, ih, List.sum_cons, weighted]
      simp only [Prod.mk.injEq, true_and]
      ring

/-- The sums of numbers that are at most `m`. -/
theorem sums_le {m : Nat} {xs : List Nat} (hxs : ∀ x ∈ xs, x ≤ m) :
    (sums xs).1 ≤ m * xs.length ∧ 2 * (sums xs).2 ≤ m * (xs.length * (xs.length + 1)) := by
  induction xs with
  | nil => simp [sums]
  | cons x xs ih =>
      obtain ⟨h1, h2⟩ := ih (fun y hy => hxs y (List.mem_cons_of_mem x hy))
      have hx := hxs x List.mem_cons_self
      have hmul : xs.length * x ≤ xs.length * m := Nat.mul_le_mul_left _ hx
      rw [sums_cons, List.length_cons]
      constructor
      · nlinarith
      · nlinarith

/-- Only remainders matter. -/
theorem foldl_feed_mod (m : Nat) (s : Nat × Nat) (xs : List Nat) :
    (xs.foldl feed (s.1 % m, s.2 % m)).1 % m = (xs.foldl feed s).1 % m ∧
      (xs.foldl feed (s.1 % m, s.2 % m)).2 % m = (xs.foldl feed s).2 % m := by
  rw [foldl_feed, foldl_feed s]
  constructor
  · simp [Nat.add_mod]
  · simp [Nat.add_mod, Nat.mul_mod]

end Checksum
