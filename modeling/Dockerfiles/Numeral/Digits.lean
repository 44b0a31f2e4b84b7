import Mathlib.Tactic.Common
import Mathlib.Algebra.Order.Ring.Nat

/-! # Positional numerals

A number is written by a loop that divides, last digit first, and is read by a
loop that multiplies, first digit first. The reader may stop early when the
value grows too large, so the value of every part of a numeral is bounded by
the value of the whole.
-/

namespace Numeral

/-- The value of `ds`, first digit first, read after `v` has been read. -/
def value (base v : Nat) (ds : List Nat) : Nat := ds.foldl (fun v d => v * base + d) v

@[simp] theorem value_nil (base v : Nat) : value base v [] = v := rfl

@[simp] theorem value_cons (base v d : Nat) (ds : List Nat) :
    value base v (d :: ds) = value base (v * base + d) ds := rfl

/-- What has been read never shrinks. -/
theorem le_value {base : Nat} (hbase : 0 < base) (v : Nat) (ds : List Nat) :
    v ≤ value base v ds := by
  induction ds generalizing v with
  | nil => exact Nat.le_refl v
  | cons d ds ih =>
      have hstep : v ≤ v * base + d :=
        Nat.le_trans (Nat.le_mul_of_pos_right v hbase) (Nat.le_add_right _ d)
      exact Nat.le_trans hstep (ih _)

/-- A loop that puts the digits of `n` in front of `acc`. It writes one digit
even for zero, and stops when the quotient is zero or the room is used up. -/
def pushDigits (base : Nat) : Nat → Nat → List Nat → List Nat
  | 0, _, acc => acc
  | room + 1, n, acc =>
      if n / base = 0 then n % base :: acc
      else pushDigits base room (n / base) (n % base :: acc)

section PushDigits

variable {base : Nat}

theorem div_lt_pow {n k : Nat} (h : n < base ^ (k + 1)) : n / base < base ^ k := by
  apply Nat.div_lt_of_lt_mul
  rw [Nat.mul_comm, ← Nat.pow_succ]
  exact h

/-- The numeral is read back, when there is room for it. -/
theorem value_pushDigits {room n : Nat} (hn : n < base ^ (room + 1)) (acc : List Nat) :
    value base 0 (pushDigits base (room + 1) n acc) = value base n acc := by
  induction room generalizing n acc with
  | zero =>
      have hdiv : n / base = 0 := by
        have := div_lt_pow hn
        simpa using this
      have hmod : n % base = n := by
        have := Nat.div_add_mod n base
        simp only [hdiv, Nat.mul_zero, Nat.zero_add] at this
        exact this
      simp [pushDigits, hdiv, hmod]
  | succ room ih =>
      have hsplit : n / base * base + n % base = n := Nat.div_add_mod' n base
      rw [pushDigits]
      split
      · next hdiv =>
          have hmod : n % base = n := by simpa [hdiv] using hsplit
          simp [hmod]
      · rw [ih (div_lt_pow hn), value_cons, hsplit]

theorem pushDigits_lt (hbase : 0 < base) (room n : Nat) {acc : List Nat}
    (hacc : ∀ d ∈ acc, d < base) : ∀ d ∈ pushDigits base room n acc, d < base := by
  induction room generalizing n acc with
  | zero => exact hacc
  | succ room ih =>
      have hcons : ∀ d ∈ n % base :: acc, d < base := by
        intro d hd
        rcases List.mem_cons.mp hd with rfl | hd
        · exact Nat.mod_lt n hbase
        · exact hacc d hd
      rw [pushDigits]
      split
      · exact hcons
      · exact ih _ hcons

theorem length_pushDigits_le {k n : Nat} (hn : n < base ^ (k + 1)) (room : Nat)
    (acc : List Nat) :
    (pushDigits base room n acc).length ≤ k + 1 + acc.length := by
  induction room generalizing k n acc with
  | zero => simp [pushDigits]
  | succ room ih =>
      rw [pushDigits]
      split
      · simp only [List.length_cons]
        omega
      · next hdiv =>
          cases k with
          | zero =>
              have := div_lt_pow hn
              exact absurd (Nat.lt_one_iff.mp this) hdiv
          | succ k =>
              have := ih (div_lt_pow hn) (n % base :: acc)
              simp only [List.length_cons] at this
              omega

theorem length_lt_length_pushDigits (room n : Nat) (acc : List Nat) :
    acc.length < (pushDigits base (room + 1) n acc).length := by
  induction room generalizing n acc with
  | zero =>
      rw [pushDigits]
      split <;> simp [pushDigits]
  | succ room ih =>
      rw [pushDigits]
      split
      · simp
      · have := ih (n / base) (n % base :: acc)
        simp only [List.length_cons] at this
        omega

end PushDigits

end Numeral
