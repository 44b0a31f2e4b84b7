import Mathlib.Tactic.Common
import Mathlib.Tactic.Ring

/-! # Numbers as bits

Numbers as lists of bits, read from the lowest bit on or from the highest one on, and
bytes as a stream of bits.
-/

namespace Bits

/-- The lowest `n` bits of a number, the lowest first. -/
def lsb : Nat → Nat → List Bool
  | 0, _ => []
  | n + 1, v => decide (v % 2 = 1) :: lsb n (v / 2)

/-- The number of a list of bits, the lowest first. -/
def value : List Bool → Nat
  | [] => 0
  | b :: u => b.toNat + 2 * value u

/-- The lowest `n` bits of a number, the highest of them first. -/
def msb : Nat → Nat → List Bool
  | 0, _ => []
  | n + 1, v => decide (v / 2 ^ n % 2 = 1) :: msb n v

@[simp] theorem length_lsb (n v : Nat) : (lsb n v).length = n := by
  induction n generalizing v with
  | zero => rfl
  | succ n ih => rw [lsb, List.length_cons, ih]

@[simp] theorem length_msb (n v : Nat) : (msb n v).length = n := by
  induction n with
  | zero => rfl
  | succ n ih => rw [msb, List.length_cons, ih]

/-- The lowest bit comes last. -/
theorem msb_succ (n v : Nat) : msb (n + 1) v = msb n (v / 2) ++ [decide (v % 2 = 1)] := by
  induction n with
  | zero => simp [msb]
  | succ n ih =>
      have hdiv : v / 2 ^ (n + 1) = v / 2 / 2 ^ n := by
        rw [Nat.pow_succ', Nat.div_div_eq_div_mul]
      rw [msb, ih, msb, hdiv]
      rfl

theorem toNat_decide_mod (v : Nat) : (decide (v % 2 = 1)).toNat = v % 2 := by
  rcases Nat.mod_two_eq_zero_or_one v with h | h <;> simp [h]

theorem value_lsb (n v : Nat) : value (lsb n v) = v % 2 ^ n := by
  induction n generalizing v with
  | zero => simp [lsb, value, Nat.mod_one]
  | succ n ih =>
      rw [lsb, value, ih, toNat_decide_mod, Nat.pow_succ', Nat.mod_mul]

theorem value_append (u v : List Bool) : value (u ++ v) = value u + 2 ^ u.length * value v := by
  induction u with
  | nil => simp [value]
  | cons b u ih =>
      rw [List.cons_append, value, ih, value, List.length_cons, Nat.pow_succ']
      ring

theorem value_lt (u : List Bool) : value u < 2 ^ u.length := by
  induction u with
  | nil => simp [value]
  | cons b u ih =>
      have hb : b.toNat ≤ 1 := Bool.toNat_le b
      rw [value, List.length_cons, Nat.pow_succ']
      omega

theorem lsb_value (u : List Bool) : lsb u.length (value u) = u := by
  induction u with
  | nil => rfl
  | cons b u ih =>
      have hbit : (b.toNat + 2 * value u) % 2 = b.toNat := by
        have hb : b.toNat ≤ 1 := Bool.toNat_le b
        omega
      have hrest : (b.toNat + 2 * value u) / 2 = value u := by
        have hb : b.toNat ≤ 1 := Bool.toNat_le b
        omega
      rw [List.length_cons, lsb, value, hbit, hrest, ih]
      cases b <;> rfl

theorem lsb_append (m n v : Nat) : lsb (m + n) v = lsb m v ++ lsb n (v / 2 ^ m) := by
  induction m generalizing v with
  | zero => simp [lsb]
  | succ m ih =>
      rw [show m + 1 + n = m + n + 1 by omega, lsb, lsb, ih, Nat.div_div_eq_div_mul,
        Nat.pow_succ', List.cons_append]

/-- Bits above those that are read do not matter. -/
theorem lsb_mod {n k : Nat} (h : n ≤ k) (v : Nat) : lsb n (v % 2 ^ k) = lsb n v := by
  have hn := lsb_value (lsb n (v % 2 ^ k))
  have hv := lsb_value (lsb n v)
  rw [length_lsb, value_lsb] at hn hv
  rw [← hn, ← hv, Nat.mod_mod_of_dvd v (Nat.pow_dvd_pow 2 h)]

/-- A number put above another that has only `m` bits. -/
theorem lsb_add {m v : Nat} (h : v < 2 ^ m) (n u : Nat) :
    lsb (m + n) (v + 2 ^ m * u) = lsb m v ++ lsb n u := by
  have hlow : lsb m (v + 2 ^ m * u) = lsb m v := by
    rw [← lsb_mod (Nat.le_refl m), Nat.add_mul_mod_self_left, lsb_mod (Nat.le_refl m)]
  have hhigh : (v + 2 ^ m * u) / 2 ^ m = u := by
    rw [Nat.add_mul_div_left _ _ (Nat.two_pow_pos m), Nat.div_eq_of_lt h, Nat.zero_add]
  rw [lsb_append, hlow, hhigh]

/-- A number goes right above another that has only `m` bits. -/
theorem or_shiftLeft {m v : Nat} (h : v < 2 ^ m) (u : Nat) : v ||| (u <<< m) = v + 2 ^ m * u := by
  rw [Nat.or_comm, Nat.shiftLeft_eq, Nat.mul_comm, ← Nat.two_pow_add_eq_or_of_lt h, Nat.add_comm]

theorem add_lt {m n v u : Nat} (hv : v < 2 ^ m) (hu : u < 2 ^ n) : v + 2 ^ m * u < 2 ^ (m + n) := by
  have hle : 2 ^ m * u + 2 ^ m ≤ 2 ^ m * 2 ^ n := by
    rw [← Nat.mul_succ]
    exact Nat.mul_le_mul_left _ hu
  rw [Nat.pow_add]
  omega

/-! ## Bytes -/

/-- The bits of bytes, in the order they are sent in. -/
def ofBytes (bytes : List (BitVec 8)) : List Bool := bytes.flatMap fun b => lsb 8 b.toNat

@[simp] theorem ofBytes_nil : ofBytes [] = [] := rfl

@[simp] theorem ofBytes_cons (b : BitVec 8) (bytes : List (BitVec 8)) :
    ofBytes (b :: bytes) = lsb 8 b.toNat ++ ofBytes bytes := rfl

@[simp] theorem ofBytes_append (a b : List (BitVec 8)) :
    ofBytes (a ++ b) = ofBytes a ++ ofBytes b := by
  simp [ofBytes]

@[simp] theorem length_ofBytes (bytes : List (BitVec 8)) :
    (ofBytes bytes).length = 8 * bytes.length := by
  induction bytes with
  | nil => rfl
  | cons b bytes ih =>
      rw [ofBytes_cons, List.length_append, length_lsb, ih, List.length_cons]
      omega

/-- Bytes are read off their bits. -/
theorem ofBytes_injective : Function.Injective ofBytes := by
  intro a
  induction a with
  | nil =>
      intro b h
      cases b with
      | nil => rfl
      | cons b bytes => simp [lsb] at h
  | cons x a ih =>
      intro b h
      cases b with
      | nil => simp [lsb] at h
      | cons y b =>
          rw [ofBytes_cons, ofBytes_cons] at h
          obtain ⟨hxy, hab⟩ := List.append_inj h (by simp)
          have hval := congrArg value hxy
          rw [value_lsb, value_lsb, Nat.mod_eq_of_lt x.isLt, Nat.mod_eq_of_lt y.isLt] at hval
          rw [BitVec.eq_of_toNat_eq hval, ih hab]

end Bits
