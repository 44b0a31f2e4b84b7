import Dockerfiles.Crc.Register

/-! # Operators on a register as matrices

A linear operator is kept as the list of its values at the words with one bit. It is
applied by adding the values for the bits of a word, and squared by applying it to its
own values.
-/

namespace Crc

variable {w : Nat}

/-- An operator that is linear in exclusive or. -/
structure Linear (f : BitVec w → BitVec w) : Prop where
  map_xor : ∀ c d, f (c ^^^ d) = f c ^^^ f d
  map_zero : f 0#w = 0#w

theorem linear_steps (poly : BitVec w) (n : Nat) : Linear (steps poly n) where
  map_xor := steps_xor poly n
  map_zero := steps_zero poly n

/-- The columns `j`, `j + 1`, … of an operator, `k` of them. -/
def columns (f : BitVec w → BitVec w) (j : Nat) : Nat → List (BitVec w)
  | 0 => []
  | k + 1 => f (1#w <<< j) :: columns f (j + 1) k

/-- The matrix of an operator. -/
def matrix (f : BitVec w → BitVec w) : List (BitVec w) := columns f 0 w

/-- The columns of the bits of `vec` are added to `sum`, until no bit is left. -/
def apply : BitVec w → List (BitVec w) → BitVec w → BitVec w
  | sum, [], _ => sum
  | sum, column :: mat, vec =>
      if vec = 0#w then sum
      else apply (if vec.getLsbD 0 then sum ^^^ column else sum) mat (vec >>> 1)

/-- Each column is replaced by what the matrix makes of it. -/
def square (mat : List (BitVec w)) : List (BitVec w) := mat.map (apply 0#w mat)

theorem shiftLeft_split (vec : BitVec w) (j : Nat) :
    vec <<< j = (if vec.getLsbD 0 then 1#w <<< j else 0#w) ^^^ ((vec >>> 1) <<< (j + 1)) := by
  apply BitVec.eq_of_getLsbD_eq
  intro i hi
  have hone : (if vec.getLsbD 0 then 1#w <<< j else 0#w).getLsbD i =
      (vec.getLsbD 0 && decide (i = j)) := by
    by_cases hbit : vec.getLsbD 0
    · by_cases hij : i = j
      · subst hij
        simp [hbit, hi]
      · rcases Nat.lt_or_ge i j with hlt | hge
        · simp [hbit, BitVec.getLsbD_shiftLeft, hij, hlt]
        · simp [hbit, BitVec.getLsbD_shiftLeft, hij, BitVec.getLsbD_one]
          omega
    · simp [hbit]
  rw [BitVec.getLsbD_xor, hone]
  simp only [BitVec.getLsbD_shiftLeft, BitVec.getLsbD_ushiftRight, hi, decide_true, Bool.true_and]
  rcases Nat.lt_trichotomy i j with hlt | rfl | hgt
  · simp [hlt, Nat.lt_succ_of_lt hlt, Nat.ne_of_lt hlt]
  · simp
  · have h1 : ¬ i < j := by omega
    have h2 : ¬ i < j + 1 := by omega
    have h3 : i ≠ j := by omega
    have h4 : 1 + (i - (j + 1)) = i - j := by omega
    simp [h1, h2, h3, h4]

theorem apply_columns {f : BitVec w → BitVec w} (hf : Linear f) (k : Nat) {vec : BitVec w}
    (hvec : ∀ i, k ≤ i → vec.getLsbD i = false) (j : Nat) (sum : BitVec w) :
    apply sum (columns f j k) vec = sum ^^^ f (vec <<< j) := by
  induction k generalizing vec j sum with
  | zero =>
      have hzero : vec = 0#w := by
        apply BitVec.eq_of_getLsbD_eq
        intro i _
        simp [hvec i (Nat.zero_le i)]
      subst hzero
      have hshift : 0#w <<< j = 0#w := by simp
      rw [columns, apply, hshift, hf.map_zero, BitVec.xor_zero]
  | succ k ih =>
      rw [columns, apply]
      split
      · next hzero =>
          subst hzero
          have hshift : 0#w <<< j = 0#w := by simp
          rw [hshift, hf.map_zero, BitVec.xor_zero]
      · have hrest : ∀ i, k ≤ i → (vec >>> 1).getLsbD i = false := by
          intro i hi
          rw [BitVec.getLsbD_ushiftRight]
          exact hvec (1 + i) (by omega)
        rw [ih hrest, shiftLeft_split vec j, hf.map_xor]
        by_cases hbit : vec.getLsbD 0
        · simp only [hbit, if_true, BitVec.xor_assoc]
        · simp only [hbit, Bool.false_eq_true, if_false, hf.map_zero, BitVec.zero_xor]

/-- A matrix does what its operator does. -/
theorem apply_matrix {f : BitVec w → BitVec w} (hf : Linear f) (vec : BitVec w) :
    apply 0#w (matrix f) vec = f vec := by
  have happly := @apply_columns w f hf w vec (fun i hi => BitVec.getLsbD_of_ge vec i hi) 0 0#w
  rw [matrix, happly, BitVec.zero_xor, BitVec.shiftLeft_zero]

theorem square_matrix {f : BitVec w → BitVec w} (hf : Linear f) :
    square (matrix f) = matrix fun c => f (f c) := by
  have hcolumns : ∀ k j, (columns f j k).map (apply 0#w (matrix f)) =
      columns (fun c => f (f c)) j k := by
    intro k
    induction k with
    | zero => exact fun _ => rfl
    | succ k ih =>
        intro j
        rw [columns, columns, List.map_cons, apply_matrix hf, ih]
  exact hcolumns w 0

theorem square_steps (poly : BitVec w) (n : Nat) :
    square (matrix (steps poly n)) = matrix (steps poly (n + n)) := by
  rw [square_matrix (linear_steps poly n)]
  congr 1
  funext c
  rw [steps_add]

end Crc
