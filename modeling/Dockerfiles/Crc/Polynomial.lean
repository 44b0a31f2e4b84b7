import Mathlib
import Dockerfiles.Crc.Register

/-! # Registers as remainders

A word stands for a polynomial over the field of two elements, with the lowest power in
the most significant bit. A shift of the register multiplies by `X` and takes the
remainder, so the register holds the remainder of all that was fed to it, and two
messages are told apart exactly when the polynomial does not divide their difference.
-/

open Polynomial

namespace Crc

variable {w : Nat}

/-- The polynomial of a word. -/
noncomputable def toPoly (c : BitVec w) : (ZMod 2)[X] :=
  ∑ n ∈ Finset.range w, C (if c.getMsbD n then 1 else 0) * X ^ n

theorem coeff_toPoly (c : BitVec w) (n : Nat) :
    (toPoly c).coeff n = if c.getMsbD n then 1 else 0 := by
  simp only [toPoly, finsetSum_coeff, coeff_C_mul_X_pow, Finset.sum_ite_eq, Finset.mem_range]
  by_cases hn : n < w
  · simp [hn]
  · simp [hn, BitVec.getMsbD]

theorem toPoly_xor (c d : BitVec w) : toPoly (c ^^^ d) = toPoly c + toPoly d := by
  ext n
  rw [coeff_add, coeff_toPoly, coeff_toPoly, coeff_toPoly, BitVec.getMsbD_xor]
  cases c.getMsbD n <;> cases d.getMsbD n <;> decide

theorem toPoly_injective : Function.Injective (toPoly (w := w)) := by
  intro c d hcd
  apply BitVec.eq_of_getMsbD_eq
  intro n _
  have hcoeff := congrArg (fun p => coeff p n) hcd
  simp only [coeff_toPoly] at hcoeff
  revert hcoeff
  cases c.getMsbD n <;> cases d.getMsbD n <;> decide

theorem degree_toPoly_lt (c : BitVec w) : (toPoly c).degree < w := by
  rw [degree_lt_iff_coeff_zero]
  intro n hn
  have hmsb : c.getMsbD n = false := by
    simp [BitVec.getMsbD, Nat.not_lt.mpr hn]
  rw [coeff_toPoly, hmsb]
  rfl

theorem toPoly_ushiftRight (c : BitVec w) :
    toPoly (c >>> 1) = X * toPoly c + if c.getLsbD 0 then X ^ w else 0 := by
  ext n
  cases n with
  | zero =>
      rw [coeff_add, coeff_X_mul_zero, coeff_toPoly, BitVec.getMsbD_ushiftRight]
      by_cases hw : w = 0
      · subst hw
        simp
      · by_cases hbit : c.getLsbD 0
        · simp [hbit, coeff_X_pow, Ne.symm hw]
        · simp [hbit]
  | succ n =>
      rw [coeff_add, coeff_X_mul, coeff_toPoly, coeff_toPoly, BitVec.getMsbD_ushiftRight]
      rcases Nat.lt_trichotomy (n + 1) w with hn | hn | hn
      · simp [hn, apply_ite (fun p : (ZMod 2)[X] => p.coeff (n + 1)), coeff_X_pow,
          Nat.ne_of_lt hn]
      · subst hn
        have hmsb : c.getMsbD n = c.getLsbD 0 := by
          simp [BitVec.getMsbD]
        rw [hmsb]
        cases c.getLsbD 0 <;> simp [coeff_X_pow, CharTwo.add_self_eq_zero]
      · have hmsb : c.getMsbD n = false := by
          simp [BitVec.getMsbD]
          omega
        simp [hmsb, apply_ite (fun p : (ZMod 2)[X] => p.coeff (n + 1)), coeff_X_pow,
          Nat.ne_of_gt hn]

/-! ## Messages -/

/-- The bits of a message in the order they are sent in: the lowest of a byte first. -/
def bits (bs : List (BitVec 8)) : List Bool :=
  bs.flatMap fun b => (List.range 8).map b.getLsbD

theorem length_bits (bs : List (BitVec 8)) : (bits bs).length = 8 * bs.length := by
  induction bs with
  | nil => rfl
  | cons b bs ih =>
      rw [bits, List.flatMap_cons, List.length_append, List.length_map, List.length_range,
        List.length_cons]
      rw [bits] at ih
      omega

/-- The polynomial of bits: the first has the highest power. -/
noncomputable def ofBits : List Bool → (ZMod 2)[X]
  | [] => 0
  | b :: u => (if b then X ^ u.length else 0) + ofBits u

/-- The polynomial of a message. -/
noncomputable def message (bs : List (BitVec 8)) : (ZMod 2)[X] := ofBits (bits bs)

theorem ofBits_append (u v : List Bool) : ofBits (u ++ v) = ofBits u * X ^ v.length + ofBits v := by
  induction u with
  | nil => simp [ofBits]
  | cons b u ih =>
      simp only [List.cons_append, ofBits, ih, List.length_append]
      cases b
      · simp
      · simp only [if_true]
        ring

theorem degree_ofBits_lt (u : List Bool) : (ofBits u).degree < u.length := by
  induction u with
  | nil => simp [ofBits]
  | cons b u ih =>
      have hlen : (u.length : WithBot Nat) < (u.length + 1 : Nat) := by
        exact_mod_cast Nat.lt_succ_self u.length
      rw [ofBits, List.length_cons]
      refine lt_of_le_of_lt (degree_add_le _ _) (max_lt ?_ ?_)
      · cases b
        · simp
        · rw [if_pos rfl, degree_X_pow]
          exact hlen
      · exact ih.trans hlen

/-- Bits are read off their polynomial. -/
theorem ofBits_injective {u v : List Bool} (hlen : u.length = v.length)
    (h : ofBits u = ofBits v) : u = v := by
  induction u generalizing v with
  | nil => exact (List.eq_nil_of_length_eq_zero hlen.symm).symm
  | cons b u ih =>
      cases v with
      | nil => simp at hlen
      | cons d v =>
          have hlen' : u.length = v.length := Nat.succ_injective hlen
          have htop := congrArg (fun p => coeff p u.length) h
          have hu := coeff_eq_zero_of_degree_lt (degree_ofBits_lt u)
          have hv := coeff_eq_zero_of_degree_lt (degree_ofBits_lt v)
          rw [← hlen'] at hv
          simp only [ofBits, coeff_add, hu, hv, add_zero, ← hlen'] at htop
          have hbd : b = d := by
            revert htop
            cases b <;> cases d <;> simp
          subst hbd
          rw [ofBits, ofBits, hlen', add_right_inj] at h
          rw [ih hlen' h]

theorem ofBits_byte (b : BitVec 8) : ofBits ((List.range 8).map b.getLsbD) = toPoly b := by
  simp only [List.range_succ, List.range_zero, List.nil_append, List.cons_append, List.map_cons,
    List.map_nil, ofBits, List.length_cons, List.length_nil, toPoly, Finset.sum_range_succ,
    Finset.sum_range_zero, BitVec.getMsbD]
  simp
  ring

theorem message_cons (b : BitVec 8) (bs : List (BitVec 8)) :
    message (b :: bs) = toPoly b * X ^ (8 * bs.length) + message bs := by
  have hlen := length_bits bs
  rw [message, message, bits, List.flatMap_cons, ofBits_append, ofBits_byte]
  rw [bits] at hlen ⊢
  rw [hlen]

section Register

variable (poly : BitVec w)

/-- The polynomial that is divided by: the feedback, and the power that is left out of it. -/
noncomputable def modulus : (ZMod 2)[X] := X ^ w + toPoly poly

theorem monic_modulus : (modulus poly).Monic :=
  monic_X_pow_add (degree_toPoly_lt poly)

theorem degree_modulus : (modulus poly).degree = w := by
  rw [modulus, degree_add_eq_left_of_degree_lt, degree_X_pow]
  rw [degree_X_pow]
  exact degree_toPoly_lt poly

theorem toPoly_step (c : BitVec w) :
    toPoly (step poly c) = X * toPoly c + if c.getLsbD 0 then modulus poly else 0 := by
  rw [step]
  split
  · rw [toPoly_xor, toPoly_ushiftRight, modulus]
    simp [*, add_assoc]
  · rw [toPoly_ushiftRight]
    simp [*]

/-- A register is its own remainder. -/
theorem toPoly_modByMonic (c : BitVec w) : toPoly c %ₘ modulus poly = toPoly c := by
  rw [modByMonic_eq_self_iff (monic_modulus poly), degree_modulus]
  exact degree_toPoly_lt c

/-- What differs by a multiple has the same remainder. -/
theorem toPoly_eq_modByMonic {c : BitVec w} {p : (ZMod 2)[X]}
    (h : modulus poly ∣ toPoly c - p) : toPoly c = p %ₘ modulus poly := by
  have hzero := (modByMonic_eq_zero_iff_dvd (monic_modulus poly)).mpr h
  rw [sub_modByMonic, toPoly_modByMonic, sub_eq_zero] at hzero
  exact hzero

theorem dvd_toPoly_steps (n : Nat) (c : BitVec w) :
    modulus poly ∣ toPoly (steps poly n c) - X ^ n * toPoly c := by
  induction n generalizing c with
  | zero => simp [steps]
  | succ n ih =>
      obtain ⟨q, hq⟩ := ih (step poly c)
      rw [toPoly_step] at hq
      refine ⟨q + X ^ n * (if c.getLsbD 0 then 1 else 0), ?_⟩
      rw [steps]
      split_ifs at hq ⊢
      · linear_combination hq
      · linear_combination hq

/-! ## Feeding a message -/

theorem toPoly_setWidth (hw : 8 ≤ w) (b : BitVec 8) :
    toPoly (b.setWidth w) = X ^ (w - 8) * toPoly b := by
  ext n
  rw [coeff_X_pow_mul', coeff_toPoly, coeff_toPoly]
  by_cases hn : w - 8 ≤ n
  · by_cases hlt : n < w
    · have hmsb : (b.setWidth w).getMsbD n = b.getMsbD (n - (w - 8)) := by
        simp [BitVec.getMsbD, show w - 1 - n < w by omega, hlt, show n - (w - 8) < 8 by omega,
          show 7 - (n - (w - 8)) = w - 1 - n by omega]
      simp [hn, hmsb]
    · have hmsb : b.getMsbD (n - (w - 8)) = false := by
        simp [BitVec.getMsbD]
        omega
      have hmsb' : (b.setWidth w).getMsbD n = false := by
        simp [BitVec.getMsbD, hlt]
      simp [hmsb, hmsb']
  · have hmsb : (b.setWidth w).getMsbD n = false := by
      have hpast := BitVec.getLsbD_of_ge b (w - 1 - n) (by omega)
      simp [BitVec.getMsbD, hpast]
    simp [hn, hmsb]

/-- The register holds what it started with and the message, up to a multiple. -/
theorem dvd_toPoly_foldl_feed (hw : 8 ≤ w) (c : BitVec w) (bs : List (BitVec 8)) :
    modulus poly ∣ toPoly (bs.foldl (feed poly) c) -
      (X ^ (8 * bs.length) * toPoly c + X ^ w * message bs) := by
  induction bs generalizing c with
  | nil => simp [message, bits, ofBits]
  | cons b bs ih =>
      obtain ⟨q, hq⟩ := ih (feed poly c b)
      obtain ⟨r, hr⟩ := dvd_toPoly_steps poly 8 (c ^^^ b.setWidth w)
      rw [toPoly_xor, toPoly_setWidth hw] at hr
      have hpow : (X : (ZMod 2)[X]) ^ w = X ^ 8 * X ^ (w - 8) := by
        rw [← pow_add, show 8 + (w - 8) = w by omega]
      refine ⟨q + X ^ (8 * bs.length) * r, ?_⟩
      rw [List.foldl_cons, message_cons, List.length_cons, Nat.mul_add, pow_add]
      rw [feed] at hq
      rw [hpow] at hq ⊢
      rw [feed]
      linear_combination hq + X ^ (8 * bs.length) * hr

/-- The register holds the remainder of what it started with and of the message. -/
theorem toPoly_foldl_feed (hw : 8 ≤ w) (c : BitVec w) (bs : List (BitVec 8)) :
    toPoly (bs.foldl (feed poly) c) =
      (X ^ (8 * bs.length) * toPoly c + X ^ w * message bs) %ₘ modulus poly :=
  toPoly_eq_modByMonic poly (dvd_toPoly_foldl_feed poly hw c bs)

/-! ## What is told apart -/

theorem isCoprime_modulus_X_pow (hpoly : poly.msb = true) (n : Nat) :
    IsCoprime (modulus poly) (X ^ n) := by
  have hmsb : poly.getMsbD 0 = true := hpoly
  have hw : 0 ≠ w := by
    rintro rfl
    simp at hmsb
  have hone : (modulus poly).coeff 0 = 1 := by
    rw [modulus, coeff_add, coeff_toPoly, hmsb, coeff_X_pow, if_neg hw]
    rfl
  have hsplit := divX_mul_X_add (modulus poly)
  rw [hone, map_one] at hsplit
  apply IsCoprime.pow_right
  exact ⟨1, -(modulus poly).divX, by linear_combination -hsplit⟩

/-- Two messages of one length leave the same register exactly when the polynomial
divides their difference. -/
theorem foldl_feed_eq_iff_dvd (hw : 8 ≤ w) (hpoly : poly.msb = true) (c : BitVec w)
    {bs bs' : List (BitVec 8)} (hlen : bs.length = bs'.length) :
    bs.foldl (feed poly) c = bs'.foldl (feed poly) c ↔
      modulus poly ∣ message bs - message bs' := by
  rw [← toPoly_injective.eq_iff, toPoly_foldl_feed poly hw, toPoly_foldl_feed poly hw, ← sub_eq_zero,
    ← sub_modByMonic, hlen]
  rw [show X ^ (8 * bs'.length) * toPoly c + X ^ w * message bs -
    (X ^ (8 * bs'.length) * toPoly c + X ^ w * message bs') =
      X ^ w * (message bs - message bs') by ring, modByMonic_eq_zero_iff_dvd (monic_modulus poly)]
  constructor
  · exact (isCoprime_modulus_X_pow poly hpoly w).dvd_of_dvd_mul_left
  · intro hdvd
    exact hdvd.mul_left (X ^ w)

/-- A difference of fewer bits than the register has, wherever it stands, is no multiple. -/
theorem not_dvd_mul_X_pow (hpoly : poly.msb = true) {e : (ZMod 2)[X]} (he : e ≠ 0)
    (hdegree : e.degree < w) (k : Nat) : ¬ modulus poly ∣ e * X ^ k := by
  intro hdvd
  have he' := (isCoprime_modulus_X_pow poly hpoly k).dvd_of_dvd_mul_right hdvd
  rw [← degree_modulus poly] at hdegree
  exact (monic_modulus poly).not_dvd_of_degree_lt he hdegree he'

/-- A burst of errors that is no longer than the register changes it. -/
theorem foldl_feed_ne_of_burst (hw : 8 ≤ w) (hpoly : poly.msb = true) (c : BitVec w)
    {bs bs' : List (BitVec 8)} {before after u v : List Bool}
    (hbs : bits bs = before ++ u ++ after) (hbs' : bits bs' = before ++ v ++ after)
    (hlen : u.length = v.length) (hshort : u.length ≤ w) (hne : u ≠ v) :
    bs.foldl (feed poly) c ≠ bs'.foldl (feed poly) c := by
  have hlen' : bs.length = bs'.length := by
    have h := length_bits bs
    have h' := length_bits bs'
    rw [hbs] at h
    rw [hbs'] at h'
    simp only [List.length_append] at h h'
    omega
  have hdiff : message bs - message bs' = (ofBits u - ofBits v) * X ^ after.length := by
    rw [message, message, hbs, hbs', ofBits_append, ofBits_append, ofBits_append, ofBits_append,
      hlen]
    ring
  have hdegree : (ofBits u - ofBits v).degree < w := by
    have hu := degree_ofBits_lt u
    have hv := degree_ofBits_lt v
    rw [← hlen] at hv
    calc
      (ofBits u - ofBits v).degree ≤ max (ofBits u).degree (ofBits v).degree := degree_sub_le _ _
      _ < u.length := max_lt hu hv
      _ ≤ w := Nat.cast_le.mpr hshort
  have hzero : ofBits u - ofBits v ≠ 0 := fun h => hne (ofBits_injective hlen (sub_eq_zero.mp h))
  rw [Ne, foldl_feed_eq_iff_dvd poly hw hpoly c hlen', hdiff]
  exact not_dvd_mul_X_pow poly hpoly hzero hdegree after.length

end Register

end Crc
