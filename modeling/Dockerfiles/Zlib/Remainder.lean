import Dockerfiles.Crc.Polynomial
import Dockerfiles.Zlib.Crc32

/-! # What CRC-32 detects

The register of `crc32` is the remainder that the comment before `make_crc_table`
describes. Which changes of a buffer go unnoticed is then a matter of divisibility.
-/

open Polynomial

namespace Zlib

theorem poly_msb : poly.msb = true := by decide

/-- The polynomial of `crc32.c`. -/
theorem modulus_poly :
    Crc.modulus poly = X ^ 32 + X ^ 26 + X ^ 23 + X ^ 22 + X ^ 16 + X ^ 12 + X ^ 11 + X ^ 10 +
      X ^ 8 + X ^ 7 + X ^ 5 + X ^ 4 + X ^ 2 + X + 1 := by
  have hpoly : Crc.toPoly poly =
      ∑ n ∈ Finset.range 32, if n ∈ [0, 1, 2, 4, 5, 7, 8, 10, 11, 12, 16, 22, 23, 26] then X ^ n
        else 0 := by
    apply Finset.sum_congr rfl
    intro n hn
    have hbits : ∀ n : Fin 32, poly.getMsbD n =
        decide (n.val ∈ [0, 1, 2, 4, 5, 7, 8, 10, 11, 12, 16, 22, 23, 26]) := by decide
    rw [hbits ⟨n, Finset.mem_range.mp hn⟩]
    split_ifs with h <;> simp_all
  rw [Crc.modulus, hpoly]
  simp [Finset.sum_range_succ]
  ring

/-- The checksum is, up to the complements before and after, the remainder of what came
before it and of the buffer. -/
theorem crc32_remainder (machine : Machine) (crc : BitVec 32) (buf : List Bytef) :
    Crc.toPoly (~~~ crc32 machine crc (some buf)) =
      (X ^ (8 * buf.length) * Crc.toPoly (~~~ crc) + X ^ 32 * Crc.message buf) %ₘ
        (X ^ 32 + X ^ 26 + X ^ 23 + X ^ 22 + X ^ 16 + X ^ 12 + X ^ 11 + X ^ 10 + X ^ 8 + X ^ 7 +
          X ^ 5 + X ^ 4 + X ^ 2 + X + 1) := by
  rw [crc32_eq_crcSpec, crcSpec, BitVec.not_not, ← modulus_poly,
    Crc.toPoly_foldl_feed poly (by omega)]

/-- A change goes unnoticed exactly when the polynomial divides it. -/
theorem crc32_eq_iff_dvd (machine : Machine) (crc : BitVec 32) {buf buf' : List Bytef}
    (hlen : buf.length = buf'.length) :
    crc32 machine crc (some buf) = crc32 machine crc (some buf') ↔
      Crc.modulus poly ∣ Crc.message buf - Crc.message buf' := by
  rw [crc32_eq_crcSpec, crc32_eq_crcSpec, crcSpec, crcSpec, BitVec.not_inj,
    Crc.foldl_feed_eq_iff_dvd poly (by omega) poly_msb _ hlen]

theorem crc32_eq_iff_dvd_one :
    crc32 .portable 0#32 (some [0x01#8]) = crc32 .portable 0#32 (some [0x02#8]) ↔
      Crc.modulus poly ∣ Crc.message [0x01#8] - Crc.message [0x02#8] :=
  crc32_eq_iff_dvd .portable 0#32 rfl

/-- A burst of at most 32 bits is always noticed. -/
theorem crc32_ne_of_burst (machine : Machine) (crc : BitVec 32) {buf buf' : List Bytef}
    {before after u v : List Bool} (hbuf : Crc.bits buf = before ++ u ++ after)
    (hbuf' : Crc.bits buf' = before ++ v ++ after) (hlen : u.length = v.length)
    (hshort : u.length ≤ 32) (hne : u ≠ v) :
    crc32 machine crc (some buf) ≠ crc32 machine crc (some buf') := by
  rw [crc32_eq_crcSpec, crc32_eq_crcSpec, crcSpec, crcSpec, Ne, BitVec.not_inj]
  exact Crc.foldl_feed_ne_of_burst poly (by omega) poly_msb _ hbuf hbuf' hlen hshort hne

theorem crc32_ne_of_burst_flip :
    crc32 (.little 3) 0#32 (some [0x61#8, 0x62#8]) ≠
      crc32 (.little 3) 0#32 (some [0x61#8, 0x42#8]) :=
  @crc32_ne_of_burst (.little 3) 0#32 _ _
    [true, false, false, false, false, true, true, false, false, true, false, false, false]
    [true, false] [true] [false] rfl rfl rfl (by decide) (by decide)

end Zlib
