import Dockerfiles.Checksum.Fletcher
import Dockerfiles.Zlib.Crc32

/-! # Adler-32

`adler32.c` of zlib. The two sums are kept in an `unsigned long` and are reduced only
once in `NMAX` bytes; with `NO_DIVIDE` a remainder is taken by shifts. The checksum is
specified by sums that are not bounded.
-/

namespace Zlib

def base : Nat := 65521

def nmax : Nat := 5552

/-- How `adler32.c` was compiled. -/
structure Build where
  /-- Whether an `unsigned long` has 64 bits, and not 32. -/
  long64 : Bool
  /-- `NO_DIVIDE`. -/
  noDivide : Bool
deriving DecidableEq, Repr

namespace Build

/-- The size of an `unsigned long`. -/
def size (build : Build) : Nat := if build.long64 then 2 ^ 64 else 2 ^ 32

def chop (build : Build) (a : Nat) : Nat :=
  let tmp := a >>> 16
  ((a &&& 0xffff) + ((tmp <<< 4) - tmp)) % build.size

def subBase (a : Nat) : Nat := if base ≤ a then a - base else a

def mod28 (build : Build) (a : Nat) : Nat :=
  if build.noDivide then subBase (build.chop a) else a % base

def mod (build : Build) (a : Nat) : Nat :=
  if build.noDivide then build.mod28 (build.chop a) else a % base

/-- `MOD63`, for a number that is not negative. -/
def mod63 (build : Build) (a : Nat) : Nat :=
  if build.noDivide then
    let tmp := a >>> 32
    let a := (a &&& 0xffffffff) + ((tmp <<< 8) - (tmp <<< 5) + tmp)
    let tmp := a >>> 16
    let a := (a &&& 0xffff) + ((tmp <<< 4) - tmp)
    let tmp := a >>> 16
    let a := (a &&& 0xffff) + ((tmp <<< 4) - tmp)
    subBase a
  else a % base

def do1 (build : Build) (s : Nat × Nat) (b : Bytef) : Nat × Nat :=
  let adler := (s.1 + b.toNat) % build.size
  (adler, (s.2 + adler) % build.size)

/-- `DO16`, `n` times, with `buf` moved on by 16. -/
def do16Loop (build : Build) : Nat → Nat × Nat → List Bytef → (Nat × Nat) × List Bytef
  | 0, s, buf => (s, buf)
  | n + 1, s, buf => do16Loop build n ((buf.take 16).foldl build.do1 s) (buf.drop 16)

/-- The blocks of `NMAX` bytes, `k` of them. -/
def blockLoop (build : Build) : Nat → Nat × Nat → List Bytef → (Nat × Nat) × List Bytef
  | 0, s, buf => (s, buf)
  | k + 1, s, buf =>
      let block := build.do16Loop (nmax / 16) s buf
      build.blockLoop k (build.mod block.1.1, build.mod block.1.2) block.2

/-- `adler | (sum2 << 16)`. -/
def recombine (build : Build) (s : Nat × Nat) : Nat := s.1 ||| ((s.2 <<< 16) % build.size)

/-- `adler32`; no buffer is `Z_NULL`, with a length other than one. -/
def adler32 (build : Build) (adler : Nat) (buf : Option (List Bytef)) : Nat :=
  let sum2 := (adler >>> 16) &&& 0xffff
  let adler := adler &&& 0xffff
  match buf with
  | none => 1
  | some [b] =>
      let adler := subBase ((adler + b.toNat) % build.size)
      let sum2 := subBase ((sum2 + adler) % build.size)
      build.recombine (adler, sum2)
  | some buf =>
      if buf.length < 16 then
        let s := buf.foldl build.do1 (adler, sum2)
        build.recombine (subBase s.1, build.mod28 s.2)
      else
        let blocks := build.blockLoop (buf.length / nmax) (adler, sum2) buf
        if blocks.2.length ≠ 0 then
          let sixteens := build.do16Loop (blocks.2.length / 16) blocks.1 blocks.2
          let s := sixteens.2.foldl build.do1 sixteens.1
          build.recombine (build.mod s.1, build.mod s.2)
        else build.recombine blocks.1

def adler32Combine (build : Build) (adler1 adler2 : Nat) (len2 : Int) : Nat :=
  if len2 < 0 then 0xffffffff
  else
    let rem := build.mod63 len2.toNat % 2 ^ 32
    let sum1 := adler1 &&& 0xffff
    let sum2 := build.mod (rem * sum1 % build.size)
    let sum1 := (sum1 + ((adler2 &&& 0xffff) + base - 1)) % build.size
    let sum2 := (sum2 + (((adler1 >>> 16) &&& 0xffff) + ((adler2 >>> 16) &&& 0xffff) + base - rem)) %
      build.size
    let sum1 := subBase sum1
    let sum1 := subBase sum1
    let sum2 := if base <<< 1 ≤ sum2 then sum2 - (base <<< 1) else sum2
    let sum2 := subBase sum2
    build.recombine (sum1, sum2)

/-! ## Remainders without division -/

variable (build : Build)

theorem le_size : 2 ^ 32 ≤ build.size := by
  rw [size]
  split <;> decide

theorem size_le : build.size ≤ 2 ^ 64 := by
  rw [size]
  split <;> decide

theorem and_ffff (a : Nat) : a &&& 0xffff = a % 65536 := Nat.and_two_pow_sub_one_eq_mod a 16

theorem shiftLeft_four_sub (tmp : Nat) : (tmp <<< 4) - tmp = 15 * tmp := by
  rw [Nat.shiftLeft_eq]
  omega

theorem chop_eq {a : Nat} (ha : a < build.size) :
    build.chop a = a % 65536 + 15 * (a / 65536) := by
  have hsize := build.le_size
  have hsize' := build.size_le
  rw [chop, and_ffff, shiftLeft_four_sub, Nat.shiftRight_eq_div_pow]
  apply Nat.mod_eq_of_lt
  omega

theorem subBase_eq_mod {a : Nat} (ha : a < 2 * base) : subBase a = a % base := by
  rw [base] at ha
  rw [subBase, base]
  split <;> omega

theorem mod28_eq_mod {a : Nat} (ha : a < 2 ^ 28) : build.mod28 a = a % base := by
  have hsize := build.le_size
  rw [mod28]
  split
  · rw [build.chop_eq (by omega), subBase_eq_mod (by rw [base]; omega), base]
    omega
  · rfl

theorem mod_eq_mod {a : Nat} (ha : a < 2 ^ 32) : build.mod a = a % base := by
  have hsize := build.le_size
  rw [mod]
  split
  · rw [build.chop_eq (by omega), build.mod28_eq_mod (by omega), base]
    omega
  · rfl

theorem mod63_eq_mod {a : Nat} (ha : a < 2 ^ 63) : build.mod63 a = a % base := by
  have hlow : ∀ a, a &&& 0xffffffff = a % 4294967296 :=
    fun a => Nat.and_two_pow_sub_one_eq_mod a 32
  have hhigh : ∀ tmp, (tmp <<< 8) - (tmp <<< 5) + tmp = 225 * tmp := by
    intro tmp
    rw [Nat.shiftLeft_eq, Nat.shiftLeft_eq]
    omega
  rw [mod63]
  split
  · simp only [and_ffff, hlow, hhigh, shiftLeft_four_sub, Nat.shiftRight_eq_div_pow]
    have hfold : ∀ a, (a % 65536 + 15 * (a / 65536)) % base = a % base := by
      intro a
      rw [base]
      omega
    have hfold32 : (a % 4294967296 + 225 * (a / 4294967296)) % base = a % base := by
      rw [base]
      omega
    have hbound : a % 4294967296 + 225 * (a / 4294967296) < 2 ^ 40 := by omega
    have hbound' : ∀ a, a < 2 ^ 40 → a % 65536 + 15 * (a / 65536) < 2 ^ 28 := by omega
    have hbound'' : ∀ a, a < 2 ^ 28 → a % 65536 + 15 * (a / 65536) < 2 * base := by
      intro a ha
      rw [base]
      omega
    rw [subBase_eq_mod (hbound'' _ (hbound' _ hbound)), hfold, hfold, hfold32]
  · rfl

/-! ## Sums that fit -/

def values (buf : List Bytef) : List Nat := buf.map BitVec.toNat

theorem values_le (buf : List Bytef) : ∀ x ∈ values buf, x ≤ 255 := by
  intro x hx
  obtain ⟨b, _, rfl⟩ := List.mem_map.mp hx
  exact Nat.le_of_lt_succ b.isLt

/-- While the sums fit, no word overflows on the way. -/
theorem foldl_do1_of_fits {s : Nat × Nat} {buf : List Bytef}
    (hfits : ((values buf).foldl Checksum.feed s).1 < 2 ^ 32)
    (hfits' : ((values buf).foldl Checksum.feed s).2 < 2 ^ 32) :
    buf.foldl build.do1 s = (values buf).foldl Checksum.feed s := by
  have hsize := build.le_size
  induction buf generalizing s with
  | nil => rfl
  | cons b buf ih =>
      have hrest := Checksum.foldl_feed (Checksum.feed s b.toNat) (values buf)
      simp only [values, List.map_cons, List.foldl_cons] at hfits hfits' hrest ih ⊢
      -- the sums only grow, so what fits at the end fits now
      have hfeed : build.do1 s b = Checksum.feed s b.toNat := by
        rw [hrest] at hfits hfits'
        simp only [Checksum.feed] at hfits hfits'
        rw [do1, Checksum.feed]
        simp only [Prod.mk.injEq]
        rw [Nat.mod_eq_of_lt (a := s.1 + b.toNat) (by omega)]
        exact ⟨rfl, Nat.mod_eq_of_lt (by omega)⟩
      rw [hfeed, ih hfits hfits']

/-- `NMAX` bytes fit, also after a start of two full halves. -/
theorem foldl_feed_lt {s : Nat × Nat} (hs : s.1 < 65536) (hs' : s.2 < 65536) {buf : List Bytef}
    (hlen : buf.length ≤ nmax) :
    ((values buf).foldl Checksum.feed s).1 < 2 ^ 32 ∧
      ((values buf).foldl Checksum.feed s).2 < 2 ^ 32 := by
  obtain ⟨h1, h2⟩ := Checksum.sums_le (values_le buf)
  have hvalues : (values buf).length = buf.length := List.length_map _
  rw [hvalues] at h1 h2
  rw [nmax] at hlen
  rw [Checksum.foldl_feed, hvalues]
  have hmul : buf.length * s.1 ≤ 5552 * 65535 := Nat.mul_le_mul hlen (by omega)
  have hsquare : buf.length * (buf.length + 1) ≤ 5552 * 5553 := Nat.mul_le_mul hlen (by omega)
  constructor
  · show s.1 + _ < _
    omega
  · show s.2 + _ + _ < _
    omega

theorem foldl_do1_eq {s : Nat × Nat} (hs : s.1 < 65536) (hs' : s.2 < 65536) {buf : List Bytef}
    (hlen : buf.length ≤ nmax) : buf.foldl build.do1 s = (values buf).foldl Checksum.feed s := by
  obtain ⟨hfits, hfits'⟩ := foldl_feed_lt hs hs' hlen
  exact build.foldl_do1_of_fits hfits hfits'

theorem do16Loop_eq (n : Nat) (s : Nat × Nat) (buf : List Bytef) :
    build.do16Loop n s buf = ((buf.take (16 * n)).foldl build.do1 s, buf.drop (16 * n)) := by
  induction n generalizing s buf with
  | zero => rfl
  | succ n ih =>
      have htake : buf.take (16 * (n + 1)) = buf.take 16 ++ (buf.drop 16).take (16 * n) := by
        rw [show 16 * (n + 1) = 16 + 16 * n by omega, List.take_add]
      rw [do16Loop, ih, htake, List.foldl_append, List.drop_drop,
        show 16 + 16 * n = 16 * (n + 1) by omega]

/-- `adler32` as it would be with sums that are not bounded. -/
def adlerSpec (adler : Nat) (buf : List Bytef) : Nat :=
  let s := (values buf).foldl Checksum.feed (adler % 65536, adler / 65536 % 65536)
  s.1 % base + 65536 * (s.2 % base)

/-- Two pairs of sums that are the same up to multiples of `BASE`. -/
def Same (s t : Nat × Nat) : Prop := s.1 % base = t.1 % base ∧ s.2 % base = t.2 % base

theorem Same.foldl_feed {s t : Nat × Nat} (h : Same s t) (xs : List Nat) :
    Same (xs.foldl Checksum.feed s) (xs.foldl Checksum.feed t) := by
  obtain ⟨hs1, hs2⟩ := Checksum.foldl_feed_mod base s xs
  obtain ⟨ht1, ht2⟩ := Checksum.foldl_feed_mod base t xs
  rw [h.1, h.2] at hs1 hs2
  exact ⟨hs1.symm.trans ht1, hs2.symm.trans ht2⟩

theorem same_mod (s : Nat × Nat) : Same (s.1 % base, s.2 % base) s :=
  ⟨Nat.mod_mod _ _, Nat.mod_mod _ _⟩

theorem foldl_values_take_drop (s : Nat × Nat) (n : Nat) (buf : List Bytef) :
    (values buf).foldl Checksum.feed s =
      (values (buf.drop n)).foldl Checksum.feed ((values (buf.take n)).foldl Checksum.feed s) := by
  rw [← List.foldl_append, values, values, values, ← List.map_append, List.take_append_drop]

/-- One block: `NMAX` bytes of sums that fit, and two remainders. -/
theorem blockLoop_succ (k : Nat) {s : Nat × Nat} {buf : List Bytef} (hs : s.1 < 65536)
    (hs' : s.2 < 65536) :
    build.blockLoop (k + 1) s buf = build.blockLoop k
      (((values (buf.take nmax)).foldl Checksum.feed s).1 % base,
        ((values (buf.take nmax)).foldl Checksum.feed s).2 % base) (buf.drop nmax) := by
  have htake : (buf.take nmax).length ≤ nmax := by
    rw [List.length_take]
    exact Nat.min_le_left _ _
  obtain ⟨hfits, hfits'⟩ := foldl_feed_lt hs hs' htake
  rw [blockLoop, do16Loop_eq, show 16 * (nmax / 16) = nmax from rfl,
    build.foldl_do1_eq hs hs' htake, build.mod_eq_mod hfits, build.mod_eq_mod hfits']

/-- What the blocks leave: the rest of the buffer, and sums that are right up to
multiples and reduced. -/
theorem blockLoop_spec (k : Nat) {m : Nat} (hm : m ≤ 65536) {s : Nat × Nat} {buf : List Bytef}
    (hs : s.1 < m) (hs' : s.2 < m) :
    (build.blockLoop k s buf).2 = buf.drop (k * nmax) ∧
      (build.blockLoop k s buf).1.1 < (if k = 0 then m else base) ∧
      (build.blockLoop k s buf).1.2 < (if k = 0 then m else base) ∧
      Same ((values (buf.drop (k * nmax))).foldl Checksum.feed (build.blockLoop k s buf).1)
        ((values buf).foldl Checksum.feed s) := by
  induction k generalizing m s buf with
  | zero =>
      rw [Nat.zero_mul, List.drop_zero, blockLoop, if_pos rfl]
      exact ⟨rfl, hs, hs', rfl, rfl⟩
  | succ k ih =>
      rw [build.blockLoop_succ k (by omega) (by omega),
        foldl_values_take_drop s nmax buf, if_neg (Nat.succ_ne_zero k)]
      generalize (values (buf.take nmax)).foldl Checksum.feed s = t
      -- from here on the sums are below `BASE`
      have hpos : 0 < base := by decide
      obtain ⟨hrest, hlt, hlt', hsame⟩ := @ih base (by decide) (t.1 % base, t.2 % base)
        (buf.drop nmax) (Nat.mod_lt _ hpos) (Nat.mod_lt _ hpos)
      have htail := (same_mod t).foldl_feed (values (buf.drop nmax))
      rw [ite_self] at hlt hlt'
      rw [List.drop_drop, show nmax + k * nmax = (k + 1) * nmax by ring] at hrest hsame
      exact ⟨hrest, hlt, hlt', hsame.1.trans htail.1, hsame.2.trans htail.2⟩

theorem recombine_eq {s : Nat × Nat} (hs : s.1 < 65536) (hs' : s.2 < 65536) :
    build.recombine s = s.1 + 65536 * s.2 := by
  have hsize := build.le_size
  have hshift : s.2 <<< 16 = 65536 * s.2 := by
    rw [Nat.shiftLeft_eq]
    omega
  rw [recombine, Nat.mod_eq_of_lt (by omega), Nat.or_comm,
    ← Nat.shiftLeft_add_eq_or_of_lt (by omega), hshift, Nat.add_comm]

theorem recombine_mod (s : Nat × Nat) :
    build.recombine (s.1 % base, s.2 % base) = s.1 % base + 65536 * (s.2 % base) := by
  have hpos : 0 < base := by decide
  have h1 := Nat.mod_lt s.1 hpos
  have h2 := Nat.mod_lt s.2 hpos
  have hbase : base ≤ 65536 := by decide
  exact build.recombine_eq (by simpa using h1.trans_le hbase) (by simpa using h2.trans_le hbase)

theorem adler32_of_length_ne_one (adler : Nat) {buf : List Bytef} (hlen : buf.length ≠ 1) :
    build.adler32 adler (some buf) =
      if buf.length < 16 then
        build.recombine
          (subBase (buf.foldl build.do1 (adler &&& 0xffff, (adler >>> 16) &&& 0xffff)).1,
            build.mod28 (buf.foldl build.do1 (adler &&& 0xffff, (adler >>> 16) &&& 0xffff)).2)
      else
        let blocks := build.blockLoop (buf.length / nmax)
          (adler &&& 0xffff, (adler >>> 16) &&& 0xffff) buf
        if blocks.2.length ≠ 0 then
          let sixteens := build.do16Loop (blocks.2.length / 16) blocks.1 blocks.2
          let s := sixteens.2.foldl build.do1 sixteens.1
          build.recombine (build.mod s.1, build.mod s.2)
        else build.recombine blocks.1 := by
  match buf with
  | [] => rfl
  | [b] => exact absurd rfl hlen
  | b :: b' :: buf => rfl

theorem halves (adler : Nat) : (adler &&& 0xffff, (adler >>> 16) &&& 0xffff) =
    (adler % 65536, adler / 65536 % 65536) := by
  rw [and_ffff, and_ffff, Nat.shiftRight_eq_div_pow]

theorem adler32_single {adler : Nat} (hadler : adler / 65536 % 65536 < base) (b : Bytef) :
    build.adler32 adler (some [b]) = adlerSpec adler [b] := by
  have hsize := build.le_size
  have hb := b.isLt
  have hbase : base = 65521 := rfl
  have hpos : 0 < base := by decide
  have hlow : adler % 65536 < 65536 := Nat.mod_lt _ (by decide)
  have hsum := Nat.mod_lt (adler % 65536 + b.toNat) hpos
  simp only [adler32, and_ffff, Nat.shiftRight_eq_div_pow, adlerSpec, values, List.map_cons,
    List.map_nil, List.foldl_cons, List.foldl_nil, Checksum.feed]
  rw [Nat.mod_eq_of_lt (a := adler % 65536 + b.toNat) (by omega), subBase_eq_mod (by omega),
    Nat.mod_eq_of_lt (a := adler / 2 ^ 16 % 65536 + _) (by omega), subBase_eq_mod (by omega)]
  rw [build.recombine_mod (adler % 65536 + b.toNat, _), Nat.add_mod_mod]

theorem adler32_short (adler : Nat) {buf : List Bytef} (hlen : buf.length ≠ 1)
    (hshort : buf.length < 16) : build.adler32 adler (some buf) = adlerSpec adler buf := by
  have hlow : adler % 65536 < 65536 := Nat.mod_lt _ (by decide)
  have hhigh : adler / 65536 % 65536 < 65536 := Nat.mod_lt _ (by decide)
  have hfold := build.foldl_do1_eq (s := (adler % 65536, adler / 65536 % 65536)) hlow hhigh
    (show buf.length ≤ nmax by rw [nmax]; omega)
  obtain ⟨h1, h2⟩ := Checksum.sums_le (values_le buf)
  have hvalues : (values buf).length = buf.length := List.length_map _
  have hmul : buf.length * (adler % 65536) ≤ 15 * 65535 := Nat.mul_le_mul (by omega) (by omega)
  have hsquare : buf.length * (buf.length + 1) ≤ 15 * 16 := Nat.mul_le_mul (by omega) (by omega)
  rw [hvalues] at h1 h2
  rw [build.adler32_of_length_ne_one adler hlen, if_pos hshort, halves, hfold, adlerSpec]
  have hsums := Checksum.foldl_feed (adler % 65536, adler / 65536 % 65536) (values buf)
  rw [hvalues] at hsums
  rw [subBase_eq_mod (by rw [hsums, base]; simp only; omega),
    build.mod28_eq_mod (by rw [hsums]; simp only; omega)]
  exact build.recombine_mod _

theorem adler32_long (adler : Nat) {buf : List Bytef} (hlong : 16 ≤ buf.length) :
    build.adler32 adler (some buf) = adlerSpec adler buf := by
  have hlow : adler % 65536 < 65536 := Nat.mod_lt _ (by decide)
  have hhigh : adler / 65536 % 65536 < 65536 := Nat.mod_lt _ (by decide)
  obtain ⟨hrest, hlt, hlt', hsame⟩ := @blockLoop_spec build (buf.length / nmax) 65536
    (Nat.le_refl 65536) (adler % 65536, adler / 65536 % 65536) buf hlow hhigh
  rw [build.adler32_of_length_ne_one adler (by omega), if_neg (by omega), halves, adlerSpec]
  generalize build.blockLoop (buf.length / nmax) (adler % 65536, adler / 65536 % 65536) buf =
    blocks at hrest hlt hlt' hsame ⊢
  have hlen : blocks.2.length = buf.length % nmax := by
    have := Nat.div_add_mod buf.length nmax
    rw [hrest, List.length_drop, Nat.mul_comm]
    omega
  have hmod := Nat.mod_lt buf.length (show nmax > 0 by decide)
  rw [← hrest] at hsame
  simp only
  split
  · -- the rest is shorter than a block
    have hbound : (if buf.length / nmax = 0 then 65536 else base) ≤ 65536 := by
      split <;> decide
    have hs := Nat.lt_of_lt_of_le hlt hbound
    have hs' := Nat.lt_of_lt_of_le hlt' hbound
    obtain ⟨hfits, hfits'⟩ := foldl_feed_lt hs hs' (show blocks.2.length ≤ nmax by omega)
    rw [do16Loop_eq]
    simp only
    rw [← List.foldl_append, List.take_append_drop, build.foldl_do1_eq hs hs' (by omega),
      build.mod_eq_mod hfits, build.mod_eq_mod hfits', build.recombine_mod, hsame.1, hsame.2]
  · next hnone =>
      have hnil : blocks.2 = [] := List.eq_nil_of_length_eq_zero (by omega)
      have hblocks : buf.length / nmax ≠ 0 := by
        intro hzero
        have := Nat.div_add_mod buf.length nmax
        rw [hzero] at this
        omega
      have hreduced : blocks.1 = (blocks.1.1 % base, blocks.1.2 % base) := by
        rw [if_neg hblocks] at hlt hlt'
        rw [Nat.mod_eq_of_lt hlt, Nat.mod_eq_of_lt hlt']
      rw [hnil] at hsame
      rw [hreduced, build.recombine_mod, ← hsame.1, ← hsame.2]
      rfl

/-- The sums are never wrong for being reduced so rarely. -/
theorem adler32_eq_adlerSpec (adler : Nat) {buf : List Bytef}
    (hadler : buf.length = 1 → adler / 65536 % 65536 < base) :
    build.adler32 adler (some buf) = adlerSpec adler buf := by
  rcases Nat.lt_or_ge buf.length 16 with hshort | hlong
  · by_cases hlen : buf.length = 1
    · obtain ⟨b, rfl⟩ := List.length_eq_one_iff.mp hlen
      exact build.adler32_single (hadler rfl) b
    · exact build.adler32_short adler hlen hshort
  · exact build.adler32_long adler hlong

/-- However the program was compiled and however long the buffer is, the halves of the
checksum are the sum of its bytes and the sum of its sums. -/
theorem adler32_eq_weighted (adler : Nat) (buf : List Bytef)
    (hadler : buf.length = 1 → adler / 65536 % 65536 < base) :
    build.adler32 adler (some buf) =
      (adler % 65536 + (values buf).sum) % base +
        65536 * ((adler / 65536 % 65536 + buf.length * (adler % 65536) +
          Checksum.weighted (values buf)) % base) := by
  have hvalues : (values buf).length = buf.length := List.length_map _
  rw [build.adler32_eq_adlerSpec adler hadler, adlerSpec, Checksum.foldl_feed, Checksum.sums_eq,
    hvalues]

theorem adler32_eq_weighted_twenty :
    (Build.mk true true).adler32 1 (some (List.replicate 20 0xff#8)) =
      (1 % 65536 + (values (List.replicate 20 0xff#8)).sum) % base +
        65536 * ((1 / 65536 % 65536 + (List.replicate 20 0xff#8).length * (1 % 65536) +
          Checksum.weighted (values (List.replicate 20 0xff#8))) % base) :=
  adler32_eq_weighted ⟨true, true⟩ 1 _ (by decide)

/-! ## Two parts put together -/

theorem adlerSpec_halves (adler : Nat) (buf : List Bytef) :
    adlerSpec adler buf % 65536 =
        ((values buf).foldl Checksum.feed (adler % 65536, adler / 65536 % 65536)).1 % base ∧
      adlerSpec adler buf / 65536 % 65536 =
        ((values buf).foldl Checksum.feed (adler % 65536, adler / 65536 % 65536)).2 % base := by
  have hpos : 0 < base := by decide
  have hbase : base = 65521 := rfl
  have h1 := Nat.mod_lt
    ((values buf).foldl Checksum.feed (adler % 65536, adler / 65536 % 65536)).1 hpos
  have h2 := Nat.mod_lt
    ((values buf).foldl Checksum.feed (adler % 65536, adler / 65536 % 65536)).2 hpos
  rw [adlerSpec]
  constructor <;> omega

theorem subBase_subBase {a : Nat} (ha : a < 3 * base) : subBase (subBase a) = a % base := by
  by_cases hle : base ≤ a
  · rw [show subBase a = a - base from if_pos hle, subBase_eq_mod (by omega),
      ← Nat.mod_eq_sub_mod hle]
  · rw [show subBase a = a from if_neg hle, subBase_eq_mod (by omega)]

theorem subBase_sub_two {a : Nat} (ha : a < 4 * base) :
    subBase (if base <<< 1 ≤ a then a - (base <<< 1) else a) = a % base := by
  have htwo : base <<< 1 = 2 * base := rfl
  rw [htwo]
  by_cases hle : 2 * base ≤ a
  · rw [if_pos hle, subBase_eq_mod (by omega)]
    rw [base] at hle ⊢
    omega
  · rw [if_neg hle, subBase_eq_mod (by omega)]

/-- The checksum of a buffer is put after any other, given only its length. -/
theorem adler32Combine_adler32 (first second : Build) {adler1 : Nat} {buf2 : List Bytef}
    (hlow : adler1 % 65536 < base) (hhigh : adler1 / 65536 % 65536 < base)
    (hlen : buf2.length < 2 ^ 63) :
    build.adler32Combine adler1 (first.adler32 1 (some buf2)) buf2.length =
      second.adler32 adler1 (some buf2) := by
  have hone : 1 / 65536 % 65536 < base := by decide
  have hsize := build.le_size
  have hbase : base = 65521 := rfl
  have hrem : buf2.length % base < base := Nat.mod_lt _ (by decide)
  have hvalues : (values buf2).length = buf2.length := List.length_map _
  obtain ⟨hlow2, hhigh2⟩ := adlerSpec_halves 1 buf2
  rw [first.adler32_eq_adlerSpec 1 (fun _ => hone),
    second.adler32_eq_adlerSpec adler1 (fun _ => hhigh)]
  rw [adler32Combine, if_neg (by omega), Int.toNat_natCast, build.mod63_eq_mod hlen]
  simp only [and_ffff, Nat.shiftRight_eq_div_pow, Nat.reducePow]
  rw [hlow2, hhigh2]
  simp only [adlerSpec, Checksum.foldl_feed, hvalues, Nat.reduceMod, Nat.reduceDiv]
  -- no sum overflows, and every conditional subtraction completes a remainder
  have hproduct : buf2.length % base * (adler1 % 65536) ≤ 65520 * 65520 :=
    Nat.mul_le_mul (by omega) (by omega)
  have hreduced : buf2.length % base * (adler1 % 65536) % base =
      buf2.length * (adler1 % 65536) % base := by
    rw [Nat.mul_mod, Nat.mod_mod, ← Nat.mul_mod]
  generalize buf2.length * (adler1 % 65536) = full at hreduced ⊢
  rw [Nat.mod_eq_of_lt (a := buf2.length % base) (by omega)]
  generalize buf2.length % base * (adler1 % 65536) = product at hproduct hreduced ⊢
  generalize Checksum.sums (values buf2) = t
  have hmod1 := Nat.mod_lt (1 + t.1) (show base > 0 by decide)
  have hmod2 := Nat.mod_lt (0 + buf2.length * 1 + t.2) (show base > 0 by decide)
  have hmod3 := Nat.mod_lt product (show base > 0 by decide)
  rw [Nat.mod_eq_of_lt (a := product) (by omega), build.mod_eq_mod (a := product) (by omega)]
  have hsum1 : subBase (subBase ((adler1 % 65536 + ((1 + t.1) % base + base - 1)) % build.size)) =
      (adler1 % 65536 + t.1) % base := by
    rw [Nat.mod_eq_of_lt (by omega), subBase_subBase (by omega)]
    rw [base] at *
    omega
  rw [hsum1, Nat.mod_eq_of_lt (a := product % base + _) (by omega), subBase_sub_two (by omega)]
  have hsum2 : (product % base + (adler1 / 65536 % 65536 + (0 + buf2.length * 1 + t.2) % base +
      base - buf2.length % base)) % base = (adler1 / 65536 % 65536 + full + t.2) % base := by
    rw [base] at *
    omega
  rw [hsum2]
  exact build.recombine_mod (_, _)

theorem adler32Combine_adler32_two :
    (Build.mk true true).adler32Combine ((Build.mk true false).adler32 1 (some [0x61#8, 0x62#8]))
        ((Build.mk false true).adler32 1 (some [0x63#8])) 1 =
      (Build.mk false false).adler32 ((Build.mk true false).adler32 1 (some [0x61#8, 0x62#8]))
        (some [0x63#8]) :=
  adler32Combine_adler32 ⟨true, true⟩ ⟨false, true⟩ ⟨false, false⟩ (by decide) (by decide)
    (by decide)

end Build

end Zlib
