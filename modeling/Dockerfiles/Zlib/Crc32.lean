import Mathlib.Tactic.Linarith
import Dockerfiles.Crc.Matrix

/-! # CRC-32

`crc32.c` of zlib: a byte at a time from a table, four bytes at a time on machines of
either byte order, and the combination of the checksums of two parts. The tables are
those of `make_crc_table`, which `crc32.h` was written by. The checksum is specified by
the register that is shifted bit by bit.
-/

namespace Zlib

abbrev Bytef := BitVec 8

/-! ## The tables -/

/-- The exclusive-or pattern of the polynomial. -/
def poly : BitVec 32 :=
  [0, 1, 2, 4, 5, 7, 8, 10, 11, 12, 16, 22, 23, 26].foldl
    (fun poly p => poly ||| (1#32 <<< (31 - p))) 0#32

/-- The inner loop of `make_crc_table`, `k` times. -/
def bitLoop : Nat → BitVec 32 → BitVec 32
  | 0, c => c
  | k + 1, c => bitLoop k (if c &&& 1#32 ≠ 0#32 then poly ^^^ (c >>> 1) else c >>> 1)

def crcTable0 (n : Bytef) : BitVec 32 := bitLoop 8 (n.setWidth 32)

/-- `crc_table[k]` for `k` up to three: the checksum of each byte followed by `k`
zeros. -/
def crcTable : Nat → Bytef → BitVec 32
  | 0, n => crcTable0 n
  | k + 1, n => crcTable0 ((crcTable k n).setWidth 8) ^^^ (crcTable k n >>> 8)

def zswap32 (q : BitVec 32) : BitVec 32 :=
  ((q >>> 24) &&& 0xff#32) + ((q >>> 8) &&& 0xff00#32) + ((q &&& 0xff00#32) <<< 8) +
    ((q &&& 0xff#32) <<< 24)

/-- `crc_table[k + 4]`. -/
def crcTableSwapped (k : Nat) (n : Bytef) : BitVec 32 := zswap32 (crcTable k n)

/-! ## A byte at a time -/

def do1 (crc : BitVec 32) (b : Bytef) : BitVec 32 :=
  crcTable 0 ((crc ^^^ b.setWidth 32).setWidth 8) ^^^ (crc >>> 8)

/-- The loops of `crc32` without `BYFOUR`: eight bytes at a time, and the rest. -/
def crc32Bytes : BitVec 32 → List Bytef → BitVec 32
  | crc, b0 :: b1 :: b2 :: b3 :: b4 :: b5 :: b6 :: b7 :: buf =>
      crc32Bytes (do1 (do1 (do1 (do1 (do1 (do1 (do1 (do1 crc b0) b1) b2) b3) b4) b5) b6) b7) buf
  | crc, buf => buf.foldl do1 crc

def crc32Portable (crc : BitVec 32) (buf : List Bytef) : BitVec 32 :=
  crc32Bytes (crc ^^^ 0xffffffff#32) buf ^^^ 0xffffffff#32

/-! ## Four bytes at a time, lowest first -/

/-- Four bytes as a little-endian machine loads them. -/
def loadLittle (b0 b1 b2 b3 : Bytef) : BitVec 32 := b3 ++ (b2 ++ (b1 ++ b0))

/-- What `DOLIT4` does after the word is added. -/
def lit4 (c : BitVec 32) : BitVec 32 :=
  crcTable 3 (c.setWidth 8) ^^^ crcTable 2 ((c >>> 8).setWidth 8) ^^^
    crcTable 1 ((c >>> 16).setWidth 8) ^^^ crcTable 0 ((c >>> 24).setWidth 8)

/-- The bytes up to an aligned address, with the step `f`. -/
def headLoop (f : BitVec 32 → Bytef → BitVec 32) :
    Nat → BitVec 32 → List Bytef → BitVec 32 × List Bytef
  | _, c, [] => (c, [])
  | addr, c, b :: buf =>
      if addr % 4 ≠ 0 then headLoop f (addr + 1) (f c b) buf else (c, b :: buf)

/-- `n` words in a row, with the step `f`: `DOLIT4` or `DOBIG4`, or eight of them. -/
def wordLoop (f : BitVec 32 → Bytef → Bytef → Bytef → Bytef → BitVec 32) :
    Nat → BitVec 32 → List Bytef → BitVec 32 × List Bytef
  | n + 1, c, b0 :: b1 :: b2 :: b3 :: buf => wordLoop f n (f c b0 b1 b2 b3) buf
  | _, c, buf => (c, buf)

def doLit4 (c : BitVec 32) (b0 b1 b2 b3 : Bytef) : BitVec 32 := lit4 (c ^^^ loadLittle b0 b1 b2 b3)

/-- `crc32_little`, for a buffer at address `addr`. -/
def crc32Little (addr : Nat) (crc : BitVec 32) (buf : List Bytef) : BitVec 32 :=
  let head := headLoop do1 addr (~~~ crc) buf
  -- words in blocks of eight while 32 bytes are left, and then one by one
  let blocks := wordLoop doLit4 (head.2.length / 32 * 8) head.1 head.2
  let words := wordLoop doLit4 (blocks.2.length / 4) blocks.1 blocks.2
  ~~~ words.2.foldl do1 words.1

/-! ## Four bytes at a time, highest first -/

/-- Four bytes as a big-endian machine loads them. -/
def loadBig (b0 b1 b2 b3 : Bytef) : BitVec 32 := b0 ++ (b1 ++ (b2 ++ b3))

def doBig1 (c : BitVec 32) (b : Bytef) : BitVec 32 :=
  crcTableSwapped 0 (((c >>> 24) ^^^ b.setWidth 32).setWidth 8) ^^^ (c <<< 8)

/-- What `DOBIG4` does after the word is added. -/
def big4 (c : BitVec 32) : BitVec 32 :=
  crcTableSwapped 0 (c.setWidth 8) ^^^ crcTableSwapped 1 ((c >>> 8).setWidth 8) ^^^
    crcTableSwapped 2 ((c >>> 16).setWidth 8) ^^^ crcTableSwapped 3 ((c >>> 24).setWidth 8)

def doBig4 (c : BitVec 32) (b0 b1 b2 b3 : Bytef) : BitVec 32 := big4 (c ^^^ loadBig b0 b1 b2 b3)

/-- `crc32_big`, for a buffer at address `addr`. -/
def crc32Big (addr : Nat) (crc : BitVec 32) (buf : List Bytef) : BitVec 32 :=
  let head := headLoop doBig1 addr (~~~ zswap32 crc) buf
  let blocks := wordLoop doBig4 (head.2.length / 32 * 8) head.1 head.2
  let words := wordLoop doBig4 (blocks.2.length / 4) blocks.1 blocks.2
  zswap32 (~~~ words.2.foldl doBig1 words.1)

/-! ## The function -/

/-- How the program was compiled: without `BYFOUR`, or with it on a machine that loads
the lowest byte first or last, where the buffer is at an address. -/
inductive Machine where
  | portable
  | little (addr : Nat)
  | big (addr : Nat)
deriving DecidableEq, Repr

/-- `crc32`; no buffer is `Z_NULL`. -/
def crc32 (machine : Machine) (crc : BitVec 32) (buf : Option (List Bytef)) : BitVec 32 :=
  match buf with
  | none => 0#32
  | some buf =>
      match machine with
      | .portable => crc32Portable crc buf
      | .little addr => crc32Little addr crc buf
      | .big addr => crc32Big addr crc buf

/-! ## The checksum, bit by bit -/

/-- The CRC of a buffer that follows one with the CRC `crc`. -/
def crcSpec (crc : BitVec 32) (buf : List Bytef) : BitVec 32 :=
  ~~~ buf.foldl (Crc.feed poly) (~~~ crc)

theorem bitLoop_eq_steps (k : Nat) (c : BitVec 32) : bitLoop k c = Crc.steps poly k c := by
  induction k generalizing c with
  | zero => rfl
  | succ k ih =>
      have hstep : (if c &&& 1#32 ≠ 0#32 then poly ^^^ (c >>> 1) else c >>> 1) = Crc.step poly c := by
        have hbit : c &&& 1#32 ≠ 0#32 ↔ c.getLsbD 0 = true := by
          rw [BitVec.and_one_eq_setWidth_ofBool_getLsbD]
          cases c.getLsbD 0 <;> decide
        rw [Crc.step]
        by_cases h : c.getLsbD 0 = true
        · rw [if_pos (hbit.mpr h), if_pos h, BitVec.xor_comm]
        · rw [if_neg (fun hne => h (hbit.mp hne)), if_neg h]
      rw [bitLoop, Crc.steps, hstep, ih]

/-- Table `k` is `8 * (k + 1)` shifts of a byte. -/
theorem crcTable_eq_steps (k : Nat) (n : Bytef) :
    crcTable k n = Crc.steps poly (8 * (k + 1)) (n.setWidth 32) := by
  induction k with
  | zero => exact bitLoop_eq_steps 8 _
  | succ k ih =>
      have htable := Crc.steps_eq_table poly 8 (Crc.steps poly (8 * (k + 1)) (n.setWidth 32))
      rw [← Crc.steps_add] at htable
      simp only [crcTable, crcTable0, bitLoop_eq_steps, ih]
      rw [show 8 * (k + 1 + 1) = 8 * (k + 1) + 8 by omega, htable]
      rfl

theorem do1_eq_feed (crc : BitVec 32) (b : Bytef) : do1 crc b = Crc.feed poly crc b := by
  have htable := Crc.steps_eq_table poly 8 (crc ^^^ b.setWidth 32)
  have hbyte : (crc ^^^ b.setWidth 32) >>> 8 = crc >>> 8 := by
    apply BitVec.eq_of_getLsbD_eq
    intro i _
    simp only [BitVec.getLsbD_ushiftRight, BitVec.getLsbD_xor, BitVec.getLsbD_setWidth]
    rw [BitVec.getLsbD_of_ge b (8 + i) (by omega)]
    simp
  rw [do1, crcTable_eq_steps, Crc.feed, htable, hbyte]
  rfl

theorem foldl_do1_eq_feed (crc : BitVec 32) (buf : List Bytef) :
    buf.foldl do1 crc = buf.foldl (Crc.feed poly) crc := by
  have hfun : do1 = Crc.feed poly := by
    funext crc b
    exact do1_eq_feed crc b
  rw [hfun]

theorem crc32Bytes_eq_foldl (crc : BitVec 32) (buf : List Bytef) :
    crc32Bytes crc buf = buf.foldl do1 crc := by
  fun_induction crc32Bytes crc buf with
  | case1 crc b0 b1 b2 b3 b4 b5 b6 b7 buf ih => rw [ih]; rfl
  | case2 crc buf _ => rfl

theorem crc32Portable_eq (crc : BitVec 32) (buf : List Bytef) :
    crc32Portable crc buf = crcSpec crc buf := by
  have hnot : ∀ c : BitVec 32, c ^^^ 0xffffffff#32 = ~~~ c := by
    intro c
    exact BitVec.xor_allOnes
  rw [crc32Portable, hnot, hnot, crc32Bytes_eq_foldl, foldl_do1_eq_feed, crcSpec]

/-! ## Words -/

/-- Bits of a byte moved up by `n` places come down again. -/
theorem steps_byte_shiftLeft {n : Nat} (hn : n ≤ 24) (b : Bytef) :
    Crc.steps poly n (b.setWidth 32 <<< n) = b.setWidth 32 := by
  apply Crc.steps_shiftLeft
  intro i hi
  rw [BitVec.getLsbD_setWidth, BitVec.getLsbD_of_ge b i (by omega), Bool.and_false]

/-- A byte that comes after `n` shifts may be added before them. -/
theorem feed_steps {n : Nat} (hn : n ≤ 24) (c : BitVec 32) (b : Bytef) :
    Crc.feed poly (Crc.steps poly n c) b =
      Crc.steps poly (n + 8) (c ^^^ (b.setWidth 32 <<< n)) := by
  rw [Crc.feed, Crc.steps_add, Crc.steps_xor poly n, steps_byte_shiftLeft hn]

def byteAt (c : BitVec 32) (j : Nat) : Bytef := (c >>> (8 * j)).setWidth 8

theorem getLsbD_byteAt_shiftLeft (c : BitVec 32) (j i : Nat) :
    ((byteAt c j).setWidth 32 <<< (8 * j)).getLsbD i = (decide (i / 8 = j) && c.getLsbD i) := by
  by_cases hi : i < 32
  · by_cases hij : i < 8 * j
    · simp [BitVec.getLsbD_shiftLeft, hij, show i / 8 ≠ j by omega]
    · by_cases hhigh : i - 8 * j < 8
      · simp [byteAt, hi, hij, hhigh, show i - 8 * j < 32 by omega,
          show i / 8 = j by omega, show 8 * j + (i - 8 * j) = i by omega]
      · simp [BitVec.getLsbD_shiftLeft, byteAt, hij, hhigh, show i / 8 ≠ j by omega]
  · rw [BitVec.getLsbD_of_ge c i (by omega), BitVec.getLsbD_of_ge _ i (by omega), Bool.and_false]

/-- A word is its four bytes side by side. -/
theorem eq_xor_byteAt (c : BitVec 32) :
    c = (byteAt c 0).setWidth 32 <<< 0 ^^^ (byteAt c 1).setWidth 32 <<< 8 ^^^
      (byteAt c 2).setWidth 32 <<< 16 ^^^ (byteAt c 3).setWidth 32 <<< 24 := by
  apply BitVec.eq_of_getLsbD_eq
  intro i hi
  have h0 := getLsbD_byteAt_shiftLeft c 0 i
  have h1 := getLsbD_byteAt_shiftLeft c 1 i
  have h2 := getLsbD_byteAt_shiftLeft c 2 i
  have h3 := getLsbD_byteAt_shiftLeft c 3 i
  have hcases : i / 8 = 0 ∨ i / 8 = 1 ∨ i / 8 = 2 ∨ i / 8 = 3 := by omega
  simp only [Nat.mul_zero, Nat.mul_one, Nat.reduceMul] at h0 h1 h2 h3
  simp only [BitVec.getLsbD_xor, h0, h1, h2, h3]
  rcases hcases with h | h | h | h <;> simp [h]

theorem byteAt_loadLittle (b0 b1 b2 b3 : Bytef) :
    byteAt (loadLittle b0 b1 b2 b3) 0 = b0 ∧ byteAt (loadLittle b0 b1 b2 b3) 1 = b1 ∧
      byteAt (loadLittle b0 b1 b2 b3) 2 = b2 ∧ byteAt (loadLittle b0 b1 b2 b3) 3 = b3 := by
  refine ⟨?_, ?_, ?_, ?_⟩
  all_goals
    apply BitVec.eq_of_getLsbD_eq
    intro i hi
    simp only [byteAt, loadLittle, BitVec.getLsbD_setWidth, BitVec.getLsbD_ushiftRight,
      BitVec.getLsbD_append, hi, decide_true, Bool.true_and]
  · simp [hi, show i < 24 by omega, show i < 16 by omega]
  · simp [show 8 + i < 24 by omega, show 8 + i < 16 by omega]
  · simp [show 16 + i < 24 by omega, show ¬ 16 + i < 16 by omega]
  · simp [show ¬ 24 + i < 24 by omega]

/-- `DOLIT4` after the word is added is 32 shifts. -/
theorem lit4_eq_steps (c : BitVec 32) : lit4 c = Crc.steps poly 32 c := by
  have hmoved : ∀ {n m : Nat} (_ : n ≤ 24) (b : Bytef),
      Crc.steps poly (n + m) (b.setWidth 32 <<< n) = Crc.steps poly m (b.setWidth 32) := by
    intro n m hn b
    rw [Crc.steps_add, steps_byte_shiftLeft hn]
  have h0 := hmoved (Nat.zero_le 24) (byteAt c 0) (m := 32)
  have h1 := hmoved (show 8 ≤ 24 by omega) (byteAt c 1) (m := 24)
  have h2 := hmoved (show 16 ≤ 24 by omega) (byteAt c 2) (m := 16)
  have h3 := hmoved (Nat.le_refl 24) (byteAt c 3) (m := 8)
  have hsplit := congrArg (Crc.steps poly 32) (eq_xor_byteAt c)
  rw [Crc.steps_xor, Crc.steps_xor, Crc.steps_xor, h0, h1, h2, h3] at hsplit
  rw [hsplit, lit4]
  simp only [crcTable_eq_steps, byteAt, Nat.mul_zero, Nat.mul_one, BitVec.ushiftRight_zero]

/-- One `DOLIT4` is four bytes. -/
theorem doLit4_eq_do1 (c : BitVec 32) (b0 b1 b2 b3 : Bytef) :
    doLit4 c b0 b1 b2 b3 = do1 (do1 (do1 (do1 c b0) b1) b2) b3 := by
  have hword := eq_xor_byteAt (loadLittle b0 b1 b2 b3)
  obtain ⟨h0, h1, h2, h3⟩ := byteAt_loadLittle b0 b1 b2 b3
  rw [h0, h1, h2, h3] at hword
  have hzero : c = Crc.steps poly 0 c := rfl
  simp only [do1_eq_feed]
  rw [doLit4, lit4_eq_steps, hword]
  nth_rewrite 2 [hzero]
  rw [feed_steps (Nat.zero_le 24), feed_steps (by omega), feed_steps (by omega),
    feed_steps (by omega)]
  simp only [BitVec.xor_assoc]

section Loops

variable {f : BitVec 32 → Bytef → BitVec 32}

theorem foldl_headLoop (addr : Nat) (c : BitVec 32) (buf : List Bytef) :
    (headLoop f addr c buf).2.foldl f (headLoop f addr c buf).1 = buf.foldl f c := by
  fun_induction headLoop f addr c buf with
  | case1 => rfl
  | case2 addr c b buf _ ih => exact ih
  | case3 addr c b buf _ => rfl

/-- Words leave what four bytes would. -/
theorem foldl_wordLoop {f4 : BitVec 32 → Bytef → Bytef → Bytef → Bytef → BitVec 32}
    (hf : ∀ c b0 b1 b2 b3, f4 c b0 b1 b2 b3 = f (f (f (f c b0) b1) b2) b3)
    (n : Nat) (c : BitVec 32) (buf : List Bytef) :
    (wordLoop f4 n c buf).2.foldl f (wordLoop f4 n c buf).1 = buf.foldl f c := by
  fun_induction wordLoop f4 n c buf with
  | case1 n c b0 b1 b2 b3 buf ih =>
      rw [ih, hf]
      rfl
  | case2 => rfl

end Loops

theorem crc32Little_eq (addr : Nat) (crc : BitVec 32) (buf : List Bytef) :
    crc32Little addr crc buf = crcSpec crc buf := by
  simp only [crc32Little, foldl_wordLoop doLit4_eq_do1, foldl_headLoop, foldl_do1_eq_feed, crcSpec]

/-! ## Words of the other byte order -/

theorem getLsbD_ff (i : Nat) : (0xff#32).getLsbD i = decide (i < 8) := by
  by_cases hi : i < 32
  · have hall : ∀ i : Fin 32, (0xff#32).getLsbD i = decide (i.val < 8) := by decide
    exact hall ⟨i, hi⟩
  · rw [BitVec.getLsbD_of_ge _ i (by omega), decide_eq_false (by omega)]

theorem getLsbD_ff00 (i : Nat) : (0xff00#32).getLsbD i = decide (i / 8 = 1) := by
  by_cases hi : i < 32
  · have hall : ∀ i : Fin 32, (0xff00#32).getLsbD i = decide (i.val / 8 = 1) := by decide
    exact hall ⟨i, hi⟩
  · rw [BitVec.getLsbD_of_ge _ i (by omega), decide_eq_false (by omega)]

theorem zswap32_eq_or (q : BitVec 32) :
    zswap32 q = ((q >>> 24) &&& 0xff#32) ||| ((q >>> 8) &&& 0xff00#32) |||
      ((q &&& 0xff00#32) <<< 8) ||| ((q &&& 0xff#32) <<< 24) := by
  have hdisjoint : ∀ a b : BitVec 32, (∀ i, i < 32 → a.getLsbD i = true → b.getLsbD i = false) →
      a + b = a ||| b := by
    intro a b h
    apply BitVec.add_eq_or_of_and_eq_zero
    apply BitVec.eq_of_getLsbD_eq
    intro i hi
    rw [BitVec.getLsbD_and, BitVec.getLsbD_zero]
    cases ha : a.getLsbD i
    · rfl
    · rw [h i hi ha, Bool.and_false]
  rw [zswap32, hdisjoint ((q >>> 24) &&& 0xff#32), hdisjoint (_ ||| _) ((q &&& 0xff00#32) <<< 8),
    hdisjoint (_ ||| _) ((q &&& 0xff#32) <<< 24)]
  all_goals
    intro i hi
    simp only [BitVec.getLsbD_and, BitVec.getLsbD_or, BitVec.getLsbD_shiftLeft,
      BitVec.getLsbD_ushiftRight, getLsbD_ff, getLsbD_ff00]
    grind

/-- The place a bit comes from. -/
theorem getLsbD_zswap32 (q : BitVec 32) {i : Nat} (hi : i < 32) :
    (zswap32 q).getLsbD i = q.getLsbD (8 * (3 - i / 8) + i % 8) := by
  rw [zswap32_eq_or]
  simp only [BitVec.getLsbD_and, BitVec.getLsbD_or, BitVec.getLsbD_shiftLeft,
    BitVec.getLsbD_ushiftRight, getLsbD_ff, getLsbD_ff00]
  grind

theorem zswap32_xor (c d : BitVec 32) : zswap32 (c ^^^ d) = zswap32 c ^^^ zswap32 d := by
  apply BitVec.eq_of_getLsbD_eq
  intro i hi
  rw [BitVec.getLsbD_xor, getLsbD_zswap32 _ hi, getLsbD_zswap32 _ hi, getLsbD_zswap32 _ hi,
    BitVec.getLsbD_xor]

theorem zswap32_zswap32 (c : BitVec 32) : zswap32 (zswap32 c) = c := by
  apply BitVec.eq_of_getLsbD_eq
  intro i hi
  rw [getLsbD_zswap32 _ hi, getLsbD_zswap32 _ (by omega)]
  congr 1
  omega

theorem zswap32_not (c : BitVec 32) : zswap32 (~~~ c) = ~~~ zswap32 c := by
  apply BitVec.eq_of_getLsbD_eq
  intro i hi
  rw [getLsbD_zswap32 _ hi, BitVec.getLsbD_not, BitVec.getLsbD_not, getLsbD_zswap32 _ hi,
    decide_eq_true hi, decide_eq_true (by omega)]

theorem zswap32_ushiftRight (c : BitVec 32) : zswap32 (c >>> 8) = zswap32 c <<< 8 := by
  apply BitVec.eq_of_getLsbD_eq
  intro i hi
  rw [getLsbD_zswap32 _ hi, BitVec.getLsbD_ushiftRight, BitVec.getLsbD_shiftLeft]
  by_cases hlow : i < 8
  · simp [hlow, BitVec.getLsbD_of_ge c (8 + (8 * (3 - i / 8) + i % 8)) (by omega)]
  · rw [getLsbD_zswap32 _ (by omega)]
    simp only [hi, hlow, decide_true, decide_false, Bool.not_false, Bool.true_and]
    congr 1
    omega

theorem byteAt_zswap32 (c : BitVec 32) {j : Nat} (hj : j < 4) :
    byteAt (zswap32 c) j = byteAt c (3 - j) := by
  apply BitVec.eq_of_getLsbD_eq
  intro i hi
  simp only [byteAt, BitVec.getLsbD_setWidth, BitVec.getLsbD_ushiftRight, hi, decide_true,
    Bool.true_and]
  rw [getLsbD_zswap32 _ (by omega)]
  congr 1
  omega

theorem loadBig_eq (b0 b1 b2 b3 : Bytef) :
    loadBig b0 b1 b2 b3 = zswap32 (loadLittle b0 b1 b2 b3) := by
  obtain ⟨h0, h1, h2, h3⟩ := byteAt_loadLittle b0 b1 b2 b3
  obtain ⟨g0, g1, g2, g3⟩ := byteAt_loadLittle b3 b2 b1 b0
  have hbig : loadBig b0 b1 b2 b3 = loadLittle b3 b2 b1 b0 := rfl
  rw [hbig, eq_xor_byteAt (loadLittle b3 b2 b1 b0),
    eq_xor_byteAt (zswap32 (loadLittle b0 b1 b2 b3)), byteAt_zswap32 _ (by omega),
    byteAt_zswap32 _ (by omega), byteAt_zswap32 _ (by omega), byteAt_zswap32 _ (by omega),
    g0, g1, g2, g3, h0, h1, h2, h3]

/-- A byte on the swapped register is the swapped byte on the register. -/
theorem doBig1_zswap32 (c : BitVec 32) (b : Bytef) :
    doBig1 (zswap32 c) b = zswap32 (do1 c b) := by
  have htop : (zswap32 c >>> 24 ^^^ b.setWidth 32).setWidth 8 =
      (c ^^^ b.setWidth 32).setWidth 8 := by
    have hbyte := byteAt_zswap32 c (show 3 < 4 by omega)
    simp only [byteAt, Nat.reduceMul, Nat.sub_self, Nat.mul_zero, BitVec.ushiftRight_zero] at hbyte
    rw [BitVec.setWidth_xor, hbyte, BitVec.setWidth_xor]
  rw [doBig1, htop, do1, zswap32_xor, zswap32_ushiftRight]
  rfl

theorem big4_zswap32 (c : BitVec 32) : big4 (zswap32 c) = zswap32 (lit4 c) := by
  have hreverse : ∀ p q r s : BitVec 32, p ^^^ q ^^^ r ^^^ s = s ^^^ r ^^^ q ^^^ p := by
    intro p q r s
    ac_rfl
  have h0 := byteAt_zswap32 c (show 0 < 4 by omega)
  have h1 := byteAt_zswap32 c (show 1 < 4 by omega)
  have h2 := byteAt_zswap32 c (show 2 < 4 by omega)
  have h3 := byteAt_zswap32 c (show 3 < 4 by omega)
  simp only [byteAt, Nat.mul_zero, BitVec.ushiftRight_zero, Nat.reduceMul, Nat.reduceSub,
    Nat.sub_self, Nat.sub_zero] at h0 h1 h2 h3
  rw [big4, h0, h1, h2, h3, lit4]
  simp only [zswap32_xor, crcTableSwapped]
  exact hreverse _ _ _ _

theorem doBig4_eq_doBig1 (c : BitVec 32) (b0 b1 b2 b3 : Bytef) :
    doBig4 c b0 b1 b2 b3 = doBig1 (doBig1 (doBig1 (doBig1 c b0) b1) b2) b3 := by
  rw [← zswap32_zswap32 c]
  simp only [doBig1_zswap32]
  rw [← doLit4_eq_do1, doBig4, loadBig_eq, ← zswap32_xor, big4_zswap32, doLit4]

theorem foldl_doBig1_zswap32 (c : BitVec 32) (buf : List Bytef) :
    buf.foldl doBig1 (zswap32 c) = zswap32 (buf.foldl do1 c) := by
  induction buf generalizing c with
  | nil => rfl
  | cons b buf ih => rw [List.foldl_cons, List.foldl_cons, doBig1_zswap32, ih]

theorem crc32Big_eq (addr : Nat) (crc : BitVec 32) (buf : List Bytef) :
    crc32Big addr crc buf = crcSpec crc buf := by
  simp only [crc32Big, foldl_wordLoop doBig4_eq_doBig1, foldl_headLoop]
  rw [← zswap32_not, foldl_doBig1_zswap32, ← zswap32_not, zswap32_zswap32, foldl_do1_eq_feed,
    crcSpec]

/-- However the program was compiled and wherever the buffer is, the checksum is that of
the register shifted bit by bit. -/
theorem crc32_eq_crcSpec (machine : Machine) (crc : BitVec 32) (buf : List Bytef) :
    crc32 machine crc (some buf) = crcSpec crc buf := by
  cases machine with
  | portable => exact crc32Portable_eq crc buf
  | little addr => exact crc32Little_eq addr crc buf
  | big addr => exact crc32Big_eq addr crc buf

-- the digits from one to nine
example : crcSpec 0#32 [0x31#8, 0x32#8, 0x33#8, 0x34#8, 0x35#8, 0x36#8, 0x37#8, 0x38#8, 0x39#8] =
    0xcbf43926#32 := by decide +kernel

/-! ## Two parts put together -/

def gf2MatrixTimes (mat : List (BitVec 32)) (vec : BitVec 32) : BitVec 32 := Crc.apply 0#32 mat vec

def gf2MatrixSquare (mat : List (BitVec 32)) : List (BitVec 32) := Crc.square mat

def oneZeroBit : List (BitVec 32) :=
  0xedb88320#32 :: (List.range 31).map fun n => 1#32 <<< n

/-- The loop of `crc32_combine_`. The operator in `odd` is squared into `even` and back,
and is applied at the bits of `len2`. -/
def combineLoop (odd : List (BitVec 32)) (crc1 : BitVec 32) (len2 : Nat) : BitVec 32 :=
  let even := gf2MatrixSquare odd
  let crc1 := if len2 % 2 = 1 then gf2MatrixTimes even crc1 else crc1
  if len2 / 2 = 0 then crc1
  else
    let odd := gf2MatrixSquare even
    let crc1 := if len2 / 2 % 2 = 1 then gf2MatrixTimes odd crc1 else crc1
    if len2 / 2 / 2 = 0 then crc1
    else combineLoop odd crc1 (len2 / 2 / 2)
termination_by len2

def crc32Combine (crc1 crc2 : BitVec 32) (len2 : Int) : BitVec 32 :=
  if len2 ≤ 0 then crc1
  else
    let even := gf2MatrixSquare oneZeroBit
    let odd := gf2MatrixSquare even
    combineLoop odd crc1 len2.toNat ^^^ crc2

theorem oneZeroBit_eq : oneZeroBit = Crc.matrix (Crc.steps poly 1) := by decide

theorem gf2MatrixTimes_steps (n : Nat) (vec : BitVec 32) :
    gf2MatrixTimes (Crc.matrix (Crc.steps poly n)) vec = Crc.steps poly n vec :=
  Crc.apply_matrix (Crc.linear_steps poly n) vec

theorem gf2MatrixSquare_steps (n : Nat) :
    gf2MatrixSquare (Crc.matrix (Crc.steps poly n)) = Crc.matrix (Crc.steps poly (n + n)) :=
  Crc.square_steps poly n

/-- The operator for `n` zeros is applied when the bit is set. -/
theorem ite_gf2MatrixTimes (n len2 : Nat) (crc1 : BitVec 32) :
    (if len2 % 2 = 1 then gf2MatrixTimes (Crc.matrix (Crc.steps poly n)) crc1 else crc1) =
      Crc.steps poly (n * (len2 % 2)) crc1 := by
  rcases Nat.mod_two_eq_zero_or_one len2 with h | h
  · simp [h, Crc.steps]
  · simp [h, gf2MatrixTimes_steps]

theorem combineLoop_eq_steps (n : Nat) (crc1 : BitVec 32) (len2 : Nat) :
    combineLoop (Crc.matrix (Crc.steps poly n)) crc1 len2 =
      Crc.steps poly ((n + n) * len2) crc1 := by
  induction len2 using Nat.strongRecOn generalizing n crc1 with
  | _ len2 ih =>
      rw [combineLoop]
      simp only [gf2MatrixSquare_steps, ite_gf2MatrixTimes, ← Crc.steps_add]
      have hlow := Nat.div_add_mod len2 2
      split
      · next hdone =>
          congr 1
          rw [show len2 % 2 = len2 by omega]
      · have hhigh := Nat.div_add_mod (len2 / 2) 2
        split
        · next hdone =>
            congr 1
            rw [hdone, Nat.mul_zero, Nat.zero_add] at hhigh
            rw [hhigh]
            nlinarith
        · rw [ih _ (by omega), ← Crc.steps_add]
          congr 1
          nlinarith

/-- What came before a buffer counts as if zeros had followed it. -/
theorem crcSpec_eq_steps (crc : BitVec 32) (buf : List Bytef) :
    crcSpec crc buf = Crc.steps poly (8 * buf.length) crc ^^^ crcSpec 0#32 buf := by
  have hstart : ~~~ crc = crc ^^^ ~~~ 0#32 := by
    rw [BitVec.not_zero, BitVec.xor_allOnes]
  rw [crcSpec, crcSpec, hstart, Crc.foldl_feed_xor, BitVec.not_xor_right]

/-- The checksum of a buffer is put after any other, given only its length. -/
theorem crc32Combine_crc32 (first second : Machine) (crc1 : BitVec 32) (buf2 : List Bytef) :
    crc32Combine crc1 (crc32 first 0#32 (some buf2)) buf2.length =
      crc32 second crc1 (some buf2) := by
  rw [crc32_eq_crcSpec, crc32_eq_crcSpec, crc32Combine]
  split
  · next hle =>
      have hnil : buf2 = [] := List.eq_nil_of_length_eq_zero (by omega)
      subst hnil
      simp [crcSpec]
  · rw [crcSpec_eq_steps crc1]
    simp only [oneZeroBit_eq, gf2MatrixSquare_steps, combineLoop_eq_steps, Int.toNat_natCast]

end Zlib
