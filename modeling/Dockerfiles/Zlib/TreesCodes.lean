import Dockerfiles.Zlib.PuffCodes
import Dockerfiles.Zlib.TreesBits

/-! # The codes of `trees.c`

`gen_codes` gives each element the word of its canonical code, with the bits reversed, so
that `send_code` sends the word from its highest bit on.
-/

namespace Trees

open Puff (entry entry_set entry_modify)
open Canonical (first Fits IsCode count len word)
open Bits (lsb msb)

section NextCodes

variable {c : Nat → Nat} {blCount : List Nat}

theorem Fits.first_le (hfits : Fits c maxBits) {l : Nat} (hl : 1 ≤ l) (hm : l ≤ maxBits) :
    first c l + c l ≤ 2 ^ maxBits :=
  (hfits l hl hm).trans (Nat.pow_le_pow_right Nat.two_pos hm)

/-- `next_code` starts with the first word of each length. -/
theorem entry_nextCodes (hfits : Fits c maxBits)
    (hcount : ∀ l, 1 ≤ l → l ≤ maxBits → entry blCount l = c l) {k bits code i : Nat}
    (hbits : 1 ≤ bits) (hk : bits + k ≤ maxBits + 1) (hi : i < k)
    (hcode : 2 * (code + entry blCount (bits - 1)) = first c bits) :
    entry (nextCodes blCount k bits code) i = first c (bits + i) := by
  induction k generalizing bits code i with
  | zero => omega
  | succ k ih =>
      have hroom := Fits.first_le hfits hbits (by omega)
      have hlt : first c bits < 2 ^ 16 := by
        have : 2 ^ maxBits < 2 ^ 16 := by decide
        omega
      have hnext : ((code + entry blCount (bits - 1)) <<< 1) % 2 ^ 16 = first c bits := by
        rw [Nat.shiftLeft_eq, Nat.pow_one, Nat.mul_comm, hcode, Nat.mod_eq_of_lt hlt]
      rw [nextCodes, hnext]
      cases i with
      | zero => rfl
      | succ i =>
          show entry (nextCodes blCount k (bits + 1) (first c bits)) i = _
          rw [ih (by omega) (by omega) (by omega)]
          · rw [show bits + 1 + i = bits + (i + 1) by omega]
          · rw [Nat.add_sub_cancel, hcount bits hbits (by omega), Canonical.first_succ c hbits]

end NextCodes

/-- What `next_code` is after one more element of length `l'` was given its word. -/
theorem entry_nextCode_step {lens : List Nat} (hcode : IsCode lens maxBits) {n : Nat}
    (hzero : len lens n ≠ 0) {nextCode : List Nat}
    (hlength : nextCode.length = maxBits + 1)
    (hnext : ∀ l, 1 ≤ l → l ≤ maxBits →
      entry nextCode l = first (count lens) l + count (lens.take n) l) {l : Nat} (hl : 1 ≤ l)
    (hm : l ≤ maxBits) :
    entry (nextCode.modify (len lens n) fun code => (code + 1) % 2 ^ 16) l =
      first (count lens) l + count (lens.take (n + 1)) l := by
  have hn := Canonical.lt_length_of_len_ne_zero lens hzero
  rw [entry_modify, Canonical.count_take_add_one lens hn, hnext l hl hm]
  by_cases h : l = len lens n
  · have hword := hcode.word_lt hzero
    have hpow : 2 ^ len lens n ≤ 2 ^ maxBits := Nat.pow_le_pow_right Nat.two_pos (hcode.le n)
    have hsmall : 2 ^ maxBits < 2 ^ 16 := by decide
    have hsum : first (count lens) l + count (lens.take n) l = word lens n := by
      rw [h]
      rfl
    rw [if_pos ⟨h, by omega⟩, if_pos h, hsum, Nat.mod_eq_of_lt (by omega)]
    omega
  · rw [if_neg (fun hx => h hx.1), if_neg h, Nat.add_zero]

/-- Elements are given their words one after the other. -/
theorem genCodesLoop_spec {lens : List Nat} (hcode : IsCode lens maxBits) {k n : Nat}
    {nextCode : List Nat} {tree : Tree} (hk : n + k = lens.length)
    (hdl : ∀ m, m < lens.length → entry tree.dl m = len lens m)
    (hfc : lens.length ≤ tree.fc.length) (hlength : nextCode.length = maxBits + 1)
    (hnext : ∀ l, 1 ≤ l → l ≤ maxBits →
      entry nextCode l = first (count lens) l + count (lens.take n) l) :
    (genCodesLoop k n nextCode tree).dl = tree.dl ∧
      (∀ m, m < n → entry (genCodesLoop k n nextCode tree).fc m = entry tree.fc m) ∧
      ∀ m, n ≤ m → m < n + k → len lens m ≠ 0 →
        entry (genCodesLoop k n nextCode tree).fc m = biReverse (word lens m) (len lens m) := by
  induction k generalizing n nextCode tree with
  | zero => exact ⟨rfl, fun _ _ => rfl, fun m h1 h2 => absurd h2 (by omega)⟩
  | succ k ih =>
      have hn : n < lens.length := by omega
      rw [genCodesLoop, hdl n hn]
      by_cases hzero : len lens n = 0
      · have hstep : ∀ l, 1 ≤ l → l ≤ maxBits →
            entry nextCode l = first (count lens) l + count (lens.take (n + 1)) l := by
          intro l hl hm
          rw [hnext l hl hm, Canonical.count_take_add_one lens hn, if_neg (by omega), Nat.add_zero]
        obtain ⟨h1, h2, h3⟩ := ih (by omega) hdl hfc hlength hstep
        rw [if_pos hzero]
        refine ⟨h1, fun m hm => h2 m (by omega), ?_⟩
        intro m hge hlt hm
        have hne : m ≠ n := by
          rintro rfl
          exact hm hzero
        exact h3 m (by omega) (by omega) hm
      · have hword : entry nextCode (len lens n) = word lens n :=
          hnext (len lens n) (by omega) (hcode.le n)
        have hstep := @entry_nextCode_step lens hcode n hzero nextCode hlength hnext
        obtain ⟨h1, h2, h3⟩ := @ih (n + 1) _
          { tree with fc := tree.fc.set n (biReverse (word lens n) (len lens n)) } (by omega) hdl
          (by rwa [List.length_set]) (by rwa [List.length_modify])
          (fun l hl hm => hstep hl hm)
        rw [if_neg hzero, hword]
        refine ⟨h1, ?_, ?_⟩
        · intro m hm
          rw [h2 m (by omega), entry_set, if_neg (by omega)]
        · intro m hge hlt hm
          by_cases hmn : m = n
          · subst hmn
            rw [h2 m (by omega), entry_set, if_pos ⟨rfl, by omega⟩]
          · exact h3 m (by omega) (by omega) hm

/-! ## Trees that carry a code -/

/-- The tree has the words of the canonical code of these lengths. -/
structure Coded (tree : Tree) (lens : List Nat) : Prop where
  isCode : IsCode lens maxBits
  dl : ∀ n, n < lens.length → entry tree.dl n = len lens n
  fc : ∀ n, len lens n ≠ 0 → entry tree.fc n = biReverse (word lens n) (len lens n)

/-- `gen_codes` makes a tree of the lengths it is given, if `bl_count` counts them. -/
theorem genCodes_coded {tree : Tree} {maxCode : Nat} {blCount : List Nat} {lens : List Nat}
    (hlens : lens = tree.dl.take (maxCode + 1)) (hdl : maxCode < tree.dl.length)
    (hfc : maxCode < tree.fc.length) (hcode : IsCode lens maxBits) (hzero : entry blCount 0 = 0)
    (hcount : ∀ l, 1 ≤ l → l ≤ maxBits → entry blCount l = count lens l) :
    Coded (genCodes tree maxCode blCount) lens ∧
      (genCodes tree maxCode blCount).dl = tree.dl := by
  have hlength : lens.length = maxCode + 1 := by
    rw [hlens, List.length_take]
    omega
  have hentry : ∀ m, m < lens.length → entry tree.dl m = len lens m := by
    intro m hm
    rw [hlens, len, entry, List.getD_eq_getElem?_getD, List.getD_eq_getElem?_getD,
      List.getElem?_take_of_lt (by omega)]
  have hnext : ∀ l, 1 ≤ l → l ≤ maxBits →
      entry (0 :: nextCodes blCount maxBits 1 0) l =
        first (count lens) l + count (lens.take 0) l := by
    intro l hl hm
    obtain ⟨i, rfl⟩ : ∃ i, l = i + 1 := ⟨l - 1, by omega⟩
    show entry (nextCodes blCount maxBits 1 0) i = _
    rw [entry_nextCodes hcode.fits hcount (Nat.le_refl 1) (Nat.le_refl _) (by omega)
      (by rw [hzero]; rfl),
      Nat.add_comm 1 i]
    rfl
  obtain ⟨h1, -, h3⟩ := @genCodesLoop_spec lens hcode (maxCode + 1) 0 _ tree (by omega) hentry
    (by omega) rfl hnext
  refine ⟨⟨hcode, ?_, ?_⟩, h1⟩
  · intro n hn
    rw [← hentry n hn]
    exact congrArg (entry · n) h1
  · intro n hn
    have hlt := Canonical.lt_length_of_len_ne_zero lens hn
    exact h3 n (Nat.zero_le n) (by omega) hn

/-- The word of a symbol, the highest bit first. -/
def codeBits (lens : List Nat) (n : Nat) : List Bool := msb (len lens n) (word lens n)

theorem Coded.sendCode_sent {tree : Tree} {lens : List Nat} (h : Coded tree lens) {n : Nat}
    (hn : len lens n ≠ 0) {s : Out} (hs : s.Valid) :
    Sent s (codeBits lens n) (sendCode n tree s) := by
  have hle := h.isCode.le n
  obtain ⟨hlt, hbits⟩ := lsb_biReverse (show 1 ≤ len lens n by omega) (word lens n)
  rw [sendCode, h.fc n hn, h.dl n (Canonical.lt_length_of_len_ne_zero lens hn), codeBits, ← hbits]
  exact sendBits_sent hs (by rw [maxBits] at hle; omega) hlt

end Trees
